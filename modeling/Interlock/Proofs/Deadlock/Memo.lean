import Interlock.Proofs.Deadlock.Parallel
import Interlock.Proofs.Deadlock.Soundness

/-! What the summaries of a traversal are worth. A summary is stored under the function and the
locks that are held, but what a function does also depends on the functions on the path, because
calls of those are cut. A traversal that stores nothing is therefore not the same in general. It
is the same where every function that is come to with the same locks is cut alike, and there the
exit stacks themselves agree, cut sets included. -/

namespace Interlock.Deadlock

open Arrival (ComesTo Enters)

variable {g : CallGraph} {root : FunctionId} {cap : Nat}

/-- `follow` without looking at summaries: only a function that is on the path is not run. -/
def followAfresh (g : CallGraph) (cap : Nat) : Nat → Follow
  | 0, _, entry, w => ([.identity entry], w)
  | depth + 1, function, entry, w =>
    if function ∈ w.path then ([.identity entry], w)
    else
      let (exits, w) := runBody g cap (followAfresh g cap depth) function entry w
      (exits, w.leave)

/-- `traverse` without summaries. -/
def traverseAfresh (g : CallGraph) (maxExitStates : Nat) (root : FunctionId) : Outcome :=
  (followAfresh g (max maxExitStates 1) (g.size + 1) root [] {}).2.outcome

/-! ## Cuts -/

/-- The functions whose calls are cut below `a`, because they are on its path, are also on the
path of `b`. -/
def CutsWithin (g : CallGraph) (a b : Arrival) : Prop :=
  ∀ c, ComesTo g a c → c.function ∈ a.path → c.function ∈ b.path

/-- Whenever a function is come to in two ways with the same locks held, which is when one summary
serves both, the same calls are cut below it. -/
def UniformCuts (g : CallGraph) (root : FunctionId) : Prop :=
  ∀ p q f held, ComesTo g (.start root) ⟨p, f, held⟩ → ComesTo g (.start root) ⟨q, f, held⟩ →
    f ∉ p → f ∉ q → CutsWithin g ⟨p, f, held⟩ ⟨q, f, held⟩

theorem CutsWithin.enter {a b c d : Arrival} (h : CutsWithin g a b) (hac : Enters g a c)
    (hbd : d.path = b.path ++ [a.function]) : CutsWithin g c d := by
  intro e hce he
  rw [hac.path] at he
  rw [hbd]
  rcases List.mem_append.mp he with he | he
  · exact List.mem_append_left _ (h e (.head hac hce) he)
  · exact List.mem_append_right _ he

/-- Cuts can be compared on a list of trails that is closed under calls. -/
theorem uniformCuts_of_trails (ts : List (List FunctionId × FunctionId)) (hroot : ([], root) ∈ ts)
    (hcalls : ∀ t ∈ ts, t.2 ∉ t.1 → ∀ c ∈ g.callees t.2, (t.1 ++ [t.2], c) ∈ ts)
    (hcuts : ∀ t ∈ ts, ∀ u ∈ ts, t.2 = u.2 → t.2 ∉ t.1 → u.2 ∉ u.1 →
      ∀ v ∈ ts, t.1 <+: v.1 → v.2 ∈ t.1 → v.2 ∈ u.1) : UniformCuts g root := by
  have hmem : ∀ a, ComesTo g (.start root) a → (a.path, a.function) ∈ ts := by
    intro a ha
    induction ha with
    | refl => exact hroot
    | tail _ h ih =>
      rw [h.path]
      exact hcalls _ ih h.fresh _ (CallGraph.mem_callees.mpr h.calls)
  intro p q f held hp hq hfp hfq c hc
  exact hcuts _ (hmem _ hp) _ (hmem _ hq) rfl hfp hfq _ (hmem _ (hp.trans hc)) hc.path_extends

/-- `realised` without what it says of observations. -/
def arriving (g : CallGraph) (root : FunctionId) : Invariant g root :=
  { realised g root with
    seen := fun _ _ _ => True
    observe := fun _ _ _ _ _ _ => trivial }

/-- The calls that a body makes are calls that runs come to. -/
theorem enters_of_mem {F : Follow} {f : FunctionId} {entry : List Held} {w : Walk}
    (hF : (arriving g root).Sound (w.path ++ [f]) F) (hgrow : Growing F)
    (hw : (arriving g root).Holds w) (hctx : ComesTo g (.start root) ⟨w.path, f, locksOf entry⟩)
    (hf : f ∉ w.path) (cap : Nat) (done : List GraphEntry) (cs : List FunctionId)
    (rest : List GraphEntry) (hdone : g.entries f = done ++ .calls cs :: rest) (s : RelStack)
    (hs : s ∈ (done.foldl (stepEntry F cap f entry)
      ([.identity entry], { w with path := w.path ++ [f] })).1) (c : FunctionId) (hc : c ∈ cs) :
    Enters g ⟨w.path, f, locksOf entry⟩
      ⟨w.path ++ [f], c, locksOf (s.materialize entry)⟩ := by
  have hstate := (hw.body hF hgrow hctx.trail hf hctx cap hdone).states s hs
  exact ⟨hf, rfl, cs, rest, hc, hstate.2⟩

/-- Two walks on paths of their own, where the second has observed what the first has and what `K`
holds besides. -/
structure Beside (g : CallGraph) (root : FunctionId) (K : LockId → LockId → Prop)
    (p q : List FunctionId) (w w' : Walk) : Prop where
  path : w.path = p
  path' : w'.path = q
  holds : (arriving g root).Holds w
  observes : ∀ a b, w'.outcome.Observes a b ↔ w.outcome.Observes a b ∨ K a b

namespace Beside

variable {K : LockId → LockId → Prop} {p q : List FunctionId} {w w' : Walk}

theorem record (h : Beside g root K p q w w') (f : FunctionId) {held held' : List Held}
    (lock : LockId) (hlocks : locksOf held = locksOf held') :
    Beside g root K p q (w.recordAcquire f held lock) (w'.recordAcquire f held' lock) := by
  refine ⟨h.path, h.path', h.holds.recordAcquire fun _ _ => trivial, fun a b => ?_⟩
  rw [Walk.recordAcquire_observes, Walk.recordAcquire_observes, h.observes, hlocks]
  exact or_right_comm

theorem cut (h : Beside g root K p q w w') : Beside g root K p q w.cut w'.cut :=
  ⟨h.path, h.path', h.holds.of_eq rfl rfl rfl, h.observes⟩

theorem enter (h : Beside g root K p q w w') (f : FunctionId) :
    Beside g root K (p ++ [f]) (q ++ [f]) { w with path := w.path ++ [f] }
      { w' with path := w'.path ++ [f] } :=
  ⟨by rw [h.path], by rw [h.path'], h.holds.of_eq rfl rfl rfl, h.observes⟩

theorem leave {f : FunctionId} (h : Beside g root K (p ++ [f]) (q ++ [f]) w w') :
    Beside g root K p q w.leave w'.leave := by
  refine ⟨?_, ?_, h.holds.of_eq rfl rfl rfl, h.observes⟩
  · rw [Walk.leave, h.path, List.dropLast_concat]
  · rw [Walk.leave, h.path', List.dropLast_concat]

end Beside

/-! ## Two traversals that store nothing -/

theorem followAfresh_of_mem {depth : Nat} {f : FunctionId} {entry : List Held} {w : Walk}
    (hf : f ∈ w.path) : followAfresh g cap (depth + 1) f entry w = ([.identity entry], w) := by
  simp [followAfresh, hf]

theorem followAfresh_of_not_mem {depth : Nat} {f : FunctionId} {entry : List Held} {w : Walk}
    (hf : f ∉ w.path) : followAfresh g cap (depth + 1) f entry w =
      ((runBody g cap (followAfresh g cap depth) f entry w).1,
        (runBody g cap (followAfresh g cap depth) f entry w).2.leave) := by
  simp [followAfresh, hf]

theorem followAfresh_growing (g : CallGraph) (cap depth : Nat) :
    Growing (followAfresh g cap depth) := by
  induction depth with
  | zero => exact fun f entry w => .refl w
  | succ depth ih =>
    intro f entry w
    by_cases hf : f ∈ w.path
    · rw [followAfresh_of_mem hf]
      exact .refl w
    · rw [followAfresh_of_not_mem hf]
      exact runBody_grows ih w

theorem followAfresh_sound (I : Invariant g root) (cap depth : Nat) (path : List FunctionId)
    (hdepth : g.size < depth + path.length) : I.Sound path (followAfresh g cap depth) := by
  induction depth generalizing path with
  | zero =>
    intro f entry w _ htrail
    have := htrail.length_le
    omega
  | succ depth ih =>
    intro f entry w hpath htrail hctx hw
    subst hpath
    by_cases hf : f ∈ w.path
    · rw [followAfresh_of_mem hf]
      exact ⟨hw, fun x hx => Or.inl ⟨hf, List.mem_singleton.mp hx⟩⟩
    · rw [followAfresh_of_not_mem hf]
      have hF : I.Sound (w.path ++ [f]) (followAfresh g cap depth) :=
        ih _ (by simp only [List.length_append, List.length_singleton]; omega)
      have hend : I.Between w.path f entry []
          (runBody g cap (followAfresh g cap depth) f entry w) :=
        hw.body hF (followAfresh_growing g cap depth) htrail hf hctx cap (List.append_nil _).symm
      exact ⟨hend.holds.of_eq rfl rfl rfl, fun x hx => Or.inr (I.leave (hend.states x hx))⟩

/-- Only the functions on the path that can be called again matter, and neither the depth nor what
was observed before. -/
theorem followAfresh_beside (cap : Nat) (K : LockId → LockId → Prop) (depth depth' : Nat)
    (f : FunctionId) {p q : List FunctionId} {entry entry' : List Held} {w w' : Walk}
    (hp : ComesTo g (.start root) ⟨p, f, locksOf entry⟩)
    (hq : ComesTo g (.start root) ⟨q, f, locksOf entry⟩)
    (hdepth : g.size < depth + p.length) (hdepth' : g.size < depth' + q.length)
    (hlocks : locksOf entry = locksOf entry')
    (hpq : CutsWithin g ⟨p, f, locksOf entry⟩ ⟨q, f, locksOf entry⟩)
    (hqp : CutsWithin g ⟨q, f, locksOf entry⟩ ⟨p, f, locksOf entry⟩)
    (hw : Beside g root K p q w w') :
    Alike (Beside g root K p q) (followAfresh g cap depth f entry w)
      (followAfresh g cap depth' f entry' w') := by
  induction depth generalizing depth' f p q entry entry' w w' with
  | zero =>
    have hlen : p.length ≤ g.size := hp.trail.length_le
    omega
  | succ depth ih =>
    cases depth' with
    | zero =>
      have hlen : q.length ≤ g.size := hq.trail.length_le
      omega
    | succ depth' =>
      obtain rfl := hw.path
      obtain rfl := hw.path'
      by_cases hf : f ∈ w.path
      · rw [followAfresh_of_mem hf, followAfresh_of_mem (hpq _ .refl hf)]
        exact ⟨by rw [RelStack.identity_congr hlocks], hw⟩
      · have hf' : f ∉ w'.path := fun h => hf (hqp _ .refl h)
        rw [followAfresh_of_not_mem hf, followAfresh_of_not_mem hf']
        have hlen : g.size < depth + (w.path ++ [f]).length := by
          rw [List.length_append, List.length_singleton]
          omega
        have hlen' : g.size < depth' + (w'.path ++ [f]).length := by
          rw [List.length_append, List.length_singleton]
          omega
        have hpar : Parallel (Beside g root K (w.path ++ [f]) (w'.path ++ [f])) f
            (fun c held => Enters g ⟨w.path, f, locksOf entry⟩ ⟨w.path ++ [f], c, locksOf held⟩)
            (followAfresh g cap depth) (followAfresh g cap depth') := by
          refine ⟨fun lock h => h.record f lock, Beside.cut, fun {c held _ _ _} hc hheld h => ?_⟩
          -- the same run makes the call on the other path
          have hc' : Enters g ⟨w'.path, f, locksOf entry⟩ ⟨w'.path ++ [f], c, locksOf held⟩ :=
            ⟨hf', rfl, hc.site⟩
          exact ih depth' c (hp.tail hc) (hq.tail hc') hlen hlen' hheld
            (hpq.enter hc rfl) (hqp.enter hc' rfl) h
        have hsound := followAfresh_sound (arriving g root) cap depth _ hlen
        have hbody := hpar.body hlocks cap
          (enters_of_mem hsound (followAfresh_growing g cap depth) hw.holds hp hf cap)
          (hw.enter f)
        exact ⟨hbody.states, hbody.walks.leave⟩

/-! ## Summaries -/

/-- Every summary is what running its function again would give, and everything that a run would
observe has been observed. -/
def Faithful (g : CallGraph) (root : FunctionId) (cap : Nat) (w : Walk) : Prop :=
  ∀ f entry exits, w.summaries[(f, locksOf entry)]? = some exits →
    ∀ depth v, ComesTo g (.start root) ⟨v.path, f, locksOf entry⟩ → f ∉ v.path →
      g.size < depth + v.path.length →
      (∀ a b, w.outcome.Observes a b → v.outcome.Observes a b) →
      (followAfresh g cap depth f entry v).1 = exits ∧
        ∀ a b, (followAfresh g cap depth f entry v).2.outcome.Observes a b →
          v.outcome.Observes a b

theorem Faithful.mono {w w' : Walk} (h : Faithful g root cap w)
    (hsum : w'.summaries = w.summaries)
    (hobs : ∀ a b, w.outcome.Observes a b → w'.outcome.Observes a b) :
    Faithful g root cap w' := by
  intro f entry exits hget depth v hv hf hdepth hle
  rw [hsum] at hget
  exact h f entry exits hget depth v hv hf hdepth fun a b hab => hle a b (hobs a b hab)

/-- A walk with summaries and one without, on the same path. -/
structure Mirrors (g : CallGraph) (root : FunctionId) (cap : Nat) (path : List FunctionId)
    (w w' : Walk) : Prop where
  beside : Beside g root (fun _ _ => False) path path w w'
  holds' : (arriving g root).Holds w'
  faithful : Faithful g root cap w

namespace Mirrors

variable {path : List FunctionId} {w w' : Walk}

theorem observes_iff (h : Mirrors g root cap path w w') (a b : LockId) :
    w'.outcome.Observes a b ↔ w.outcome.Observes a b := by
  rw [h.beside.observes, or_false]

theorem record (h : Mirrors g root cap path w w') (f : FunctionId) {held held' : List Held}
    (lock : LockId) (hlocks : locksOf held = locksOf held') :
    Mirrors g root cap path (w.recordAcquire f held lock) (w'.recordAcquire f held' lock) :=
  ⟨h.beside.record f lock hlocks, h.holds'.recordAcquire fun _ _ => trivial,
    h.faithful.mono rfl (w.recordAcquire_grows held lock).observes⟩

theorem cut (h : Mirrors g root cap path w w') : Mirrors g root cap path w.cut w'.cut :=
  ⟨h.beside.cut, h.holds'.of_eq rfl rfl rfl, h.faithful.mono rfl fun _ _ hab => hab⟩

theorem enter (h : Mirrors g root cap path w w') (f : FunctionId) :
    Mirrors g root cap (path ++ [f]) { w with path := w.path ++ [f] }
      { w' with path := w'.path ++ [f] } :=
  ⟨h.beside.enter f, h.holds'.of_eq rfl rfl rfl, h.faithful.mono rfl fun _ _ hab => hab⟩

/-- The one walk stores a summary, the other does not. -/
theorem close {f : FunctionId} {entry : List Held} {exits : List RelStack}
    (h : Mirrors g root cap (path ++ [f]) w w')
    (hexits : ∀ x ∈ exits, (arriving g root).exit f entry x)
    (hfaithful : Faithful g root cap (w.close f entry exits)) :
    Mirrors g root cap path (w.close f entry exits) w'.leave :=
  ⟨⟨h.beside.leave.path, h.beside.leave.path', h.beside.holds.close hexits, h.beside.observes⟩,
    h.holds'.of_eq rfl rfl rfl, hfaithful⟩

end Mirrors

/-- A summary is stored after its function was run beside a run that stores nothing: by
`followAfresh_beside`, running it again on any other path to it gives and observes the same. -/
theorem Faithful.close (hcuts : UniformCuts g root) {depth : Nat} {f : FunctionId}
    {entry entry' : List Held} {w' v : Walk} {exits : List RelStack}
    (hlocks : locksOf entry = locksOf entry')
    (hw' : ComesTo g (.start root) ⟨w'.path, f, locksOf entry'⟩)
    (hholds : (arriving g root).Holds w')
    (hf' : f ∉ w'.path) (hdepth : g.size < depth + w'.path.length)
    (hexits : (followAfresh g cap depth f entry' w').1 = exits)
    (hstart : ∀ a b, w'.outcome.Observes a b → v.outcome.Observes a b)
    (hend : ∀ a b, (followAfresh g cap depth f entry' w').2.outcome.Observes a b →
      v.outcome.Observes a b)
    (hv : Faithful g root cap v) : Faithful g root cap (v.close f entry exits) := by
  intro f₁ entry₁ exits₁ hget depth₁ u hu hfu hdepth₁ hle
  rcases Walk.summaries_close hget with ⟨rfl, hlocks₁, rfl⟩ | hget
  · have hsame : locksOf entry' = locksOf entry₁ := hlocks.symm.trans hlocks₁
    rw [← hsame] at hu
    have hbeside : Beside g root u.outcome.Observes w'.path u.path w' u :=
      ⟨rfl, rfl, hholds, fun a b => (or_iff_right_of_imp fun h => hle a b (hstart a b h)).symm⟩
    have halike := followAfresh_beside cap _ depth depth₁ f hw' hu hdepth hdepth₁ hsame
      (hcuts _ _ f _ hw' hu hf' hfu) (hcuts _ _ f _ hu hw' hfu hf') hbeside
    refine ⟨halike.states.symm.trans hexits, fun a b hab => ?_⟩
    rcases (halike.walks.observes a b).mp hab with hab | hab
    · exact hle a b (hend a b hab)
    · exact hab
  · exact hv f₁ entry₁ exits₁ hget depth₁ u hu hfu hdepth₁ hle

theorem follow_mirrors (hcuts : UniformCuts g root) (cap depth : Nat) (f : FunctionId)
    {path : List FunctionId} {entry entry' : List Held} {w w' : Walk}
    (hp : ComesTo g (.start root) ⟨path, f, locksOf entry⟩)
    (hdepth : g.size < depth + path.length)
    (hlocks : locksOf entry = locksOf entry') (hw : Mirrors g root cap path w w') :
    Alike (Mirrors g root cap path) (follow g cap depth f entry w)
      (followAfresh g cap depth f entry' w') := by
  induction depth generalizing f path entry entry' w w' with
  | zero =>
    have hlen : path.length ≤ g.size := hp.trail.length_le
    omega
  | succ depth ih =>
    obtain rfl := hw.beside.path
    have hpath' : w'.path = w.path := hw.beside.path'
    have hp' : ComesTo g (.start root) ⟨w'.path, f, locksOf entry'⟩ := by
      rwa [hpath', ← hlocks]
    have hdepth' : g.size < depth + 1 + w'.path.length := hpath' ▸ hdepth
    rcases follow_cases g cap depth f entry w with ⟨hf, h⟩ | ⟨hf, exits, hget, h⟩ | ⟨hf, -, h⟩
    · rw [h, followAfresh_of_mem (hpath' ▸ hf)]
      exact ⟨by rw [RelStack.identity_congr hlocks], hw⟩
    · -- a summary is found: running the function again would add nothing
      rw [h]
      rw [hlocks] at hget
      obtain ⟨hexits, hobs⟩ := hw.faithful f entry' exits hget (depth + 1) w' hp' (hpath' ▸ hf)
        hdepth' fun a b => (hw.observes_iff a b).mpr
      have hgrows := followAfresh_growing g cap (depth + 1) f entry' w'
      have hholds' := (followAfresh_sound (arriving g root) cap (depth + 1) w'.path hdepth' f
        entry' w' rfl hp'.trail hp' hw.holds').1
      refine ⟨hexits.symm, ⟨rfl, hgrows.path.trans hpath', hw.beside.holds, fun a b => ?_⟩,
        hholds', hw.faithful⟩
      rw [or_false, ← hw.observes_iff]
      exact ⟨hobs a b, hgrows.observes a b⟩
    · have hf' : f ∉ w'.path := hpath' ▸ hf
      rw [h]
      have hlen : g.size < depth + (w.path ++ [f]).length := by
        rw [List.length_append, List.length_singleton]
        omega
      have hpar : Parallel (Mirrors g root cap (w.path ++ [f])) f
          (fun c held => Enters g ⟨w.path, f, locksOf entry⟩ ⟨w.path ++ [f], c, locksOf held⟩)
          (follow g cap depth) (followAfresh g cap depth) := by
        refine ⟨fun lock hv hheld => hv.record f lock hheld, Mirrors.cut, ?_⟩
        exact fun hc hheld hv => ih _ (hp.tail hc) hlen hheld hv
      have hsound := (arriving g root).follow_sound cap depth _ hlen
      have hgrow := follow_growing g cap depth
      have hbody := hpar.body hlocks cap
        (enters_of_mem hsound hgrow hw.beside.holds hp hf cap) (hw.enter f)
      have hend := hw.beside.holds.body hsound hgrow hp.trail hf hp cap
        (List.append_nil (g.entries f)).symm
      have hafresh : followAfresh g cap (depth + 1) f entry' w' =
          ((runBody g cap (followAfresh g cap depth) f entry' w').1,
            (runBody g cap (followAfresh g cap depth) f entry' w').2.leave) :=
        followAfresh_of_not_mem hf'
      have hfaithful : Faithful g root cap
          ((runBody g cap (follow g cap depth) f entry w).2.close f entry
            (runBody g cap (follow g cap depth) f entry w).1) := by
        refine Faithful.close hcuts hlocks hp' hw.holds' hf' hdepth' ?_ ?_ ?_ hbody.walks.faithful
        · rw [hafresh, hbody.states]
        · exact fun a b hab => (runBody_grows hgrow w).observes a b ((hw.observes_iff a b).mp hab)
        · intro a b hab
          rw [hafresh] at hab
          exact (hbody.walks.observes_iff a b).mp hab
      rw [hafresh]
      exact ⟨hbody.states, hbody.walks.close
        (fun x hx => (arriving g root).leave (hend.states x hx)) hfaithful⟩

/-- Under uniform cuts, the summaries change nothing that is observed. -/
theorem observes_iff_afresh (hcuts : UniformCuts g root) (cap : Nat) (a b : LockId) :
    (traverse g cap root).Observes a b ↔ (traverseAfresh g cap root).Observes a b := by
  have hempty : (arriving g root).Holds {} := ⟨by simp, by simp, by simp⟩
  have hstart : Mirrors g root (max cap 1) [] {} {} := by
    refine ⟨⟨rfl, rfl, hempty, fun a b => (or_iff_left id).symm⟩, hempty, ?_⟩
    intro f entry exits hget
    simp at hget
  have hroot : ComesTo g (.start root) ⟨[], root, locksOf []⟩ := .refl
  have h := follow_mirrors hcuts (max cap 1) (g.size + 1) root hroot (by simp) rfl hstart
  exact (h.walks.observes_iff a b).symm

/-- Where every function that is come to with the same locks is cut alike, a traversal with
summaries finds the same order pairs and the same locks taken again as one that runs every call
afresh. -/
theorem traverse_eq_afresh (g : CallGraph) (cap : Nat) (root : FunctionId)
    (hcuts : UniformCuts g root) :
    (∀ a b, (traverse g cap root).order.contains a b = true ↔
      (traverseAfresh g cap root).order.contains a b = true) ∧
    ∀ l, l ∈ (traverse g cap root).reentrancies.map (·.1) ↔
      l ∈ (traverseAfresh g cap root).reentrancies.map (·.1) := by
  constructor
  · intro a b
    rw [Outcome.contains_iff_observes, Outcome.contains_iff_observes,
      observes_iff_afresh hcuts]
  · intro l
    rw [← Outcome.observes_self, ← Outcome.observes_self, observes_iff_afresh hcuts]

/-- Two ways lead to a function that calls back to where they part. Its second summary is taken
over from the first way. -/
def reunion : CallGraph where
  nodes := [⟨0, [.calls [1, 2]]⟩, ⟨1, [.acquire 1, .calls [3], .release 1]⟩,
    ⟨2, [.acquire 1, .calls [3], .release 1]⟩, ⟨3, [.calls [0], .acquire 2, .release 2]⟩]
  threads := []

theorem reunion_eq_afresh : UniformCuts reunion 0 ∧
    (traverseAfresh reunion 64 0).order.contains 1 2 = true := by
  have hcuts : UniformCuts reunion 0 := uniformCuts_of_trails
    [([], 0), ([0], 1), ([0], 2), ([0, 1], 3), ([0, 2], 3), ([0, 1, 3], 0), ([0, 2, 3], 0)]
    (by decide) (by decide) (by decide)
  exact ⟨hcuts, ((traverse_eq_afresh reunion 64 0 hcuts).1 1 2).mp (by cbv)⟩

/-- Functions 1 and 2 call each other and the root calls both. The summary of 2 is made below 1,
where its call of 1 is cut, and serves the call of the root too. -/
def twoWays : CallGraph where
  nodes := [⟨0, [.calls [1, 2]]⟩, ⟨1, [.calls [2], .acquire 2, .release 2]⟩,
    ⟨2, [.acquire 1, .calls [1], .release 1]⟩]
  threads := []

/-- Summaries are not transparent on all call graphs: they can lose an order pair. -/
theorem summaries_not_transparent : ¬ ∀ (g : CallGraph) (cap : Nat) (root : FunctionId),
    (∀ a b, (traverse g cap root).order.contains a b = true ↔
      (traverseAfresh g cap root).order.contains a b = true) ∧
    ∀ l, l ∈ (traverse g cap root).reentrancies.map (·.1) ↔
      l ∈ (traverseAfresh g cap root).reentrancies.map (·.1) := by
  intro h
  have hafresh : (traverseAfresh twoWays 64 0).order.contains 1 2 = true := by cbv
  have hlost : (traverse twoWays 64 0).order.contains 1 2 = false := by cbv
  have hfound := ((h twoWays 64 0).1 1 2).mpr hafresh
  rw [hlost] at hfound
  cases hfound

end Interlock.Deadlock
