import Interlock.Proofs.Deadlock.Soundness

/-! Without recursion and without a cut nothing is missed. What a run of a function comes to shows
in the stacks that the function is left with or in the observations, and so a summary can stand
for the run of a function: what happened inside was observed when the summary was made. -/

namespace Interlock.Deadlock

variable {g : CallGraph} {root : FunctionId}

/-- What a run comes to can be read off some exit stacks and the observations of a walk. -/
def Shows (entry : List Held) (exits : List RelStack) (w : Walk) : Event → Prop
  | .leave held => ∃ x ∈ exits, locksOf (x.materialize entry) = held
  | .take lock held => ∀ a ∈ held, w.outcome.Observes a lock

/-- Every summary shows all runs of its function. -/
def Memoized (g : CallGraph) (w : Walk) : Prop :=
  ∀ f entry exits, w.summaries[(f, locksOf entry)]? = some exits →
    ∀ ev, Run g noSkip f (g.entries f) (locksOf entry) ev → Shows entry exits w ev

/-- A way to follow calls that misses nothing unless it cuts, as far as it is used from `path`
on. -/
def Complete (g : CallGraph) (root : FunctionId) (path : List FunctionId) (F : Follow) : Prop :=
  ∀ f entry w, w.path = path → g.Trail root path f → Memoized g w →
    (F f entry w).2.outcome.truncated = false →
    Memoized g (F f entry w).2 ∧
      ∀ ev, Run g noSkip f (g.entries f) (locksOf entry) ev →
        Shows entry (F f entry w).1 (F f entry w).2 ev

theorem Shows.mono {entry : List Held} {exits exits' : List RelStack} {w w' : Walk} {ev : Event}
    (h : Shows entry exits w ev) (hexits : ∀ x ∈ exits, x ∈ exits')
    (hobs : ∀ a b, w.outcome.Observes a b → w'.outcome.Observes a b) :
    Shows entry exits' w' ev := by
  cases ev with
  | leave held =>
    obtain ⟨x, hx, hlocks⟩ := h
    exact ⟨x, hexits x hx, hlocks⟩
  | take lock held => exact fun a ha => hobs a lock (h a ha)

theorem Shows.congr {entry entry' : List Held} {exits : List RelStack} {w : Walk} {ev : Event}
    (hlocks : locksOf entry = locksOf entry') (h : Shows entry exits w ev) :
    Shows entry' exits w ev := by
  cases ev with
  | leave held =>
    obtain ⟨x, hx, rfl⟩ := h
    exact ⟨x, hx, (RelStack.locksOf_materialize_congr hlocks).symm⟩
  | take lock held => exact h

theorem Memoized.mono {w w' : Walk} (h : Memoized g w) (hsum : w'.summaries = w.summaries)
    (hobs : ∀ a b, w.outcome.Observes a b → w'.outcome.Observes a b) : Memoized g w' := by
  intro f entry exits hget ev hrun
  rw [hsum] at hget
  exact (h f entry exits hget ev hrun).mono (fun _ hx => hx) hobs

/-- Storing a summary that shows all runs of its function. -/
theorem Memoized.close {w : Walk} (h : Memoized g w) {f : FunctionId} {entry : List Held}
    {exits : List RelStack}
    (hx : ∀ ev, Run g noSkip f (g.entries f) (locksOf entry) ev → Shows entry exits w ev) :
    Memoized g (w.close f entry exits) := by
  intro f' entry' exits' hget ev hrun
  rcases Walk.summaries_close hget with ⟨rfl, hlocks, rfl⟩ | hget
  · rw [← hlocks] at hrun
    exact (hx ev hrun).congr hlocks
  · exact h f' entry' exits' hget ev hrun

/-- What holds after one step of a fold and is kept by the others holds at the end. -/
theorem foldl_of_mem {β ι : Type} {P Q : β → Prop} {step : β → ι → β} {is : List ι} {i : ι}
    (hi : i ∈ is) {b : β} (hb : P b) (hP : ∀ b, P b → ∀ j ∈ is, P (step b j))
    (hQ : ∀ b, P b → Q (step b i)) (hkeep : ∀ b j, Q b → Q (step b j)) :
    Q (is.foldl step b) := by
  induction is generalizing b with
  | nil => simp at hi
  | cons j is ih =>
    rw [List.foldl_cons]
    rcases List.mem_cons.mp hi with rfl | hi
    · exact List.foldlRecOn is step (hQ b hb) fun b hb j _ => hkeep b j hb
    · exact ih hi (hP b hb j List.mem_cons_self)
        (fun b hb j hj => hP b hb j (List.mem_cons_of_mem _ hj))

/-! ## The entries of a function -/

/-- The summaries are in order, unless something was cut. -/
structure Ready (g : CallGraph) (path : List FunctionId) (acc : List RelStack × Walk) : Prop where
  path : acc.2.path = path
  memoized : acc.2.outcome.truncated = false → Memoized g acc.2

/-- A run that goes through the callee `c`: it comes to a point inside, or goes on after it. -/
def Through (g : CallGraph) (f c : FunctionId) (es : List GraphEntry) (held : List LockId)
    (ev : Event) : Prop :=
  (∃ lock within, ev = .take lock within ∧ Run g noSkip c (g.entries c) held ev) ∨
    ∃ left, Run g noSkip c (g.entries c) held (.leave left) ∧ Run g noSkip f es left ev

/-- Whatever a run of some entries comes to from a stack is observed already, or a run of the
entries that are left comes to it from a stack that was collected. -/
def Advances (g : CallGraph) (f : FunctionId) (entry : List Held) (es : List GraphEntry)
    (acc : List RelStack × Walk) (ev : Event) : Prop :=
  (∃ lock held, ev = .take lock held ∧ ∀ a ∈ held, acc.2.outcome.Observes a lock) ∨
    ∃ t ∈ acc.1, t.Fits entry ∧ Run g noSkip f es (locksOf (t.materialize entry)) ev

theorem Advances.mono {f : FunctionId} {entry : List Held} {es : List GraphEntry}
    {acc acc' : List RelStack × Walk} {ev : Event} (h : Advances g f entry es acc ev)
    (hacc : Accumulates acc acc') : Advances g f entry es acc' ev := by
  rcases h with ⟨lock, held, rfl, hobs⟩ | ⟨t, ht, hrun⟩
  · exact Or.inl ⟨lock, held, rfl, fun a ha => hacc.walk.observes a lock (hobs a ha)⟩
  · exact Or.inr ⟨t, hacc.states t ht, hrun⟩

section Body

-- `path` ends with the function `f` whose entries are taken
variable {F : Follow} {path : List FunctionId} {f : FunctionId} {entry : List Held}
  {acc : List RelStack × Walk} (hF : Complete g root path F) (hgrow : Growing F)
  (hnext : ∀ c, g.Calls f c → g.Trail root path c)

include hF hgrow

theorem Ready.callee (h : Ready g path acc) {c : FunctionId} (htrail : g.Trail root path c)
    (held : List Held) (s : RelStack) : Ready g path (stepCallee F held s acc c) := by
  have hwalk := hgrow c held acc.2
  refine ⟨hwalk.path.trans h.path, fun hfull => ?_⟩
  exact (hF c held acc.2 h.path htrail (h.memoized (hwalk.full hfull)) hfull).1

include hnext

theorem Ready.state (h : Ready g path acc) {e : GraphEntry} (hsite : e ∈ g.entries f)
    (s : RelStack) : Ready g path (stepState F f entry e acc s) := by
  obtain ⟨next, w⟩ := acc
  cases e with
  | acquire lock =>
    have hwalk := w.recordAcquire_grows (f := f) (s.materialize entry) lock
    exact ⟨h.path, fun hfull => (h.memoized hfull).mono rfl hwalk.observes⟩
  | release lock => exact ⟨h.path, h.memoized⟩
  | dynamic => exact h
  | calls cs =>
    cases cs with
    | nil => exact ⟨h.path, h.memoized⟩
    | cons c cs =>
      exact List.foldlRecOn (c :: cs) _ h fun acc hacc c' hc' =>
        hacc.callee hF hgrow (hnext c' ⟨_, hsite, hc'⟩) _ s

omit hnext in
/-- A callee that a run goes through: what happens inside is observed, and the stack it leaves is
collected. -/
theorem Advances.callee (h : Ready g path acc) {c : FunctionId} (htrail : g.Trail root path c)
    {s : RelStack} (hs : s.Fits entry) {es : List GraphEntry} {ev : Event}
    (hrun : Through g f c es (locksOf (s.materialize entry)) ev)
    (hfull : (stepCallee F (s.materialize entry) s acc c).2.outcome.truncated = false) :
    Advances g f entry es (stepCallee F (s.materialize entry) s acc c) ev := by
  have hwalk := hgrow c (s.materialize entry) acc.2
  obtain ⟨-, hshows⟩ := hF c _ acc.2 h.path htrail (h.memoized (hwalk.full hfull)) hfull
  rcases hrun with ⟨lock, held, rfl, hrun⟩ | ⟨left, hleft, hrun⟩
  · exact Or.inl ⟨lock, held, rfl, hshows _ hrun⟩
  · obtain ⟨x, hx, rfl⟩ := hshows _ hleft
    refine Or.inr ⟨s.compose x, ?_, RelStack.fits_compose hs x, ?_⟩
    · exact Ordered.mem_union.mpr (Or.inr (List.mem_map.mpr ⟨x, hx, rfl⟩))
    · rwa [RelStack.materialize_compose hs]

theorem Advances.state (h : Ready g path acc) {e : GraphEntry} (hsite : e ∈ g.entries f)
    {s : RelStack} (hs : s.Fits entry) {es : List GraphEntry} {ev : Event}
    (hrun : Run g noSkip f (e :: es) (locksOf (s.materialize entry)) ev)
    (hfull : (stepState F f entry e acc s).2.outcome.truncated = false) :
    Advances g f entry es (stepState F f entry e acc s) ev := by
  obtain ⟨next, w⟩ := acc
  cases e with
  | acquire lock =>
    cases hrun with
    | take => exact Or.inl ⟨lock, _, rfl, fun a ha =>
        Walk.recordAcquire_observes.mpr (Or.inr ⟨rfl, ha⟩)⟩
    | acquire hrun =>
      refine Or.inr ⟨_, Ordered.mem_insert.mpr (Or.inl rfl), RelStack.fits_take hs _, ?_⟩
      rw [RelStack.materialize_take]
      simpa using hrun
  | release lock =>
    cases hrun with
    | release hrun =>
      refine Or.inr ⟨_, Ordered.mem_insert.mpr (Or.inl rfl),
        fun frame hframe => hs frame (RelStack.mem_of_mem_release hframe), ?_⟩
      rwa [RelStack.locksOf_release]
  | dynamic => cases hrun
  | calls cs =>
    cases cs with
    | nil =>
      cases hrun with
      | library hrun => exact Or.inr ⟨s, Ordered.mem_insert.mpr (Or.inl rfl), hs, hrun⟩
      | inside hc | call hc | skip hc => simp at hc
    | cons c₀ cs =>
      -- a run goes through one of the callees, and what is collected there stays
      have hvia : ∀ c ∈ c₀ :: cs, Through g f c es (locksOf (s.materialize entry)) ev →
          Advances g f entry es (stepState F f entry (.calls (c₀ :: cs)) (next, w) s) ev := by
        intro c hc hrun
        refine foldl_of_mem (P := Ready g path)
          (Q := fun acc => acc.2.outcome.truncated = false → Advances g f entry es acc ev)
          hc h ?_ ?_ ?_ hfull
        · exact fun acc hacc c' hc' => hacc.callee hF hgrow (hnext c' ⟨_, hsite, hc'⟩) _ s
        · exact fun acc hacc => Advances.callee hF hgrow hacc (hnext c ⟨_, hsite, hc⟩) hs hrun
        · intro acc c' hQ hfull'
          have hacc := stepCallee_accumulates hgrow (s.materialize entry) s acc c'
          exact (hQ (hacc.walk.full hfull')).mono hacc
      cases hrun with
      | inside hc hrun => exact hvia _ hc (Or.inl ⟨_, _, rfl, hrun⟩)
      | call hc hleft hrun => exact hvia _ hc (Or.inr ⟨_, hleft, hrun⟩)
      | skip _ hskip _ => exact hskip.elim

theorem Ready.step (h : Ready g path acc) {e : GraphEntry} (hsite : e ∈ g.entries f)
    (cap : Nat) : Ready g path (stepEntry F cap f entry acc e) := by
  have hempty : Ready g path ([], acc.2) := ⟨h.path, h.memoized⟩
  have hfold : Ready g path (acc.1.foldl (stepState F f entry e) ([], acc.2)) :=
    List.foldlRecOn acc.1 _ hempty fun acc hacc s _ => hacc.state hF hgrow hnext hsite s
  refine ⟨(Walk.bound_grows _ _).path.trans hfold.path, fun hfull => ?_⟩
  have heq := stepEntry_eq_of_full hfull
  rw [heq] at hfull ⊢
  exact hfold.memoized hfull

theorem Advances.step (h : Ready g path acc) {e : GraphEntry} (hsite : e ∈ g.entries f)
    {s : RelStack} (hmem : s ∈ acc.1) (hs : s.Fits entry) {es : List GraphEntry} {ev : Event}
    (hrun : Run g noSkip f (e :: es) (locksOf (s.materialize entry)) ev) {cap : Nat}
    (hfull : (stepEntry F cap f entry acc e).2.outcome.truncated = false) :
    Advances g f entry es (stepEntry F cap f entry acc e) ev := by
  have hempty : Ready g path ([], acc.2) := ⟨h.path, h.memoized⟩
  have heq := stepEntry_eq_of_full hfull
  rw [heq] at hfull ⊢
  refine foldl_of_mem (P := Ready g path)
    (Q := fun acc => acc.2.outcome.truncated = false → Advances g f entry es acc ev)
    hmem hempty ?_ ?_ ?_ hfull
  · exact fun acc hacc t _ => hacc.state hF hgrow hnext hsite t
  · exact fun acc hacc => Advances.state hF hgrow hnext hacc hsite hs hrun
  · intro acc t hQ hfull'
    have hacc : Accumulates acc (stepState F f entry e acc t) :=
      stepState_accumulates hgrow e acc t
    exact (hQ (hacc.walk.full hfull')).mono hacc

theorem Ready.foldl (h : Ready g path acc) {es : List GraphEntry} (hsub : es ⊆ g.entries f)
    (cap : Nat) : Ready g path (es.foldl (stepEntry F cap f entry) acc) :=
  List.foldlRecOn es _ h fun _ hacc _ he => hacc.step hF hgrow hnext (hsub he) cap

/-- Runs of the entries that are left, from any of the stacks, show at the end. -/
theorem shows_of_run (h : Ready g path acc) {es : List GraphEntry} (hsub : es ⊆ g.entries f)
    {s : RelStack} (hmem : s ∈ acc.1) (hs : s.Fits entry) {ev : Event}
    (hrun : Run g noSkip f es (locksOf (s.materialize entry)) ev) {cap : Nat}
    (hfull : (es.foldl (stepEntry F cap f entry) acc).2.outcome.truncated = false) :
    Shows entry (es.foldl (stepEntry F cap f entry) acc).1
      (es.foldl (stepEntry F cap f entry) acc).2 ev := by
  induction es generalizing acc s with
  | nil =>
    cases hrun
    exact ⟨s, hmem, rfl⟩
  | cons e es ih =>
    have hsite : e ∈ g.entries f := hsub List.mem_cons_self
    have hgrows : Walk.Grows (stepEntry F cap f entry acc e).2
        ((e :: es).foldl (stepEntry F cap f entry) acc).2 :=
      foldl_stepEntry_grows hgrow es _
    rcases Advances.step hF hgrow hnext h hsite hmem hs hrun (hgrows.full hfull) with
      ⟨lock, held, rfl, hobs⟩ | ⟨t, ht, hfits, hrest⟩
    · exact fun a ha => hgrows.observes a lock (hobs a ha)
    · exact ih (h.step hF hgrow hnext hsite cap) (List.subset_of_cons_subset hsub) ht hfits hrest
        hfull

end Body

/-! ## The whole traversal -/

theorem follow_complete (hg : g.RecursionFree) (cap depth : Nat) (path : List FunctionId)
    (hdepth : g.size < depth + path.length) : Complete g root path (follow g cap depth) := by
  induction depth generalizing path with
  | zero =>
    intro f entry w _ htrail
    have := htrail.length_le
    omega
  | succ depth ih =>
    intro f entry w hpath htrail hw hfull
    subst hpath
    have hf : f ∉ w.path := htrail.not_mem_of_recursionFree hg
    rcases follow_cases g cap depth f entry w with ⟨hmem, -⟩ | ⟨-, exits, hget, h⟩ | ⟨-, -, h⟩
    · exact absurd hmem hf
    · rw [h]
      exact ⟨hw, hw f entry exits hget⟩
    · rw [h] at hfull ⊢
      have hF : Complete g root (w.path ++ [f]) (follow g cap depth) :=
        ih _ (by simp only [List.length_append, List.length_singleton]; omega)
      have hgrow := follow_growing g cap depth
      have hnext : ∀ c, g.Calls f c → g.Trail root (w.path ++ [f]) c :=
        fun c hc => htrail.call hf hc
      have hstart : Ready g (w.path ++ [f])
          ([.identity entry], { w with path := w.path ++ [f] }) :=
        ⟨rfl, fun _ => hw.mono rfl fun _ _ h => h⟩
      have hend : Memoized g (runBody g cap (follow g cap depth) f entry w).2 :=
        (hstart.foldl hF hgrow hnext (List.Subset.refl _) cap).memoized hfull
      have hshows : ∀ ev, Run g noSkip f (g.entries f) (locksOf entry) ev →
          Shows entry (runBody g cap (follow g cap depth) f entry w).1
            (runBody g cap (follow g cap depth) f entry w).2 ev := by
        intro ev hrun
        rw [← RelStack.materialize_identity entry] at hrun
        exact shows_of_run hF hgrow hnext hstart (List.Subset.refl _) List.mem_cons_self
          (RelStack.fits_identity entry) hrun hfull
      exact ⟨hend.close hshows, fun ev hrun => (hshows ev hrun).mono (fun _ hx => hx)
        fun _ _ h => h⟩

/-- A root observes what its runs come to. -/
theorem observes_of_meets (hg : g.RecursionFree) {cap : Nat} {a b : LockId}
    (hfull : (traverse g cap root).truncated = false) (h : Meets g noSkip root a b) :
    (traverse g cap root).Observes a b := by
  obtain ⟨stack, hrun, ha⟩ := h
  have hempty : Memoized g {} := by
    intro f entry exits hget
    simp at hget
  have hshows := (follow_complete hg (max cap 1) (g.size + 1) [] (by simp) root [] {} rfl .start
    hempty hfull).2
  exact hshows _ hrun a ha

/-- Without recursion, a root observes only what its runs come to. -/
theorem meets_of_observes_of_recursionFree (hg : g.RecursionFree) {cap : Nat} {a b : LockId}
    (h : (traverse g cap root).Observes a b) : Meets g noSkip root a b := by
  obtain ⟨stack, hrun, ha⟩ := meets_of_observes h
  exact ⟨stack, hrun.noSkip_of_recursionFree hg (List.Subset.refl _), ha⟩

/-- Without recursion and without a cut, the lock order of a program is exact: it holds a pair of
different locks exactly if some run of some root takes the one while it holds the other, and it
holds a lock as taken again exactly if some such run takes it while it holds it. -/
theorem lockOrder_exact (g : CallGraph) (cap : Nat) (hg : g.RecursionFree)
    (hfull : (lockOrder g cap).truncated = false) :
    (∀ a b, (lockOrder g cap).order.contains a b = true ↔
      a ≠ b ∧ ∃ root ∈ roots g, Meets g noSkip root a b) ∧
    ∀ l, l ∈ (lockOrder g cap).reentrancies.map (·.1) ↔
      ∃ root ∈ roots g, Meets g noSkip root l l := by
  have hroots := lockOrder_truncated.mp hfull
  have hexact : ∀ a b, (lockOrder g cap).Observes a b ↔
      ∃ root ∈ roots g, Meets g noSkip root a b := by
    intro a b
    rw [lockOrder_observes]
    constructor
    · rintro ⟨root, hr, h⟩
      exact ⟨root, hr, meets_of_observes_of_recursionFree hg h⟩
    · rintro ⟨root, hr, h⟩
      exact ⟨root, hr, observes_of_meets hg (hroots root hr) h⟩
  constructor
  · intro a b
    rw [Outcome.contains_iff_observes, hexact]
  · intro l
    rw [← Outcome.observes_self, hexact]

/-- One callee gives up the lock of its caller, the other keeps a lock of its own. -/
def handover : CallGraph where
  nodes := [⟨0, [.acquire 1, .calls [1, 2], .acquire 3]⟩, ⟨1, [.release 1]⟩, ⟨2, [.acquire 2]⟩]
  threads := []

theorem handover_exact : (lockOrder handover 64).truncated = false ∧
    (∃ root ∈ roots handover, Meets handover noSkip root 2 3) ∧
    ¬ ∃ root ∈ roots handover, Meets handover noSkip root 3 1 := by
  have hg : handover.RecursionFree := CallGraph.recursionFree_of_ascending (by decide)
  have hfull : (lockOrder handover 64).truncated = false := by cbv
  have hnot : (lockOrder handover 64).order.contains 3 1 = false := by cbv
  have h := (lockOrder_exact handover 64 hg hfull).1
  refine ⟨hfull, ((h 2 3).mp (by cbv)).2, fun hmeets => ?_⟩
  have hyes := (h 3 1).mpr ⟨by decide, hmeets⟩
  rw [hnot] at hyes
  cases hyes

end Interlock.Deadlock
