import Interlock.Proofs.Deadlock.Calls

/-! Locks that are taken and released in nested regions. A function that keeps to them gives back
every stack as it found it, whatever it calls: before each of its entries there is one stack, the
one it was entered with and above it the regions that are open. So a release always meets the
innermost region and never a lock of the caller, nothing is ever cut, and whoever holds a lock is
still on the path. -/

namespace Interlock.Deadlock

/-! ## Nested regions -/

/-- Locks are taken and released in nested regions; calls may stand anywhere. -/
inductive WellNested : List GraphEntry → Prop
  | nil : WellNested []
  | calls {callees : List FunctionId} {es : List GraphEntry} :
      WellNested es → WellNested (.calls callees :: es)
  | region {lock : LockId} {inner es : List GraphEntry} :
      WellNested inner → WellNested es →
      WellNested (.acquire lock :: (inner ++ .release lock :: es))

/-- What is left of such entries while some regions are open, the innermost last. -/
inductive Closes : List LockId → List GraphEntry → Prop
  | nil : Closes [] []
  | calls {opened : List LockId} {callees : List FunctionId} {es : List GraphEntry} :
      Closes opened es → Closes opened (.calls callees :: es)
  | acquire {opened : List LockId} {lock : LockId} {es : List GraphEntry} :
      Closes (opened ++ [lock]) es → Closes opened (.acquire lock :: es)
  | release {opened : List LockId} {lock : LockId} {es : List GraphEntry} :
      Closes opened es → Closes (opened ++ [lock]) (.release lock :: es)

theorem WellNested.closes_append {es : List GraphEntry} (h : WellNested es)
    {opened : List LockId} {rest : List GraphEntry} (hrest : Closes opened rest) :
    Closes opened (es ++ rest) := by
  induction h generalizing opened rest with
  | nil => exact hrest
  | calls _ ih => exact .calls (ih hrest)
  | region _ _ ihInner ih =>
    rw [List.cons_append, List.append_assoc, List.cons_append]
    exact .acquire (ihInner (.release (ih hrest)))

theorem WellNested.closes {es : List GraphEntry} (h : WellNested es) : Closes [] es := by
  have hclosed := h.closes_append Closes.nil
  rwa [List.append_nil] at hclosed

/-- The bodies of all functions keep to nested regions. -/
def Structured (g : CallGraph) : Prop := ∀ node ∈ g.nodes, WellNested node.entries

theorem Structured.wellNested {g : CallGraph} (h : Structured g) (f : FunctionId) :
    WellNested (g.entries f) := by
  unfold CallGraph.entries
  split
  · next node hnode => exact h node (List.mem_of_getElem? hnode)
  · exact .nil

/-! ## Stacks with open regions -/

namespace RelStack

/-- The last frame of a lock is the one that was put on top. -/
theorem release_take (s : RelStack) (entry : List Held) (lock : LockId) (f : FunctionId) :
    release (s ++ [.acquired ⟨lock, f⟩]) entry lock = s := by
  simp [release, Frame.lockAt?]

/-- A callee that leaves all locks alone leaves the stack of its caller alone. -/
theorem compose_identity {s : RelStack} {entry : List Held} (h : s.Fits entry) :
    s.compose (.identity (s.materialize entry)) = s := by
  have hlength : (s.materialize entry).length = s.length :=
    List.filterMap_length_eq_length.mpr h
  have hframes : s.compose (.identity (s.materialize entry)) =
      (List.range s.length).filterMap fun i => s[i]? := by
    rw [compose, identity, hlength, List.filterMap_map]
    rfl
  rw [hframes]
  refine List.ext_getElem? fun i => ?_
  rw [getElem?_filterMap_of_isSome fun j hj => by simpa using hj]
  by_cases hi : i < s.length
  · simp [hi]
  · simp [hi]

end RelStack

/-- The stack of `f` while regions are open: what it was entered with and its own locks. -/
def standing (f : FunctionId) (entry : List Held) (opened : List LockId) : RelStack :=
  RelStack.identity entry ++ opened.map fun lock => .acquired ⟨lock, f⟩

section

variable {f : FunctionId} {entry : List Held}

theorem standing_nil : standing f entry [] = .identity entry := by
  simp [standing]

theorem standing_concat (opened : List LockId) (lock : LockId) :
    standing f entry (opened ++ [lock]) = standing f entry opened ++ [.acquired ⟨lock, f⟩] := by
  simp [standing]

theorem fits_standing (opened : List LockId) : (standing f entry opened).Fits entry := by
  intro frame hframe
  rcases List.mem_append.mp hframe with hframe | hframe
  · exact RelStack.fits_identity entry frame hframe
  · obtain ⟨lock, -, rfl⟩ := List.mem_map.mp hframe
    rfl

/-- Every lock on the stack was held at the entry or is taken by the function itself. -/
theorem mem_materialize_standing {opened : List LockId} {x : Held}
    (h : x ∈ (standing f entry opened).materialize entry) : x ∈ entry ∨ x.acquiredIn = f := by
  rw [standing, RelStack.materialize, List.filterMap_append, List.mem_append] at h
  rcases h with h | h
  · rw [← RelStack.materialize, RelStack.materialize_identity] at h
    exact Or.inl h
  · obtain ⟨frame, hframe, hx⟩ := List.mem_filterMap.mp h
    obtain ⟨lock, -, rfl⟩ := List.mem_map.mp hframe
    cases hx
    exact Or.inr rfl

end

/-! ## Walks that leave locks alone -/

/-- Every summary gives its stack back, nothing was cut, and whoever holds a lock that a witness
tells of is on its path. -/
structure Walk.Neutral (w : Walk) : Prop where
  summaries : ∀ (f : FunctionId) (entry : List Held) (exits : List RelStack),
    w.summaries[(f, locksOf entry)]? = some exits → exits = [.identity entry]
  full : w.outcome.truncated = false
  order : ∀ e ∈ w.outcome.order.edges, e.2.heldSince ∈ e.2.path
  reentrancies : ∀ r ∈ w.outcome.reentrancies, r.2.heldSince ∈ r.2.path

/-- All locks of a stack were taken by functions that are being followed. -/
def Walk.Owns (w : Walk) (held : List Held) : Prop := ∀ x ∈ held, x.acquiredIn ∈ w.path

/-- A way to follow calls that gives back the stack which a function is entered with. -/
def Restores (F : Follow) : Prop :=
  ∀ c held w, w.Neutral → w.Owns held →
    (F c held w).1 = [.identity held] ∧ (F c held w).2.Neutral ∧ (F c held w).2.path = w.path

namespace Walk.Neutral

theorem empty : Neutral {} := ⟨by simp, rfl, by simp, by simp⟩

theorem recordAcquire {w : Walk} (h : w.Neutral) {held : List Held} (howns : w.Owns held)
    (f : FunctionId) (lock : LockId) : (w.recordAcquire f held lock).Neutral := by
  have hwitnesses : (∀ e ∈ (w.recordAcquire f held lock).outcome.order.edges,
      e.2.heldSince ∈ e.2.path) ∧
      ∀ r ∈ (w.recordAcquire f held lock).outcome.reentrancies, r.2.heldSince ∈ r.2.path :=
    forall_mem_recordAcquire (fun _ _ v => v.heldSince ∈ v.path) howns h.order h.reentrancies
  exact ⟨h.summaries, h.full, hwitnesses.1, hwitnesses.2⟩

theorem enter {w : Walk} (h : w.Neutral) (f : FunctionId) :
    Neutral { w with path := w.path ++ [f] } :=
  ⟨h.summaries, h.full, h.order, h.reentrancies⟩

theorem close {w : Walk} (h : w.Neutral) (f : FunctionId) (entry : List Held) :
    (w.close f entry [.identity entry]).Neutral := by
  refine ⟨?_, h.full, h.order, h.reentrancies⟩
  intro f' entry' exits' hget
  rcases Walk.summaries_close hget with ⟨-, hlocks, rfl⟩ | hget
  · rw [RelStack.identity_congr hlocks]
  · exact h.summaries f' entry' exits' hget

end Walk.Neutral

/-- What is collected from `s` at a call site: nothing yet, or `s` itself. -/
structure Collects (s : RelStack) (path : List FunctionId) (acc : List RelStack × Walk) :
    Prop where
  states : acc.1 = [] ∨ acc.1 = [s]
  neutral : acc.2.Neutral
  path : acc.2.path = path

section Body

variable {F : Follow} {path : List FunctionId} {f : FunctionId} {entry : List Held}
  {acc : List RelStack × Walk} (hF : Restores F)

include hF

theorem Collects.callee {s : RelStack} (h : Collects s path acc) (hs : s.Fits entry)
    (howns : ∀ x ∈ s.materialize entry, x.acquiredIn ∈ path) (c : FunctionId) :
    Collects s path (stepCallee F (s.materialize entry) s acc c) ∧
      (stepCallee F (s.materialize entry) s acc c).1 = [s] := by
  have howns' : acc.2.Owns (s.materialize entry) := by
    rw [Walk.Owns, h.path]
    exact howns
  obtain ⟨hexits, hneutral, hpath⟩ := hF c (s.materialize entry) acc.2 h.neutral howns'
  have hstates : (stepCallee F (s.materialize entry) s acc c).1 = [s] := by
    simp only [stepCallee, hexits, List.map_cons, List.map_nil, RelStack.compose_identity hs]
    rcases h.states with hacc | hacc
    · simp [hacc, Ordered.union, Ordered.insert]
    · simp [hacc, Ordered.union, Ordered.insert]
  exact ⟨⟨Or.inr hstates, hneutral, hpath.trans h.path⟩, hstates⟩

theorem Collects.callees {s : RelStack} (h : Collects s path acc) (hs : s.Fits entry)
    (howns : ∀ x ∈ s.materialize entry, x.acquiredIn ∈ path) (cs : List FunctionId) :
    Collects s path (cs.foldl (stepCallee F (s.materialize entry) s) acc) :=
  List.foldlRecOn cs _ h fun _ hacc c _ => (hacc.callee hF hs howns c).1

/-- The last callee leaves the stack there, whatever was collected before it. -/
theorem Collects.states_callees {s : RelStack} (h : Collects s path acc) (hs : s.Fits entry)
    (howns : ∀ x ∈ s.materialize entry, x.acquiredIn ∈ path) {cs : List FunctionId}
    (hcs : cs ≠ []) : (cs.foldl (stepCallee F (s.materialize entry) s) acc).1 = [s] := by
  rw [← List.dropLast_append_getLast hcs, List.foldl_append]
  exact ((h.callees hF hs howns cs.dropLast).callee hF hs howns (cs.getLast hcs)).2

end Body

/-- Before the entries `es` of `f`, which was entered on `path`: one stack, with the regions open
that these entries close. -/
structure Steady (path : List FunctionId) (f : FunctionId) (entry : List Held)
    (es : List GraphEntry) (acc : List RelStack × Walk) : Prop where
  states : ∃ opened, Closes opened es ∧ acc.1 = [standing f entry opened]
  neutral : acc.2.Neutral
  path : acc.2.path = path ++ [f]

/-- An entry that makes one stack of one stack is never cut. -/
theorem stepEntry_single {F : Follow} {cap : Nat} (hcap : 0 < cap) {f : FunctionId}
    {entry : List Held} {e : GraphEntry} {s t : RelStack} {w : Walk}
    (h : (stepState F f entry e ([], w) s).1 = [t]) :
    stepEntry F cap f entry ([s], w) e = ([t], (stepState F f entry e ([], w) s).2) := by
  simp only [stepEntry, List.foldl_cons, List.foldl_nil, h, Walk.bound]
  rw [if_pos (show [t].length ≤ cap from hcap)]

namespace Steady

variable {F : Follow} {cap : Nat} {path : List FunctionId} {f : FunctionId} {entry : List Held}
  {es : List GraphEntry} {acc : List RelStack × Walk}

theorem owns (hentry : ∀ x ∈ entry, x.acquiredIn ∈ path) (opened : List LockId) :
    ∀ x ∈ (standing f entry opened).materialize entry, x.acquiredIn ∈ path ++ [f] := by
  intro x hx
  rcases mem_materialize_standing hx with hx | hx
  · exact List.mem_append_left _ (hentry x hx)
  · rw [hx]
    exact List.mem_append_right _ (List.mem_singleton_self f)

theorem step (hF : Restores F) (hcap : 0 < cap) (hentry : ∀ x ∈ entry, x.acquiredIn ∈ path)
    {e : GraphEntry} (h : Steady path f entry (e :: es) acc) :
    Steady path f entry es (stepEntry F cap f entry acc e) := by
  obtain ⟨states, w⟩ := acc
  obtain ⟨⟨opened, hcloses, hstates⟩, hneutral, hpath⟩ := h
  obtain rfl : states = [standing f entry opened] := hstates
  have howns := owns (f := f) hentry opened
  cases hcloses with
  | @calls _ callees _ hcloses =>
    cases callees with
    | nil =>
      rw [stepEntry_single hcap rfl]
      exact ⟨⟨opened, hcloses, rfl⟩, hneutral, hpath⟩
    | cons c cs =>
      have hnone : Collects (standing f entry opened) (path ++ [f]) ([], w) :=
        ⟨Or.inl rfl, hneutral, hpath⟩
      have hall := hnone.callees hF (fits_standing opened) howns (c :: cs)
      have hstates : (stepState F f entry (.calls (c :: cs)) ([], w)
          (standing f entry opened)).1 = [standing f entry opened] :=
        hnone.states_callees hF (fits_standing opened) howns (List.cons_ne_nil c cs)
      rw [stepEntry_single hcap hstates]
      exact ⟨⟨opened, hcloses, rfl⟩, hall.neutral, hall.path⟩
  | @acquire _ lock _ hcloses =>
    rw [stepEntry_single hcap rfl]
    refine ⟨⟨opened ++ [lock], hcloses, by rw [standing_concat]⟩, ?_, hpath⟩
    exact hneutral.recordAcquire (fun x hx => by rw [hpath]; exact howns x hx) f lock
  | @release opened lock _ hcloses =>
    rw [stepEntry_single hcap rfl]
    refine ⟨⟨opened, hcloses, ?_⟩, hneutral, hpath⟩
    rw [standing_concat, RelStack.release_take]

theorem foldl (hF : Restores F) (hcap : 0 < cap) (hentry : ∀ x ∈ entry, x.acquiredIn ∈ path)
    {done : List GraphEntry} (h : Steady path f entry (done ++ es) acc) :
    Steady path f entry es (done.foldl (stepEntry F cap f entry) acc) := by
  induction done generalizing acc with
  | nil => exact h
  | cons e done ih => exact ih (h.step hF hcap hentry)

end Steady

/-! ## Traversals of structured programs -/

section

variable {g : CallGraph} (hg : Structured g) {cap : Nat} (hcap : 0 < cap)

include hg hcap

/-- After the first entries of a function that keeps to regions. -/
theorem Call.steady_after {F : Follow} (hF : Restores F) {c : Call} (hw : c.walk.Neutral)
    (howns : c.walk.Owns c.entry) {done es : List GraphEntry}
    (hdone : g.entries c.function = done ++ es) :
    Steady c.walk.path c.function c.entry es (c.after cap F done) := by
  refine Steady.foldl hF hcap howns ⟨⟨[], ?_, ?_⟩, hw.enter c.function, rfl⟩
  · rw [← hdone]
    exact (hg.wellNested c.function).closes
  · rw [standing_nil]

theorem follow_restores (depth : Nat) : Restores (follow g cap depth) := by
  induction depth with
  | zero =>
    intro f entry w hw _
    exact ⟨rfl, hw, rfl⟩
  | succ depth ih =>
    intro f entry w hw howns
    have hpath := (follow_growing g cap (depth + 1) f entry w).path
    rcases follow_cases g cap depth f entry w with ⟨-, h⟩ | ⟨-, exits, hget, h⟩ | ⟨-, -, h⟩
    · rw [h]
      exact ⟨rfl, hw, rfl⟩
    · rw [h]
      exact ⟨hw.summaries f entry exits hget, hw, rfl⟩
    · have hend := Call.steady_after hg hcap ih (c := ⟨depth + 1, f, entry, w⟩) hw howns
        (List.append_nil (g.entries f)).symm
      have hexits : (runBody g cap (follow g cap depth) f entry w).1 = [.identity entry] := by
        obtain ⟨opened, hcloses, hstates⟩ := hend.states
        cases hcloses
        rw [← standing_nil (f := f)]
        exact hstates
      rw [h] at hpath ⊢
      rw [hexits] at hpath ⊢
      exact ⟨rfl, hend.neutral.close f entry, hpath⟩

/-- At every call that a traversal makes, all locks are held by functions on the path. -/
theorem Call.Made.neutral {root : FunctionId} {c : Call} (h : c.Made g cap root) :
    c.walk.Neutral ∧ c.walk.Owns c.entry := by
  induction h with
  | start =>
    refine ⟨.empty, ?_⟩
    intro x hx
    cases hx
  | @inside c depth done rest callee earlier later s before others hmade hdepth hruns hsite hs ih =>
    obtain ⟨hw, howns⟩ := ih
    have hF := follow_restores hg hcap depth
    have hsteady := Call.steady_after hg hcap hF hw howns hsite
    obtain ⟨opened, -, hstates⟩ := hsteady.states
    -- there is only one stack, so no other one comes before it
    obtain ⟨rfl, rfl, rfl⟩ : before = [] ∧ s = standing c.function c.entry opened ∧ others = [] := by
      rw [hstates] at hs
      cases before with
      | nil =>
        cases hs
        exact ⟨rfl, rfl, rfl⟩
      | cons t before => simp at hs
    have hnone : Collects (standing c.function c.entry opened) (c.walk.path ++ [c.function])
        ([], (c.after cap (follow g cap depth) done).2) :=
      ⟨Or.inl rfl, hsteady.neutral, hsteady.path⟩
    have hcollects := hnone.callees hF (fits_standing opened) (Steady.owns howns opened) earlier
    refine ⟨hcollects.neutral, ?_⟩
    intro x hx
    rw [show (c.amid cap (follow g cap depth) done (earlier ++ callee :: later) []
      (standing c.function c.entry opened) earlier).2.path = _ from hcollects.path]
    exact Steady.owns howns opened x hx

end

/-- Programs that take and release locks in nested regions leave locks alone, with any recursion
and under any cap: every call of a traversal gives back exactly the stack that the function was
entered with, nothing is cut, and in every witness the function that holds the lock is on the
path. -/
theorem traverse_neutral (g : CallGraph) (hg : Structured g) (cap : Nat) (root : FunctionId) :
    (∀ c : Call, c.Made g (max cap 1) root →
      (c.result g (max cap 1)).1 = [.identity c.entry]) ∧
    (traverse g cap root).truncated = false ∧
    (∀ e ∈ (traverse g cap root).order.edges, e.2.heldSince ∈ e.2.path) ∧
    ∀ r ∈ (traverse g cap root).reentrancies, r.2.heldSince ∈ r.2.path := by
  have hcap : 0 < max cap 1 := by omega
  have hroot : ({} : Walk).Owns [] := by
    intro x hx
    cases hx
  obtain ⟨-, hend, -⟩ := follow_restores hg hcap (g.size + 1) root [] {} .empty hroot
  refine ⟨?_, hend.full, hend.order, hend.reentrancies⟩
  intro c hmade
  obtain ⟨hw, howns⟩ := hmade.neutral hg hcap
  exact (follow_restores hg hcap c.depth c.function c.entry c.walk hw howns).1

/-- Two functions that call each other and themselves; the second takes the lock of the first
again, inside a region of its own. -/
def interplay : CallGraph where
  nodes := [⟨0, [.acquire 1, .calls [1], .release 1]⟩,
    ⟨1, [.acquire 2, .calls [0, 1], .acquire 1, .release 1, .release 2]⟩]
  threads := []

theorem structured_interplay : Structured interplay := by
  intro node hnode
  rcases List.mem_pair.mp hnode with rfl | rfl
  · exact .region (.calls .nil) .nil
  · exact .region (.calls (.region .nil .nil)) .nil

/-- Even under a cap of zero the lock is found to be taken again, below the function that holds
it, and nothing is cut. -/
theorem interplay_neutral : Structured interplay ∧
    (traverse interplay 0 0).truncated = false ∧
    ∃ v, (traverse interplay 0 0).reentrancies = [(1, v)] ∧ v.heldSince ∈ v.path := by
  obtain ⟨-, hfull, -, hagain⟩ := traverse_neutral interplay structured_interplay 0 0
  have hfound : (traverse interplay 0 0).reentrancies = [(1, ⟨[0, 1], 0, 1⟩)] := by cbv
  rw [hfound] at hagain
  exact ⟨structured_interplay, hfull, _, hfound, hagain _ List.mem_cons_self⟩

end Interlock.Deadlock
