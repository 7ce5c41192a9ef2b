import Interlock.Proofs.Deadlock.Calls
import Interlock.Proofs.Deadlock.Invariant

/-! The shape of relative stacks. A stack holds positions of the entry stack, ascending, and after
them the locks that were taken during the call. Releasing, composing and reusing a summary for the
stack of another caller keep the shape, so no frame points outside the entry stack and none is lost
when a stack is seen from its entry. -/

namespace Interlock.Deadlock

namespace RelStack

variable {s t exit : RelStack} {entry : List Held} {k : Nat}

/-- Positions below `k`, ascending, before the locks that were taken. -/
def Shaped (k : Nat) (s : RelStack) : Prop :=
  ∃ (positions : List Nat) (taken : List Held),
    s = positions.map .inherited ++ taken.map .acquired ∧
    positions.Pairwise (· < ·) ∧ ∀ i ∈ positions, i < k

theorem shaped_identity (entry : List Held) : (identity entry).Shaped entry.length :=
  ⟨List.range entry.length, [], (List.append_nil _).symm, List.pairwise_lt_range,
    fun _ hi => List.mem_range.mp hi⟩

namespace Shaped

theorem take (h : s.Shaped k) (held : Held) : Shaped k (s ++ [.acquired held]) := by
  obtain ⟨positions, taken, rfl, hascending, hbelow⟩ := h
  refine ⟨positions, taken ++ [held], ?_, hascending, hbelow⟩
  rw [List.append_assoc, List.map_append, List.map_singleton]

/-- A stack that lost frames keeps its shape. -/
theorem sublist (h : s.Shaped k) (hsub : t.Sublist s) : t.Shaped k := by
  obtain ⟨positions, taken, rfl, hascending, hbelow⟩ := h
  obtain ⟨front, back, rfl, hfront, hback⟩ := List.sublist_append_iff.mp hsub
  obtain ⟨positions', hpositions, rfl⟩ := List.sublist_map_iff.mp hfront
  obtain ⟨taken', -, rfl⟩ := List.sublist_map_iff.mp hback
  exact ⟨positions', taken', rfl, hascending.sublist hpositions,
    fun i hi => hbelow i (hpositions.subset hi)⟩

theorem release (h : s.Shaped k) (entry : List Held) (lock : LockId) :
    Shaped k (s.release entry lock) := by
  refine h.sublist ?_
  rw [← List.reverse_sublist, RelStack.release, List.reverse_reverse]
  exact List.eraseP_sublist

theorem fits (h : s.Shaped entry.length) : s.Fits entry := by
  obtain ⟨positions, taken, rfl, -, hbelow⟩ := h
  intro frame hframe
  rcases List.mem_append.mp hframe with hframe | hframe
  · obtain ⟨i, hi, rfl⟩ := List.mem_map.mp hframe
    simpa [Frame.heldAt?] using hbelow i hi
  · obtain ⟨held, -, rfl⟩ := List.mem_map.mp hframe
    rfl

end Shaped

theorem filterMap_getElem?_range {α : Type} (l : List α) :
    (List.range l.length).filterMap (l[·]?) = l := by
  have hall : ∀ i ∈ List.range l.length, (l[i]?).isSome = true := by
    intro i hi
    simpa using hi
  refine List.ext_getElem? fun i => ?_
  rw [getElem?_filterMap_of_isSome hall]
  by_cases hi : i < l.length
  · rw [List.getElem?_range hi, Option.bind_some]
  · rw [List.getElem?_eq_none (by simpa using hi), List.getElem?_eq_none (by omega)]
    rfl

/-- What is looked up at ascending positions stands in the order of the list. -/
theorem filterMap_getElem?_sublist {α : Type} {l : List α} {positions : List Nat}
    (h : positions.Pairwise (· < ·)) (hbelow : ∀ i ∈ positions, i < l.length) :
    (positions.filterMap (l[·]?)).Sublist l := by
  have hrange : positions.Sublist (List.range l.length) := by
    refine List.sublist_of_subperm_of_pairwise (r := (· ≤ ·)) ?_ (h.imp Nat.le_of_lt)
      (List.pairwise_lt_range.imp Nat.le_of_lt)
    have hnodup : positions.Nodup := h.imp Nat.ne_of_lt
    refine hnodup.subperm fun i hi => ?_
    exact List.mem_range.mpr (hbelow i hi)
  have hpart := hrange.filterMap (l[·]?)
  rwa [filterMap_getElem?_range] at hpart

/-- A stack that fits loses no frame when it is seen from the entry. -/
theorem length_materialize (h : s.Fits entry) : (s.materialize entry).length = s.length :=
  List.filterMap_length_eq_length.mpr h

theorem compose_append (caller : RelStack) (positions : List Nat) (taken : List Held) :
    caller.compose (positions.map .inherited ++ taken.map .acquired) =
      positions.filterMap (caller[·]?) ++ taken.map .acquired := by
  rw [compose, List.filterMap_append, List.filterMap_map, List.filterMap_map]
  show positions.filterMap (caller[·]?) ++ taken.filterMap (fun held => some (.acquired held)) = _
  rw [List.filterMap_eq_map']

/-- The exit stack of a call, seen from the entry of the caller, has the shape of the caller. -/
theorem Shaped.compose (h : s.Shaped k) (hexit : exit.Shaped s.length) :
    (s.compose exit).Shaped k := by
  obtain ⟨positions, taken, rfl, hascending, hbelow⟩ := hexit
  rw [compose_append]
  obtain ⟨inherited, own, hs, hinherited, hk⟩ :=
    h.sublist (filterMap_getElem?_sublist hascending hbelow)
  refine ⟨inherited, own ++ taken, ?_, hinherited, hk⟩
  rw [hs, List.append_assoc, List.map_append]

/-- A frame of the exit stack stays a frame of the stack that it is composed to. -/
theorem length_compose (hexit : exit.Shaped s.length) : (s.compose exit).length = exit.length := by
  refine List.filterMap_length_eq_length.mpr fun frame hframe => ?_
  obtain ⟨positions, taken, rfl, -, hbelow⟩ := hexit
  rcases List.mem_append.mp hframe with hframe | hframe
  · obtain ⟨i, hi, rfl⟩ := List.mem_map.mp hframe
    simpa using hbelow i hi
  · obtain ⟨held, -, rfl⟩ := List.mem_map.mp hframe
    rfl

end RelStack

variable {g : CallGraph} {cap : Nat} {root : FunctionId} {c : Call}

/-! ## Invariants at calls -/

namespace Invariant

/-- What an invariant says of a call that a traversal makes. -/
structure Arrives (I : Invariant g root) (c : Call) : Prop where
  depth : c.depth + c.walk.path.length = g.size + 1
  trail : g.Trail root c.walk.path c.function
  context : I.context c.walk.path c.function c.entry
  holds : I.Holds c.walk

namespace Arrives

variable {I : Invariant g root} (h : I.Arrives c) {depth : Nat} (hdepth : c.depth = depth + 1)
include h

theorem result (cap : Nat) : I.Holds (c.result g cap).2 ∧ ∀ x ∈ (c.result g cap).1,
    c.function ∈ c.walk.path ∧ x = .identity c.entry ∨ I.exit c.function c.entry x := by
  have hlarge : g.size < c.depth + c.walk.path.length := by
    have := h.depth
    omega
  exact I.follow_sound cap c.depth c.walk.path hlarge c.function c.entry c.walk rfl h.trail
    h.context h.holds

include hdepth

theorem sound (cap : Nat) : I.Sound (c.walk.path ++ [c.function]) (follow g cap depth) := by
  have := h.depth
  refine I.follow_sound cap depth _ ?_
  rw [List.length_append, List.length_singleton]
  omega

variable (hruns : c.Runs)
include hruns

theorem after (cap : Nat) {done rest : List GraphEntry}
    (hdone : g.entries c.function = done ++ rest) :
    I.Between c.walk.path c.function c.entry rest (c.after cap (follow g cap depth) done) :=
  h.holds.body (h.sound hdepth cap) (follow_growing g cap depth) h.trail hruns.fresh h.context cap
    hdone

/-- Between two stacks of one entry. -/
theorem within (cap : Nat) {done rest : List GraphEntry} {e : GraphEntry}
    (hdone : g.entries c.function = done ++ e :: rest) {before others : List RelStack}
    (hstates : (c.after cap (follow g cap depth) done).1 = before ++ others) :
    I.Between c.walk.path c.function c.entry rest
      (before.foldl (stepState (follow g cap depth) c.function c.entry e)
        ([], (c.after cap (follow g cap depth) done).2)) := by
  have hafter := h.after hdepth hruns cap hdone
  have hsite : e ∈ g.entries c.function := by
    rw [hdone]
    exact List.mem_append_right _ List.mem_cons_self
  have hempty : I.Between c.walk.path c.function c.entry rest
      ([], (c.after cap (follow g cap depth) done).2) := ⟨by simp, hafter.holds, hafter.path⟩
  refine List.foldlRecOn before _ hempty fun acc hacc s hs => ?_
  have hstate := hafter.states s (by rw [hstates]; exact List.mem_append_left _ hs)
  exact hacc.state (h.sound hdepth cap) (follow_growing g cap depth) h.trail hruns.fresh h.context
    hsite hstate

/-- Between two callees of one call site. -/
theorem amid (cap : Nat) {done rest : List GraphEntry} {earlier later : List FunctionId}
    (hdone : g.entries c.function = done ++ .calls (earlier ++ later) :: rest)
    {before others : List RelStack} {s : RelStack}
    (hstates : (c.after cap (follow g cap depth) done).1 = before ++ s :: others) :
    I.Between c.walk.path c.function c.entry rest
      (c.amid cap (follow g cap depth) done (earlier ++ later) before s earlier) := by
  have hsite : .calls (earlier ++ later) ∈ g.entries c.function := by
    rw [hdone]
    exact List.mem_append_right _ List.mem_cons_self
  have hstate := (h.after hdepth hruns cap hdone).states s (by simp [hstates])
  have hwithin := h.within hdepth hruns cap hdone hstates
  refine List.foldlRecOn earlier _ hwithin fun acc hacc callee hc => ?_
  exact hacc.callee (h.sound hdepth cap) (follow_growing g cap depth) h.trail hruns.fresh h.context
    hsite hstate (List.mem_append_left _ hc)

end Arrives

/-- An invariant holds at every call that a traversal makes. -/
theorem arrives (I : Invariant g root) (hroot : I.context [] root []) (h : c.Made g cap root) :
    I.Arrives c := by
  induction h with
  | start => exact ⟨rfl, .start, hroot, by simp, by simp, by simp⟩
  | @inside c depth done rest callee earlier later s before others hmade hdepth hruns hsite hs ih =>
    have hafter := ih.after hdepth hruns cap hsite
    have hamid : I.Between c.walk.path c.function c.entry rest (c.amid cap (follow g cap depth) done
        (earlier ++ callee :: later) before s earlier) := ih.amid hdepth hruns cap hsite hs
    have hentry : .calls (earlier ++ callee :: later) ∈ g.entries c.function := by
      rw [hsite]
      exact List.mem_append_right _ List.mem_cons_self
    have hcallee : callee ∈ earlier ++ callee :: later := by simp
    have hstate := hafter.states s (by simp [hs])
    constructor
    · show depth + (c.amid cap (follow g cap depth) done _ before s earlier).2.path.length = _
      rw [hamid.path, List.length_append, List.length_singleton]
      have := ih.depth
      omega
    · show g.Trail root (c.amid cap (follow g cap depth) done _ before s earlier).2.path callee
      rw [hamid.path]
      exact ih.trail.call hruns.fresh ⟨_, hentry, hcallee⟩
    · show I.context (c.amid cap (follow g cap depth) done _ before s earlier).2.path callee _
      rw [hamid.path]
      exact I.descend ih.context hruns.fresh hcallee hstate
    · exact hamid.holds

end Invariant

/-! ## Stacks of a traversal -/

/-- Every stack of a traversal has the shape that belongs to the stack that its function was entered
with. -/
def shaped (g : CallGraph) (root : FunctionId) : Invariant g root where
  context _ _ _ := True
  state _ entry _ s := s.Shaped entry.length
  exit _ entry x := x.Shaped entry.length
  seen _ _ _ := True
  enter _ entry := RelStack.shaped_identity entry
  leave h := h
  acquire _ h := h.take _
  release h := h.release _ _
  library h := h
  call _ _ h hx := h.compose (RelStack.length_materialize h.fits ▸ hx)
  cut _ _ _ h := h.compose (RelStack.length_materialize h.fits ▸ RelStack.shaped_identity _)
  descend _ _ _ _ := trivial
  reuse {_ entry entry' _} hlocks hx := by
    have hlength : entry.length = entry'.length := by
      simpa using congrArg List.length hlocks
    exact hlength ▸ hx
  observe _ _ _ _ _ _ := trivial

namespace Call

/-- A stack that a function comes to: after some entries, after some stacks of one entry, and after
some callees of one call site. -/
inductive ComesTo (g : CallGraph) (cap : Nat) (c : Call) : RelStack → Prop
  | after {depth : Nat} {done rest : List GraphEntry} {s : RelStack} :
    c.depth = depth + 1 → c.Runs → g.entries c.function = done ++ rest →
    s ∈ (c.after cap (follow g cap depth) done).1 → ComesTo g cap c s
  | within {depth : Nat} {done rest : List GraphEntry} {e : GraphEntry}
    {before others : List RelStack} {s : RelStack} :
    c.depth = depth + 1 → c.Runs → g.entries c.function = done ++ e :: rest →
    (c.after cap (follow g cap depth) done).1 = before ++ others →
    s ∈ (before.foldl (stepState (follow g cap depth) c.function c.entry e)
      ([], (c.after cap (follow g cap depth) done).2)).1 → ComesTo g cap c s
  | amid {depth : Nat} {done rest : List GraphEntry} {earlier later : List FunctionId}
    {before others : List RelStack} {s t : RelStack} :
    c.depth = depth + 1 → c.Runs →
    g.entries c.function = done ++ .calls (earlier ++ later) :: rest →
    (c.after cap (follow g cap depth) done).1 = before ++ s :: others →
    t ∈ (c.amid cap (follow g cap depth) done (earlier ++ later) before s earlier).1 →
    ComesTo g cap c t

/-- A call that a function makes on one of its stacks. -/
inductive Makes (g : CallGraph) (cap : Nat) (c : Call) : RelStack → Call → Prop
  | site {depth : Nat} {done rest : List GraphEntry} {callee : FunctionId}
    {earlier later : List FunctionId} {s : RelStack} {before others : List RelStack} :
    c.depth = depth + 1 → c.Runs →
    g.entries c.function = done ++ .calls (earlier ++ callee :: later) :: rest →
    (c.after cap (follow g cap depth) done).1 = before ++ s :: others →
    Makes g cap c s ⟨depth, callee, s.materialize c.entry,
      (c.amid cap (follow g cap depth) done (earlier ++ callee :: later) before s earlier).2⟩

theorem Makes.made {s : RelStack} {c' : Call} (h : c.Makes g cap s c') (hc : c.Made g cap root) :
    c'.Made g cap root := by
  obtain ⟨hdepth, hruns, hsite, hs⟩ := h
  exact .inside hc hdepth hruns hsite hs

/-- A call is made on a stack that the function comes to. -/
theorem Makes.comesTo {s : RelStack} {c' : Call} (h : c.Makes g cap s c') : c.ComesTo g cap s := by
  obtain ⟨hdepth, hruns, hsite, hs⟩ := h
  exact .after hdepth hruns hsite (by simp [hs])

theorem Made.shaped_of_comesTo (h : c.Made g cap root) {s : RelStack} (hs : c.ComesTo g cap s) :
    s.Shaped c.entry.length := by
  have harrives := (shaped g root).arrives trivial h
  cases hs with
  | after hdepth hruns hdone hmem => exact (harrives.after hdepth hruns cap hdone).states s hmem
  | within hdepth hruns hdone hstates hmem =>
    exact (harrives.within hdepth hruns cap hdone hstates).states s hmem
  | amid hdepth hruns hdone hstates hmem =>
    exact (harrives.amid hdepth hruns cap hdone hstates).states s hmem

theorem Made.shaped_result (h : c.Made g cap root) {x : RelStack} (hx : x ∈ (c.result g cap).1) :
    x.Shaped c.entry.length := by
  rcases (((shaped g root).arrives trivial h).result cap).2 x hx with ⟨-, rfl⟩ | hexit
  · exact RelStack.shaped_identity c.entry
  · exact hexit

end Call

/-- At every call that a traversal makes, every stack that the function comes to and every stack
that it is left with holds positions of the entry stack, ascending, and then the locks taken since;
seen from the entry it has as many locks as frames. So an exit stack that is composed with the stack
of the caller keeps all its frames, and stands for the same locks as it does for the callee. -/
theorem stacks_keep_frames (g : CallGraph) (cap : Nat) (root : FunctionId) (c : Call)
    (h : c.Made g cap root) :
    (∀ s, c.ComesTo g cap s ∨ s ∈ (c.result g cap).1 →
      s.Shaped c.entry.length ∧ (s.materialize c.entry).length = s.length) ∧
    ∀ s c', c.Makes g cap s c' →
      c'.Made g cap root ∧ c'.entry = s.materialize c.entry ∧
      ∀ x ∈ (c'.result g cap).1, (s.compose x).Shaped c.entry.length ∧
        (s.compose x).length = x.length ∧
        (s.compose x).materialize c.entry = x.materialize (s.materialize c.entry) := by
  have hshaped : ∀ s, c.ComesTo g cap s ∨ s ∈ (c.result g cap).1 → s.Shaped c.entry.length := by
    rintro s (hs | hs)
    · exact h.shaped_of_comesTo hs
    · exact h.shaped_result hs
  refine ⟨?_, ?_⟩
  · intro s hs
    exact ⟨hshaped s hs, RelStack.length_materialize (hshaped s hs).fits⟩
  · intro s c' hmakes
    have hs := hshaped s (.inl hmakes.comesTo)
    have hmade := hmakes.made h
    have hentry : c'.entry = s.materialize c.entry := by
      cases hmakes
      rfl
    refine ⟨hmade, hentry, ?_⟩
    intro x hx
    have hexit : x.Shaped s.length := by
      have hx := hmade.shaped_result hx
      rwa [hentry, RelStack.length_materialize hs.fits] at hx
    exact ⟨hs.compose hexit, RelStack.length_compose hexit,
      RelStack.materialize_compose hs.fits x⟩

/-- A callee that gives up the older one of two locks of its caller and takes another one. -/
def handback : CallGraph where
  nodes := [⟨0, [.acquire 1, .acquire 2, .calls [1]]⟩, ⟨1, [.release 1, .acquire 3]⟩]
  threads := []

/-- The caller is left with the newer lock and the other one, and with who took each of them. -/
theorem handback_keeps_frames : ∃ (c c' : Call) (s x : RelStack), c.Made handback 64 0 ∧
    c.Makes handback 64 s c' ∧ x ∈ (c'.result handback 64).1 ∧
    x = [.inherited 1, .acquired ⟨3, 1⟩] ∧ (s.compose x).length = 2 ∧
    (s.compose x).materialize c.entry = [⟨2, 0⟩, ⟨3, 1⟩] := by
  let c : Call := ⟨3, 0, [], {}⟩
  let s : RelStack := [.acquired ⟨1, 0⟩, .acquired ⟨2, 0⟩]
  let x : RelStack := [.inherited 1, .acquired ⟨3, 1⟩]
  have hmade : c.Made handback 64 0 := .start
  have hsite : handback.entries 0 = [.acquire 1, .acquire 2] ++ .calls ([] ++ 1 :: []) :: [] := rfl
  have hstates : (c.after 64 (follow handback 64 2) [.acquire 1, .acquire 2]).1 =
      [] ++ s :: [] := by
    cbv
  have hruns : c.Runs := ⟨by simp [c], by simp [c]⟩
  have hmakes := Call.Makes.site rfl hruns hsite hstates
  refine ⟨c, _, s, x, hmade, hmakes, ?_⟩
  have hexit : x ∈ (follow handback 64 2 1 (s.materialize []) (c.amid 64 (follow handback 64 2)
      [.acquire 1, .acquire 2] ([] ++ 1 :: []) [] s []).2).1 := by
    have hresult : (follow handback 64 2 1 (s.materialize []) (c.amid 64 (follow handback 64 2)
        [.acquire 1, .acquire 2] ([] ++ 1 :: []) [] s []).2).1 = [x] := by
      cbv
    rw [hresult]
    exact List.mem_singleton_self x
  obtain ⟨-, hcalls⟩ := stacks_keep_frames handback 64 0 c hmade
  obtain ⟨-, -, hexits⟩ := hcalls s _ hmakes
  obtain ⟨-, hlength, hcompose⟩ := hexits x hexit
  exact ⟨hexit, rfl, hlength, hcompose⟩

end Interlock.Deadlock
