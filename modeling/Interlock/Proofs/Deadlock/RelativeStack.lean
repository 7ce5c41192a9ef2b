import Interlock.Deadlock.Traversal
import Interlock.Proofs.Deadlock.Execution

/-! Relative stacks, seen from an entry stack. A stack whose frames all exist at the entry loses
none when it is materialized, so composing an exit stack with the stack of the caller is the same
as materializing it at the stack that the callee was entered with. -/

namespace Interlock.Deadlock

/-- The locks of a stack. -/
abbrev locksOf (held : List Held) : List LockId := held.map (·.lock)

/-- Where no element is dropped, positions stay. -/
theorem getElem?_filterMap_of_isSome {α β : Type} {f : α → Option β} {l : List α}
    (h : ∀ a ∈ l, (f a).isSome = true) (i : Nat) : (l.filterMap f)[i]? = l[i]?.bind f := by
  induction l generalizing i with
  | nil => simp
  | cons a l ih =>
    obtain ⟨b, hb⟩ := Option.isSome_iff_exists.mp (h a List.mem_cons_self)
    rw [List.filterMap_cons_some hb]
    cases i with
    | zero => simp [hb]
    | succ i => simpa using ih (fun x hx => h x (List.mem_cons_of_mem _ hx)) i

theorem Frame.lockAt?_eq (entry : List Held) (frame : Frame) :
    frame.lockAt? entry = (frame.heldAt? entry).map (·.lock) := by
  cases frame <;> rfl

theorem Frame.lockAt?_congr {entry entry' : List Held} (h : locksOf entry = locksOf entry')
    (frame : Frame) : frame.lockAt? entry = frame.lockAt? entry' := by
  cases frame with
  | inherited i => simpa [Frame.lockAt?] using congrArg (·[i]?) h
  | acquired => rfl

namespace RelStack

variable {s caller exit : RelStack} {entry entry' : List Held}

/-- Every frame exists at the entry. -/
def Fits (s : RelStack) (entry : List Held) : Prop :=
  ∀ frame ∈ s, (frame.heldAt? entry).isSome = true

theorem locksOf_materialize (s : RelStack) (entry : List Held) :
    locksOf (s.materialize entry) = s.filterMap (Frame.lockAt? entry) := by
  rw [locksOf, materialize, List.map_filterMap]
  exact List.filterMap_congr fun frame _ => (Frame.lockAt?_eq entry frame).symm

/-- Which locks a stack stands for depends on the locks of the entry only. -/
theorem locksOf_materialize_congr (h : locksOf entry = locksOf entry') :
    locksOf (s.materialize entry) = locksOf (s.materialize entry') := by
  rw [locksOf_materialize, locksOf_materialize]
  exact List.filterMap_congr fun frame _ => Frame.lockAt?_congr h frame

/-! ## The untouched stack -/

theorem identity_congr (h : locksOf entry = locksOf entry') :
    identity entry = identity entry' := by
  have hlen : entry.length = entry'.length := by simpa using congrArg List.length h
  rw [identity, identity, hlen]

theorem fits_identity (entry : List Held) : (identity entry).Fits entry := by
  intro frame hframe
  obtain ⟨i, hi, rfl⟩ := List.mem_map.mp hframe
  simpa [Frame.heldAt?] using hi

theorem materialize_identity (entry : List Held) : (identity entry).materialize entry = entry := by
  refine List.ext_getElem? fun i => ?_
  rw [materialize, getElem?_filterMap_of_isSome (fits_identity entry), identity,
    List.getElem?_map]
  by_cases hi : i < entry.length
  · simp [hi, Frame.heldAt?]
  · rw [List.getElem?_eq_none (by simpa using hi), List.getElem?_eq_none (by simpa using hi)]
    rfl

/-! ## Taking and releasing -/

theorem fits_take (h : s.Fits entry) (held : Held) : Fits (s ++ [.acquired held]) entry := by
  intro frame hframe
  rcases List.mem_append.mp hframe with hframe | hframe
  · exact h frame hframe
  · rw [List.mem_singleton.mp hframe]
    rfl

theorem materialize_take (s : RelStack) (entry : List Held) (held : Held) :
    materialize (s ++ [.acquired held]) entry = s.materialize entry ++ [held] := by
  simp [materialize, Frame.heldAt?]

theorem mem_of_mem_release {lock : LockId} {frame : Frame}
    (h : frame ∈ s.release entry lock) : frame ∈ s := by
  rw [release, List.mem_reverse] at h
  exact List.mem_reverse.mp (List.mem_of_mem_eraseP h)

theorem release_congr (h : locksOf entry = locksOf entry') (s : RelStack) (lock : LockId) :
    s.release entry lock = s.release entry' lock := by
  simp only [release, Frame.lockAt?_congr h]

theorem locksOf_release (s : RelStack) (entry : List Held) (lock : LockId) :
    locksOf ((s.release entry lock).materialize entry) =
      releaseLast (locksOf (s.materialize entry)) lock := by
  rw [locksOf_materialize, locksOf_materialize, releaseLast, ← List.filterMap_reverse,
    List.erase_eq_eraseP', List.eraseP_filterMap, release, List.filterMap_reverse]
  congr 3
  funext frame
  cases frame.lockAt? entry <;> simp

/-! ## Calls -/

theorem fits_compose (h : caller.Fits entry) (exit : RelStack) :
    (caller.compose exit).Fits entry := by
  intro frame hframe
  obtain ⟨x, -, hx⟩ := List.mem_filterMap.mp hframe
  cases x with
  | inherited i => exact h frame (List.mem_of_getElem? hx)
  | acquired held =>
    cases hx
    rfl

theorem materialize_compose (h : caller.Fits entry) (exit : RelStack) :
    (caller.compose exit).materialize entry = exit.materialize (caller.materialize entry) := by
  rw [compose, materialize, materialize, List.filterMap_filterMap]
  refine List.filterMap_congr fun frame _ => ?_
  cases frame with
  | inherited i => exact (getElem?_filterMap_of_isSome h i).symm
  | acquired held => rfl

end RelStack

end Interlock.Deadlock
