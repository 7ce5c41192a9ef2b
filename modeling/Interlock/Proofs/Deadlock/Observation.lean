import Interlock.Deadlock.Findings
import Interlock.Proofs.Deadlock.Conflicts
import Interlock.Proofs.Deadlock.RelativeStack

/-! What a traversal observes: a lock is taken while another, or itself, is held. Order pairs and
re-entrancies are the two halves of one relation, and every step of a traversal only adds to it. -/

namespace Interlock.Deadlock

variable {a b : LockId}

theorem LockOrder.contains_insert {o : LockOrder} {held taken : LockId} {w : Witness} :
    (o.insert held taken w).contains a b = true ↔
      o.contains a b = true ∨ held ≠ taken ∧ a = held ∧ b = taken := by
  unfold LockOrder.insert
  split
  · next h => simp [h]
  · next h => simp [LockOrder.contains_iff, h, or_comm]

/-- Merging binds the pairs of the other order one after the other. -/
theorem LockOrder.edges_merge (o other : LockOrder) :
    (o.merge other).edges = other.edges.foldl (fun acc e => Ordered.insertNew e.1 e.2 acc)
      o.edges := by
  have hproper := other.proper
  unfold LockOrder.merge
  generalize other.edges = es at hproper
  induction es generalizing o with
  | nil => rfl
  | cons e es ih =>
    have he : e.1.held ≠ e.1.taken := hproper e.1 (by simp)
    rw [List.foldl_cons, ih _ fun p hp => hproper p (List.mem_cons_of_mem _ hp), List.foldl_cons,
      LockOrder.insert, dif_neg he]

theorem LockOrder.contains_merge {o other : LockOrder} :
    (o.merge other).contains a b = true ↔ o.contains a b = true ∨ other.contains a b = true := by
  rw [LockOrder.contains_iff, LockOrder.edges_merge, Ordered.keys_foldl_insertNew,
    Ordered.mem_union, ← LockOrder.contains_iff, ← LockOrder.contains_iff]

namespace Outcome

/-- `b` was taken while `a` was held. -/
def Observes (o : Outcome) (a b : LockId) : Prop :=
  if a = b then b ∈ o.reentrancies.map (·.1) else o.order.contains a b = true

theorem observes_self {o : Outcome} : o.Observes a a ↔ a ∈ o.reentrancies.map (·.1) := by
  simp [Observes]

theorem observes_of_ne {o : Outcome} (h : a ≠ b) :
    o.Observes a b ↔ o.order.contains a b = true := by
  simp [Observes, h]

theorem contains_iff_observes {o : Outcome} :
    o.order.contains a b = true ↔ a ≠ b ∧ o.Observes a b := by
  constructor
  · intro h
    have hne := LockOrder.ne_of_contains h
    exact ⟨hne, (observes_of_ne hne).mpr h⟩
  · rintro ⟨hne, h⟩
    exact (observes_of_ne hne).mp h

theorem not_observes_empty : ¬ ({} : Outcome).Observes a b := by
  by_cases h : a = b
  · subst h
    simp [observes_self]
  · simp [observes_of_ne h, LockOrder.contains_iff]

theorem merge_observes {o other : Outcome} :
    (o.merge other).Observes a b ↔ o.Observes a b ∨ other.Observes a b := by
  by_cases h : a = b
  · subst h
    simp only [observes_self, merge, Ordered.keys_foldl_insertNew, Ordered.mem_union]
  · simp only [observes_of_ne h, merge, LockOrder.contains_merge]

theorem foldl_merge_observes {ι : Type} (run : ι → Outcome) (is : List ι) (o : Outcome) :
    (is.foldl (fun acc i => acc.merge (run i)) o).Observes a b ↔
      o.Observes a b ∨ ∃ i ∈ is, (run i).Observes a b := by
  induction is generalizing o with
  | nil => simp
  | cons i is ih =>
    rw [List.foldl_cons, ih, merge_observes, or_assoc]
    simp

theorem foldl_merge_truncated {ι : Type} (run : ι → Outcome) (is : List ι) (o : Outcome) :
    (is.foldl (fun acc i => acc.merge (run i)) o).truncated = false ↔
      o.truncated = false ∧ ∀ i ∈ is, (run i).truncated = false := by
  induction is generalizing o with
  | nil => simp
  | cons i is ih =>
    rw [List.foldl_cons, ih, List.forall_mem_cons, ← and_assoc]
    simp [merge]

end Outcome

/-- A program observes what its roots observe. -/
theorem lockOrder_observes {g : CallGraph} {cap : Nat} :
    (lockOrder g cap).Observes a b ↔ ∃ root ∈ roots g, (traverse g cap root).Observes a b := by
  rw [lockOrder, Outcome.foldl_merge_observes]
  exact or_iff_right Outcome.not_observes_empty

/-- A program is cut where one of its roots is. -/
theorem lockOrder_truncated {g : CallGraph} {cap : Nat} :
    (lockOrder g cap).truncated = false ↔
      ∀ root ∈ roots g, (traverse g cap root).truncated = false := by
  rw [lockOrder, Outcome.foldl_merge_truncated]
  exact and_iff_right rfl

/-! ## Taking a lock -/

namespace Walk

theorem contains_foldl_insert {o : LockOrder} {lock : LockId} (held : List Held)
    (witness : Held → Witness) :
    (held.foldl (fun o h => o.insert h.lock lock (witness h)) o).contains a b = true ↔
      o.contains a b = true ∨ a ≠ lock ∧ b = lock ∧ a ∈ locksOf held := by
  induction held generalizing o with
  | nil => simp
  | cons h held ih =>
    rw [List.foldl_cons, ih, LockOrder.contains_insert, or_assoc]
    refine or_congr_right ?_
    simp only [List.map_cons, List.mem_cons]
    constructor
    · rintro (⟨hne, rfl, rfl⟩ | ⟨hne, rfl, ha⟩)
      · exact ⟨hne, rfl, Or.inl rfl⟩
      · exact ⟨hne, rfl, Or.inr ha⟩
    · rintro ⟨hne, rfl, rfl | ha⟩
      · exact Or.inl ⟨hne, rfl, rfl⟩
      · exact Or.inr ⟨hne, rfl, ha⟩

/-- Taking a lock is observed against every lock that is held, itself included. -/
theorem recordAcquire_observes {w : Walk} {f : FunctionId} {held : List Held} {lock : LockId} :
    (w.recordAcquire f held lock).outcome.Observes a b ↔
      w.outcome.Observes a b ∨ b = lock ∧ a ∈ locksOf held := by
  by_cases h : a = b
  · subst h
    simp only [Outcome.observes_self, recordAcquire]
    split
    · next x hx =>
      have hlock : x.lock = lock := by simpa using List.find?_some hx
      have hmem : lock ∈ locksOf held :=
        List.mem_map.mpr ⟨x, List.mem_of_find?_eq_some hx, hlock⟩
      rw [Ordered.keys_insertNew, Ordered.mem_insert, or_comm]
      refine or_congr_right ⟨?_, And.left⟩
      rintro rfl
      exact ⟨rfl, hmem⟩
    · next hnone =>
      have hnot : lock ∉ locksOf held := by simpa using hnone
      refine (or_iff_left ?_).symm
      rintro ⟨rfl, ha⟩
      exact hnot ha
  · simp only [Outcome.observes_of_ne h, recordAcquire, contains_foldl_insert]
    refine or_congr_right ⟨And.right, ?_⟩
    rintro ⟨rfl, ha⟩
    exact ⟨h, rfl, ha⟩

/-! ### Witnesses -/

theorem mem_edges_insert {o : LockOrder} {held taken : LockId} {v : Witness}
    {e : LockPair × Witness} (h : e ∈ (o.insert held taken v).edges) :
    e = (⟨held, taken⟩, v) ∨ e ∈ o.edges := by
  unfold LockOrder.insert at h
  split at h
  · exact Or.inr h
  · exact Ordered.mem_of_mem_insertNew h

section

variable (seen : LockId → LockId → Witness → Prop) {lock : LockId} {held : List Held}

theorem forall_mem_foldl_insert {witness : Held → Witness}
    (hseen : ∀ h ∈ held, seen h.lock lock (witness h)) {o : LockOrder}
    (ho : ∀ e ∈ o.edges, seen e.1.held e.1.taken e.2) :
    ∀ e ∈ (held.foldl (fun o h => o.insert h.lock lock (witness h)) o).edges,
      seen e.1.held e.1.taken e.2 := by
  induction held generalizing o with
  | nil => exact ho
  | cons h held ih =>
    refine ih (fun x hx => hseen x (List.mem_cons_of_mem _ hx)) fun e he => ?_
    rcases mem_edges_insert he with rfl | he
    · exact hseen h List.mem_cons_self
    · exact ho e he

/-- What is true of all witnesses stays so if it is true of those that taking a lock can add. -/
theorem forall_mem_recordAcquire {w : Walk} {f : FunctionId}
    (hseen : ∀ x ∈ held, seen x.lock lock ⟨w.path, x.acquiredIn, f⟩)
    (horder : ∀ e ∈ w.outcome.order.edges, seen e.1.held e.1.taken e.2)
    (hagain : ∀ r ∈ w.outcome.reentrancies, seen r.1 r.1 r.2) :
    (∀ e ∈ (w.recordAcquire f held lock).outcome.order.edges, seen e.1.held e.1.taken e.2) ∧
      ∀ r ∈ (w.recordAcquire f held lock).outcome.reentrancies, seen r.1 r.1 r.2 := by
  refine ⟨forall_mem_foldl_insert seen hseen horder, fun r hr => ?_⟩
  simp only [Walk.recordAcquire] at hr
  split at hr
  · next x hx =>
    have hlock : x.lock = lock := by simpa using List.find?_some hx
    rcases Ordered.mem_of_mem_insertNew hr with rfl | hr
    · have := hseen x (List.mem_of_find?_eq_some hx)
      rwa [hlock] at this
    · exact hagain r hr
  · exact hagain r hr

end

end Walk

end Interlock.Deadlock
