import Interlock.Proofs.Deadlock.Exactness
import Interlock.Proofs.Deadlock.Structured

/-! A program without deadlocks takes its locks in a global order. Of a lock order this is a fact
about finite relations: there are no conflicts exactly if the locks can be numbered so that every
pair goes up, and the number of locks that lead to a lock is such a number. For programs whose
functions take some locks in turn and give them back the other way round, the pairs are those of
the sequences, so that the analysis decides whether the sequences agree on one order. -/

namespace Interlock.Deadlock

open scoped List

/-! ## Numbering the locks -/

namespace LockOrder

variable {o : LockOrder} {a b : LockId}

/-- How many locks lead to a lock. -/
def rank (o : LockOrder) (l : LockId) : Nat :=
  (Ordered.preorder o.before o.locks (o.before l)).length

/-- Without a cycle, fewer locks lead to the lock that is held than to the one that is taken. -/
theorem rank_lt_rank (ho : ∀ l, ¬ o.Leads l l) (h : o.contains a b = true) :
    o.rank a < o.rank b := by
  have hnodup : o.locks.Nodup := o.locks_ascending.imp Nat.ne_of_lt
  have hself : a ∉ Ordered.preorder o.before o.locks (o.before a) :=
    fun hmem => ho a (mem_earlier.mp hmem)
  have hsub : a :: Ordered.preorder o.before o.locks (o.before a) ⊆
      Ordered.preorder o.before o.locks (o.before b) := by
    intro m hm
    rw [mem_earlier]
    rcases List.mem_cons.mp hm with rfl | hm
    · exact .single h
    · exact (mem_earlier.mp hm).tail h
  have hall := List.nodup_cons.mpr ⟨hself, Ordered.nodup_preorder (o.before a) hnodup⟩
  exact (hall.subperm hsub).length_le

/-- There are no conflicts exactly if some numbering of the locks grows along every pair. -/
theorem conflicts_eq_nil_iff_exists_rank :
    o.conflicts = [] ↔ ∃ rank : LockId → Nat, ∀ a b, o.contains a b = true → rank a < rank b := by
  rw [conflicts_eq_nil_iff]
  constructor
  · intro ho
    exact ⟨o.rank, fun a b => rank_lt_rank ho⟩
  · rintro ⟨rank, hrank⟩ l hl
    have hlt : ∀ a b, o.Leads a b → rank a < rank b := by
      intro a b hab
      induction hab with
      | single h => exact hrank _ _ h
      | tail _ h ih => exact ih.trans (hrank _ _ h)
    exact Nat.lt_irrefl _ (hlt l l hl)

/-- Locks that are taken in either order are in one conflict and no more. -/
theorem countP_conflicts_of_contains (hab : o.contains a b = true)
    (hba : o.contains b a = true) :
    o.conflicts.countP (fun c => a ∈ c.locks ∧ b ∈ c.locks) = 1 := by
  obtain ⟨c, hc, hmem⟩ := exists_conflict (ne_of_contains hab) (.single hab) (.single hba)
  obtain ⟨before, after, hsplit⟩ := List.append_of_mem hc
  have hdisjoint := o.conflicts_disjoint
  rw [hsplit, List.pairwise_append, List.pairwise_cons] at hdisjoint
  obtain ⟨-, ⟨hafter, -⟩, hbefore⟩ := hdisjoint
  have hnone : ∀ ds : List Conflict, (∀ d ∈ ds, a ∉ d.locks) →
      ds.countP (fun d => a ∈ d.locks ∧ b ∈ d.locks) = 0 := fun ds hds =>
    List.countP_eq_zero.mpr fun d hd => by simp [hds d hd]
  have hearlier := hnone before fun d hd ha => hbefore d hd c List.mem_cons_self ha hmem.1
  have hlater := hnone after fun d hd ha => hafter d hd hmem.1 ha
  rw [hsplit, List.countP_append, List.countP_cons_of_pos (by simpa using hmem), hearlier, hlater]

end LockOrder

/-! ## Locks taken in turn -/

/-- Takes some locks in turn and gives them back the other way round. -/
def inTurn (locks : List LockId) : List GraphEntry :=
  locks.map .acquire ++ locks.reverse.map .release

/-- The program with one function for each sequence, which takes the locks of the sequence. -/
def takingInTurn (sequences : List (List LockId)) : CallGraph where
  nodes := sequences.mapIdx fun i locks => ⟨i, inTurn locks⟩
  threads := []

/-- Some sequence has `a` somewhere before `b`. -/
def Precedes (sequences : List (List LockId)) (a b : LockId) : Prop :=
  ∃ locks ∈ sequences, [a, b] <+ locks

section

variable {sequences : List (List LockId)} {a b : LockId} {f : FunctionId}

theorem pair_sublist_iff {locks : List LockId} :
    [a, b] <+ locks ↔ ∃ before after, locks = before ++ b :: after ∧ a ∈ before := by
  rw [show [a, b] = [a] ++ [b] from rfl, List.append_sublist_iff]
  simp only [List.singleton_sublist]
  constructor
  · rintro ⟨first, last, rfl, ha, hb⟩
    obtain ⟨between, after, rfl⟩ := List.append_of_mem hb
    exact ⟨first ++ between, after, by simp, List.mem_append_left _ ha⟩
  · rintro ⟨before, after, rfl, ha⟩
    exact ⟨before, b :: after, rfl, ha, List.mem_cons_self⟩

/-! ### What the functions are -/

theorem mem_roots_takingInTurn : f ∈ roots (takingInTurn sequences) ↔ f < sequences.length := by
  change f ∈ (takingInTurn sequences).nodes.map (·.function) ↔ _
  simp only [takingInTurn, List.mem_map, List.mem_mapIdx]
  constructor
  · rintro ⟨node, ⟨i, hi, rfl⟩, rfl⟩
    exact hi
  · intro hf
    exact ⟨_, ⟨f, hf, rfl⟩, rfl⟩

theorem entries_takingInTurn :
    (takingInTurn sequences).entries f = (sequences[f]?.map inTurn).getD [] := by
  simp only [CallGraph.entries, takingInTurn, List.getElem?_mapIdx]
  cases sequences[f]? <;> rfl

theorem not_calls_takingInTurn {c : FunctionId} : ¬ (takingInTurn sequences).Calls f c := by
  rintro ⟨cs, hcs, -⟩
  rw [entries_takingInTurn] at hcs
  cases h : sequences[f]? with
  | none => simp [h] at hcs
  | some locks => simp [h, inTurn] at hcs

theorem recursionFree_takingInTurn : (takingInTurn sequences).RecursionFree := by
  intro f hf
  obtain ⟨c, hc, -⟩ := Relation.TransGen.head'_iff.mp hf
  exact not_calls_takingInTurn hc

theorem wellNested_inTurn (locks : List LockId) : WellNested (inTurn locks) := by
  induction locks with
  | nil => exact .nil
  | cons lock locks ih =>
    have hregion : inTurn (lock :: locks) =
        .acquire lock :: (inTurn locks ++ .release lock :: []) := by
      simp [inTurn]
    rw [hregion]
    exact .region ih .nil

theorem structured_takingInTurn : Structured (takingInTurn sequences) := by
  intro node hnode
  obtain ⟨i, hi, rfl⟩ := List.mem_mapIdx.mp hnode
  exact wellNested_inTurn _

theorem full_takingInTurn (cap : Nat) (root : FunctionId) :
    (traverse (takingInTurn sequences) cap root).truncated = false := by
  have howns : ({} : Walk).Owns [] := fun x hx => by cases hx
  exact (follow_restores structured_takingInTurn (by omega : 0 < max cap 1) _ root [] {} .empty
    howns).2.1.full

/-! ### What they run into -/

/-- While locks are taken in turn, a run stands before one of them with the earlier ones held. -/
theorem run_take_acquires_iff {g : CallGraph} {skips : FunctionId → FunctionId → Prop}
    {locks held stack : List LockId} {rest : List GraphEntry} {lock : LockId} :
    Run g skips f (locks.map .acquire ++ rest) held (.take lock stack) ↔
      (∃ before after, locks = before ++ lock :: after ∧ stack = held ++ before) ∨
        Run g skips f rest (held ++ locks) (.take lock stack) := by
  induction locks generalizing held with
  | nil => simp
  | cons l locks ih =>
    rw [List.map_cons, List.cons_append]
    constructor
    · intro h
      cases h with
      | take => exact Or.inl ⟨[], locks, rfl, by simp⟩
      | acquire h =>
        rcases ih.mp h with ⟨before, after, rfl, rfl⟩ | h
        · exact Or.inl ⟨l :: before, after, rfl, by simp⟩
        · exact Or.inr (by simpa using h)
    · rintro (⟨before, after, hlocks, rfl⟩ | h)
      · cases before with
        | nil =>
          obtain ⟨rfl, rfl⟩ := List.cons.inj hlocks
          rw [List.append_nil]
          exact .take
        | cons l' before =>
          obtain ⟨rfl, rfl⟩ := List.cons.inj hlocks
          exact .acquire (ih.mpr (Or.inl ⟨before, after, rfl, by simp⟩))
      · exact .acquire (ih.mpr (Or.inr (by simpa using h)))

theorem not_run_take_releases {g : CallGraph} {skips : FunctionId → FunctionId → Prop}
    {locks held stack : List LockId} {lock : LockId} :
    ¬ Run g skips f (locks.map .release) held (.take lock stack) := by
  induction locks generalizing held with
  | nil => exact fun h => by cases h
  | cons l locks ih =>
    intro h
    cases h with
    | release h => exact ih h

theorem meets_takingInTurn_iff :
    (∃ root ∈ roots (takingInTurn sequences), Meets (takingInTurn sequences) noSkip root a b) ↔
      Precedes sequences a b := by
  have hrun : ∀ {root : FunctionId} {locks : List LockId}, sequences[root]? = some locks →
      (Meets (takingInTurn sequences) noSkip root a b ↔ [a, b] <+ locks) := by
    intro root locks hroot
    simp only [Meets, entries_takingInTurn, hroot, Option.map_some, Option.getD_some, inTurn,
      run_take_acquires_iff, not_run_take_releases, or_false, List.nil_append, pair_sublist_iff]
    constructor
    · rintro ⟨stack, ⟨before, after, hlocks, rfl⟩, ha⟩
      exact ⟨stack, after, hlocks, ha⟩
    · rintro ⟨before, after, hlocks, ha⟩
      exact ⟨before, ⟨before, after, hlocks, rfl⟩, ha⟩
  simp only [mem_roots_takingInTurn]
  constructor
  · rintro ⟨root, hlt, hmeets⟩
    exact ⟨sequences[root], List.getElem_mem hlt,
      (hrun (List.getElem?_eq_getElem hlt)).mp hmeets⟩
  · rintro ⟨locks, hmem, hsub⟩
    obtain ⟨root, hlt, rfl⟩ := List.mem_iff_getElem.mp hmem
    exact ⟨root, hlt, (hrun (List.getElem?_eq_getElem hlt)).mpr hsub⟩

theorem lockOrder_takingInTurn_observes (cap : Nat) :
    (lockOrder (takingInTurn sequences) cap).Observes a b ↔ Precedes sequences a b := by
  rw [lockOrder_observes, ← meets_takingInTurn_iff]
  constructor
  · rintro ⟨root, hroot, h⟩
    exact ⟨root, hroot, meets_of_observes_of_recursionFree recursionFree_takingInTurn h⟩
  · rintro ⟨root, hroot, h⟩
    exact ⟨root, hroot, observes_of_meets recursionFree_takingInTurn (full_takingInTurn cap root) h⟩

end

/-- The pairs of a program that takes locks in turn are those of its sequences, and the locks taken
again are those that occur twice in one of them; it has no deadlock exactly if there is one order
that all sequences keep to; and any two locks that are taken in either order are in exactly one
deadlock. -/
theorem deadlocks_takingInTurn (sequences : List (List LockId)) (cap : Nat) :
    (∀ a b, (lockOrder (takingInTurn sequences) cap).order.contains a b = true ↔
      a ≠ b ∧ Precedes sequences a b) ∧
    (∀ l, l ∈ (detect (takingInTurn sequences) cap).reentrancies.map (·.lock) ↔
      ∃ locks ∈ sequences, 2 ≤ locks.count l) ∧
    ((detect (takingInTurn sequences) cap).deadlocks = [] ↔
      ∃ rank : LockId → Nat, ∀ a b, a ≠ b → Precedes sequences a b → rank a < rank b) ∧
    ∀ a b, a ≠ b → Precedes sequences a b → Precedes sequences b a →
      (detect (takingInTurn sequences) cap).deadlocks.countP
        (fun c => a ∈ c.locks ∧ b ∈ c.locks) = 1 := by
  have hpairs : ∀ a b, (lockOrder (takingInTurn sequences) cap).order.contains a b = true ↔
      a ≠ b ∧ Precedes sequences a b := by
    intro a b
    rw [Outcome.contains_iff_observes, lockOrder_takingInTurn_observes]
  refine ⟨hpairs, ?_, ?_, ?_⟩
  · intro l
    have hlocks : (detect (takingInTurn sequences) cap).reentrancies.map (·.lock) =
        (lockOrder (takingInTurn sequences) cap).reentrancies.map (·.1) := by
      simp [detect]
    rw [hlocks, ← Outcome.observes_self, lockOrder_takingInTurn_observes]
    simp only [Precedes, ← List.replicate_sublist_iff, List.replicate_succ, List.replicate_zero]
  · simp only [detect, LockOrder.conflicts_eq_nil_iff_exists_rank, hpairs, and_imp]
  · intro a b hne hab hba
    exact LockOrder.countP_conflicts_of_contains ((hpairs a b).mpr ⟨hne, hab⟩)
      ((hpairs b a).mpr ⟨hne.symm, hba⟩)

/-- Two sequences disagree about two locks, with other locks between them. -/
def inversion : List (List LockId) := [[1, 3, 2], [2, 4, 1], [5, 3, 5]]

theorem inversion_deadlocks : Precedes inversion 1 2 ∧ Precedes inversion 2 1 ∧
    (detect (takingInTurn inversion) 64).deadlocks.countP
      (fun c => 1 ∈ c.locks ∧ 2 ∈ c.locks) = 1 ∧
    ¬ ∃ rank : LockId → Nat, ∀ a b, a ≠ b → Precedes inversion a b → rank a < rank b := by
  obtain ⟨-, -, hfree, hone⟩ := deadlocks_takingInTurn inversion 64
  have hup : Precedes inversion 1 2 := ⟨[1, 3, 2], by decide, by decide⟩
  have hdown : Precedes inversion 2 1 := ⟨[2, 4, 1], by decide, by decide⟩
  have hcount := hone 1 2 (by decide) hup hdown
  refine ⟨hup, hdown, hcount, fun hrank => ?_⟩
  rw [hfree.mpr hrank] at hcount
  cases hcount

end Interlock.Deadlock
