import Mathlib.Data.List.Sort
import Interlock.Deadlock.LockOrder
import Interlock.Proofs.Ordered.Reachable

/-! Conflicts are the sets of locks that lead to each other. A conflict is found at its smallest
lock, so that each set is reported once; what it lists are the observations among its locks, and
these alone already lead from each of its locks to each other one, because a way that comes back
never leaves the set. -/

namespace Interlock.Deadlock

theorem LockPair.compare_eq_lt_iff {p q : LockPair} :
    compare p q = .lt ↔ p.held < q.held ∨ p.held = q.held ∧ p.taken < q.taken := by
  change compare [p.held, p.taken] [q.held, q.taken] = .lt ↔ _
  simp only [List.compare_eq_compareLex, List.compareLex_cons_cons, List.compareLex_nil_nil,
    Ordering.then_eq_lt, Nat.compare_eq_lt, Nat.compare_eq_eq]
  simp

/-- A pair that a conflict lists. -/
def Conflict.Links (c : Conflict) (a b : LockId) : Prop := ∃ e ∈ c.edges, e.pair = ⟨a, b⟩

namespace LockOrder

variable {o : LockOrder} {a b l m : LockId}

theorem contains_iff : o.contains a b = true ↔ ⟨a, b⟩ ∈ o.edges.map (·.1) :=
  Ordered.isSome_find?

/-- There is a way from `a` to `b` of at least one observed pair. -/
def Leads (o : LockOrder) : LockId → LockId → Prop :=
  Relation.TransGen fun a b => o.contains a b = true

theorem ne_of_contains (h : o.contains a b = true) : a ≠ b :=
  o.proper ⟨a, b⟩ (contains_iff.mp h)

theorem contains_iff_exists :
    o.contains a b = true ↔ ∃ e ∈ o.edges, e.1.held = a ∧ e.1.taken = b := by
  simp only [contains_iff, List.mem_map, LockPair.ext_iff]

theorem mem_after : b ∈ o.after a ↔ o.contains a b = true := by
  simp only [contains_iff_exists, after, List.mem_map, List.mem_filter, beq_iff_eq, and_assoc]

theorem mem_before : a ∈ o.before b ↔ o.contains a b = true := by
  simp only [contains_iff_exists, before, List.mem_map, List.mem_filter, beq_iff_eq, and_assoc,
    and_comm]

theorem mem_locks_of_contains (h : o.contains a b = true) : a ∈ o.locks ∧ b ∈ o.locks := by
  obtain ⟨e, he, rfl, rfl⟩ := contains_iff_exists.mp h
  simp only [locks, Ordered.mem_ofList, List.mem_flatMap]
  exact ⟨⟨e, he, by simp⟩, ⟨e, he, by simp⟩⟩

theorem Leads.mem_locks (h : o.Leads a b) : a ∈ o.locks ∧ b ∈ o.locks := by
  induction h with
  | single h => exact mem_locks_of_contains h
  | tail _ h ih => exact ⟨ih.1, (mem_locks_of_contains h).2⟩

theorem locks_ascending (o : LockOrder) : o.locks.Pairwise (· < ·) :=
  (Ordered.ascending_ofList _).imp Nat.compare_eq_lt.mp

/-! ## Components -/

theorem mem_later : m ∈ Ordered.preorder o.after o.locks (o.after l) ↔ o.Leads l m := by
  have hrel : Ordered.Follows o.after = fun a b => o.contains a b = true := by
    funext a b
    exact propext mem_after
  rw [Ordered.mem_preorder_next_iff fun c d hd => (mem_locks_of_contains (mem_after.mp hd)).2,
    hrel, Leads]

theorem mem_earlier : m ∈ Ordered.preorder o.before o.locks (o.before l) ↔ o.Leads m l := by
  have hrel : Ordered.Follows o.before = Function.swap fun a b => o.contains a b = true := by
    funext a b
    exact propext mem_before
  rw [Ordered.mem_preorder_next_iff fun c d hd => (mem_locks_of_contains (mem_before.mp hd)).1,
    hrel, Relation.transGen_swap, Leads]

theorem mem_component :
    m ∈ o.component l ↔ m ∈ o.locks ∧ (m = l ∨ o.Leads l m ∧ o.Leads m l) := by
  simp only [component, List.mem_filter, Bool.or_eq_true, beq_iff_eq, Bool.and_eq_true,
    List.contains_iff_mem, mem_later, mem_earlier]

theorem component_ascending (o : LockOrder) (l : LockId) :
    (o.component l).Pairwise (· < ·) :=
  (o.locks_ascending).sublist List.filter_sublist

/-- Locks of one component lead to each other. -/
theorem leads_of_mem_component (ha : a ∈ o.component l) (hb : b ∈ o.component l)
    (hne : a ≠ b) : o.Leads a b := by
  rcases (mem_component.mp ha).2 with rfl | ⟨-, hal⟩ <;>
    rcases (mem_component.mp hb).2 with rfl | ⟨hlb, -⟩
  · exact absurd rfl hne
  · exact hlb
  · exact hal
  · exact hal.trans hlb

theorem mem_component_of_mem (ha : a ∈ o.component l) (hb : b ∈ o.component l) :
    a ∈ o.component b := by
  refine mem_component.mpr ⟨(mem_component.mp ha).1, ?_⟩
  by_cases h : a = b
  · exact Or.inl h
  · exact Or.inr ⟨leads_of_mem_component hb ha (Ne.symm h), leads_of_mem_component ha hb h⟩

theorem self_mem_component (hm : m ∈ o.component l) : l ∈ o.component l := by
  obtain ⟨hlocks, rfl | ⟨hlm, -⟩⟩ := mem_component.mp hm
  · exact hm
  · exact mem_component.mpr ⟨hlm.mem_locks.1, Or.inl rfl⟩

theorem component_eq_of_mem (hm : m ∈ o.component l) : o.component m = o.component l := by
  have hl : l ∈ o.component m := mem_component_of_mem (self_mem_component hm) hm
  refine (o.component_ascending m).eq_of_mem_iff (o.component_ascending l) fun x => ?_
  exact ⟨fun hx => mem_component_of_mem hx hl, fun hx => mem_component_of_mem hx hm⟩

/-! ## Conflicts -/

theorem conflictAt?_eq_some {c : Conflict} (h : o.conflictAt? l = some c) :
    c.locks = o.component l ∧ c.edges = o.edgesAmong c.locks ∧
      ∃ second rest, c.locks = l :: second :: rest := by
  unfold conflictAt? at h
  split at h
  · next first second rest hc =>
    split at h
    · next hl =>
      cases h
      exact ⟨hc.symm, rfl, second, rest, by rw [hl]⟩
    · cases h
  · cases h

theorem conflictAt?_of_component {second : LockId} {rest : List LockId}
    (h : o.component l = l :: second :: rest) :
    o.conflictAt? l = some ⟨o.component l, o.edgesAmong (o.component l)⟩ := by
  simp [conflictAt?, h]

/-- A conflict is the component of its smallest lock. -/
theorem eq_component_of_mem_conflicts {c : Conflict} (hc : c ∈ o.conflicts) :
    ∃ l, c.locks = o.component l ∧ c.edges = o.edgesAmong c.locks ∧ 2 ≤ c.locks.length := by
  obtain ⟨l, -, h⟩ := List.mem_filterMap.mp hc
  obtain ⟨hlocks, hedges, second, rest, hl⟩ := conflictAt?_eq_some h
  exact ⟨l, hlocks, hedges, by simp [hl]⟩

theorem exists_ne_mem_conflict {c : Conflict} (hc : c ∈ o.conflicts) (a : LockId) :
    ∃ x ∈ c.locks, x ≠ a := by
  obtain ⟨l, -, h⟩ := List.mem_filterMap.mp hc
  obtain ⟨hlocks, -, second, rest, hl⟩ := conflictAt?_eq_some h
  have hlt : l < second := by
    have hasc := o.component_ascending l
    rw [← hlocks, hl] at hasc
    exact (List.pairwise_cons.mp hasc).1 second List.mem_cons_self
  by_cases hla : l = a
  · exact ⟨second, by simp [hl], hla ▸ Nat.ne_of_gt hlt⟩
  · exact ⟨l, by simp [hl], hla⟩

/-- Different locks that lead to each other are in a conflict: the one that is found at the
smallest lock of their component. -/
theorem exists_conflict (hne : a ≠ b) (hab : o.Leads a b) (hba : o.Leads b a) :
    ∃ c ∈ o.conflicts, a ∈ c.locks ∧ b ∈ c.locks := by
  have ha : a ∈ o.component a := mem_component.mpr ⟨hab.mem_locks.1, Or.inl rfl⟩
  have hb : b ∈ o.component a := mem_component.mpr ⟨hab.mem_locks.2, Or.inr ⟨hab, hba⟩⟩
  match hc : o.component a with
  | [] => simp [hc] at ha
  | [first] =>
    rw [hc, List.mem_singleton] at ha hb
    exact absurd (ha.trans hb.symm) hne
  | first :: second :: rest =>
    have hfirst : first ∈ o.component a := by simp [hc]
    have heq := component_eq_of_mem hfirst
    refine ⟨_, List.mem_filterMap.mpr ⟨first, (mem_component.mp hfirst).1,
      conflictAt?_of_component (heq.trans hc)⟩, ?_⟩
    rw [heq]
    exact ⟨ha, hb⟩

theorem leads_of_mem_conflict {c : Conflict} (hc : c ∈ o.conflicts) (ha : a ∈ c.locks)
    (hb : b ∈ c.locks) (hne : a ≠ b) : o.Leads a b := by
  obtain ⟨l, hl, -⟩ := eq_component_of_mem_conflicts hc
  rw [hl] at ha hb
  exact leads_of_mem_component ha hb hne

/-- Conflicts come by ascending smallest lock. -/
theorem conflicts_pairwise (o : LockOrder) :
    o.conflicts.Pairwise fun c d =>
      ∃ l m, l < m ∧ c.locks = o.component l ∧ d.locks = o.component m ∧
        c.locks.head? = some l ∧ d.locks.head? = some m := by
  rw [conflicts, List.pairwise_filterMap]
  refine o.locks_ascending.imp fun {l m} hlm c hc d hd => ?_
  obtain ⟨hcl, -, _, _, hc'⟩ := conflictAt?_eq_some hc
  obtain ⟨hdm, -, _, _, hd'⟩ := conflictAt?_eq_some hd
  exact ⟨l, m, hlm, hcl, hdm, by simp [hc'], by simp [hd']⟩

theorem conflicts_disjoint (o : LockOrder) :
    o.conflicts.Pairwise fun c d => c.locks.Disjoint d.locks := by
  refine o.conflicts_pairwise.imp ?_
  rintro c d ⟨l, m, hlm, hc, hd, hl, hm⟩ x hx hx'
  -- a common lock makes the components, and with them their smallest locks, equal
  have heq : c.locks = d.locks :=
    calc c.locks = o.component l := hc
      _ = o.component x := (component_eq_of_mem (hc ▸ hx)).symm
      _ = o.component m := component_eq_of_mem (hd ▸ hx')
      _ = d.locks := hd.symm
  rw [heq, hm] at hl
  exact absurd (Option.some.inj hl) (Nat.ne_of_gt hlm)

theorem conflicts_sorted (o : LockOrder) :
    o.conflicts.Pairwise fun c d => c.locks < d.locks := by
  refine o.conflicts_pairwise.imp ?_
  rintro c d ⟨l, m, hlm, -, -, hl, hm⟩
  obtain ⟨cs, hc⟩ := List.head?_eq_some_iff.mp hl
  obtain ⟨ds, hd⟩ := List.head?_eq_some_iff.mp hm
  rw [hc, hd]
  exact List.Lex.rel hlm

/-! ## The observations of a conflict -/

theorem mem_edgesAmong {locks : List LockId} {p : LockPair} {w : Witness} :
    ⟨p, w⟩ ∈ o.edgesAmong locks ↔ (p, w) ∈ o.edges ∧ p.held ∈ locks ∧ p.taken ∈ locks := by
  simp only [edgesAmong, List.mem_map, List.mem_filter, Bool.and_eq_true, List.contains_iff_mem]
  constructor
  · rintro ⟨⟨q, v⟩, he, h⟩
    cases h
    exact he
  · intro h
    exact ⟨(p, w), h, rfl⟩

theorem edgesAmong_ascending (o : LockOrder) (locks : List LockId) :
    (o.edgesAmong locks).Pairwise fun d e =>
      d.pair.held < e.pair.held ∨ d.pair.held = e.pair.held ∧ d.pair.taken < e.pair.taken := by
  have h := List.pairwise_map.mp o.ascending
  exact List.pairwise_map.mpr
    ((h.sublist List.filter_sublist).imp LockPair.compare_eq_lt_iff.mp)

/-- A way inside a component: every lock on a way from `a` that leads back to `a` is in the
component of `a`, so the pairs of the way are among those of the component. -/
theorem links_of_leads {c : Conflict} (hlocks : c.locks = o.component l)
    (hedges : c.edges = o.edgesAmong c.locks) (ha : a ∈ c.locks) (hab : o.Leads a b)
    (hba : o.Leads b a) : Relation.TransGen c.Links a b := by
  have hin : ∀ x, o.Leads a x → o.Leads x a → x ∈ c.locks := by
    intro x hax hxa
    rw [hlocks, ← component_eq_of_mem (hlocks ▸ ha)]
    exact mem_component.mpr ⟨hax.mem_locks.2, Or.inr ⟨hax, hxa⟩⟩
  have hlink : ∀ x y, o.contains x y = true → x ∈ c.locks → y ∈ c.locks → c.Links x y := by
    intro x y hxy hx hy
    obtain ⟨⟨p, w⟩, he, rfl⟩ := List.mem_map.mp (contains_iff.mp hxy)
    exact ⟨⟨_, w⟩, hedges ▸ mem_edgesAmong.mpr ⟨he, hx, hy⟩, rfl⟩
  induction hab with
  | single h => exact .single (hlink _ _ h ha (hin _ (.single h) hba))
  | @tail x y hax hxy ih =>
    have hxa : o.Leads x a := Relation.TransGen.head hxy hba
    exact (ih hxa).tail (hlink _ _ hxy (hin x hax hxa) (hin y (hax.tail hxy) hba))

/-- The locks of a conflict lead to each other, and each to itself. -/
theorem leads_in_conflict {c : Conflict} (hc : c ∈ o.conflicts) (ha : a ∈ c.locks)
    (hb : b ∈ c.locks) : o.Leads a b := by
  by_cases hab : a = b
  · -- the way to itself goes over another lock of the conflict
    obtain ⟨x, hx, hxa⟩ := exists_ne_mem_conflict hc a
    subst hab
    exact (leads_of_mem_conflict hc ha hx (Ne.symm hxa)).trans
      (leads_of_mem_conflict hc hx ha hxa)
  · exact leads_of_mem_conflict hc ha hb hab

/-- What a conflict of a lock order shows. -/
structure Explains (o : LockOrder) (c : Conflict) : Prop where
  several : 2 ≤ c.locks.length
  ascending : c.locks.Pairwise (· < ·)
  edges_iff : ∀ p w, ⟨p, w⟩ ∈ c.edges ↔ (p, w) ∈ o.edges ∧ p.held ∈ c.locks ∧ p.taken ∈ c.locks
  edges_ascending : c.edges.Pairwise fun d e =>
    d.pair.held < e.pair.held ∨ d.pair.held = e.pair.held ∧ d.pair.taken < e.pair.taken
  connected : ∀ a ∈ c.locks, ∀ b ∈ c.locks, Relation.TransGen c.Links a b

theorem explains_of_mem_conflicts {c : Conflict} (hc : c ∈ o.conflicts) : o.Explains c := by
  obtain ⟨l, hlocks, hedges, hlen⟩ := eq_component_of_mem_conflicts hc
  refine ⟨hlen, hlocks ▸ o.component_ascending l, ?_, hedges ▸ o.edgesAmong_ascending _, ?_⟩
  · intro p w
    rw [hedges, mem_edgesAmong]
  · intro a ha b hb
    exact links_of_leads hlocks hedges ha (leads_in_conflict hc ha hb)
      (leads_in_conflict hc hb ha)

/-- A lock that leads to itself does so over another lock. -/
theorem exists_ne_of_leads_self (h : o.Leads a a) : ∃ b, a ≠ b ∧ o.Leads a b ∧ o.Leads b a := by
  obtain ⟨b, hab, hba⟩ := Relation.TransGen.head'_iff.mp h
  have hne : a ≠ b := ne_of_contains hab
  rcases Relation.reflTransGen_iff_eq_or_transGen.mp hba with heq | hba
  · exact absurd heq hne
  · exact ⟨b, hne, .single hab, hba⟩

theorem conflicts_eq_nil_iff : o.conflicts = [] ↔ ∀ a, ¬ o.Leads a a := by
  constructor
  · intro h a haa
    obtain ⟨b, hne, hab, hba⟩ := exists_ne_of_leads_self haa
    obtain ⟨c, hc, -⟩ := exists_conflict hne hab hba
    simp [h] at hc
  · intro h
    refine List.eq_nil_iff_forall_not_mem.mpr fun c hc => ?_
    obtain ⟨a, ha⟩ := List.exists_mem_of_length_pos
      (Nat.lt_of_lt_of_le Nat.two_pos (explains_of_mem_conflicts hc).several)
    exact h a (leads_in_conflict hc ha ha)

/-- Conflicts are the strongly connected sets: different locks are in one conflict exactly if they
lead to each other, no lock is in two conflicts, conflicts are ordered by their locks, each shows
what it claims, and there are none exactly if the order has no cycle. -/
theorem conflicts_exact (o : LockOrder) :
    (∀ a b, a ≠ b →
      ((∃ c ∈ o.conflicts, a ∈ c.locks ∧ b ∈ c.locks) ↔ o.Leads a b ∧ o.Leads b a)) ∧
    o.conflicts.Pairwise (fun c d => c.locks.Disjoint d.locks) ∧
    (∀ c ∈ o.conflicts, o.Explains c) ∧
    o.conflicts.Pairwise (fun c d => c.locks < d.locks) ∧
    (o.conflicts = [] ↔ ∀ a, ¬ o.Leads a a) := by
  refine ⟨?_, o.conflicts_disjoint, fun c hc => explains_of_mem_conflicts hc,
    o.conflicts_sorted, conflicts_eq_nil_iff⟩
  intro a b hne
  constructor
  · rintro ⟨c, hc, ha, hb⟩
    exact ⟨leads_in_conflict hc ha hb, leads_in_conflict hc hb ha⟩
  · rintro ⟨hab, hba⟩
    exact exists_conflict hne hab hba

/-- Two rings and a bridge from the one to the other. -/
def twoRings : LockOrder :=
  [⟨1, 2⟩, ⟨2, 1⟩, ⟨2, 3⟩, ⟨3, 4⟩, ⟨4, 3⟩].foldl
    (fun o (p : LockPair) => o.insert p.held p.taken ⟨[0], 0, 0⟩) .empty

theorem twoRings_exact :
    (∃ c ∈ twoRings.conflicts, 3 ∈ c.locks ∧ 4 ∈ c.locks) ∧
      ¬ ∃ c ∈ twoRings.conflicts, 1 ∈ c.locks ∧ 3 ∈ c.locks := by
  have h := (conflicts_exact twoRings).1
  have h34 : twoRings.Leads 3 4 := .single (by decide)
  have h43 : twoRings.Leads 4 3 := .single (by decide)
  have hlater : Ordered.preorder twoRings.after twoRings.locks (twoRings.after 3) = [4, 3] := by cbv
  have h31 : ¬ twoRings.Leads 3 1 := mem_later.not.mp (by simp [hlater])
  exact ⟨(h 3 4 (by decide)).mpr ⟨h34, h43⟩, fun hc => h31 ((h 1 3 (by decide)).mp hc).2⟩

end LockOrder

end Interlock.Deadlock
