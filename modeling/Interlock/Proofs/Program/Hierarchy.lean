import Mathlib.Data.List.Nodup
import Mathlib.Data.List.Perm.Subperm
import Mathlib.Data.List.Permutation
import Mathlib.Order.WellFounded
import Interlock.Program.Hierarchy
import Interlock.Proofs.Ordered.Reachable

/-! Inheritance without cycles. The search for cycles accepts a hierarchy only if it is well
founded; then the ancestors of a class are what its supertypes lead to, and no class is above
itself. The rows of subclasses, which are built class by class, are the supertype lists read
backwards. -/

namespace Interlock.Program.Supertypes

variable {supers : Supertypes} {c d : ClassId}

/-- `c` names `s` as a supertype. -/
def Names (supers : Supertypes) (c s : ClassId) : Prop := s ∈ supers.of c

/-- All classes that are named as supertypes exist. -/
def InRange (supers : Supertypes) : Prop := ∀ c s, supers.Names c s → s < supers.size

theorem Names.lt_size (h : supers.Names c d) : c < supers.size := by
  unfold Names of at h
  cases hc : supers[c]? with
  | none => simp [hc] at h
  | some ss => exact (Array.getElem?_eq_some_iff.mp hc).1

/-! ## The search for cycles -/

/-- A class above which every way ends. -/
def Grounded (supers : Supertypes) (c : ClassId) : Prop := Acc (fun s c => supers.Names c s) c

/-- Above a class that does not exist there is nothing. -/
theorem grounded_of_not_lt (h : ¬ c < supers.size) : supers.Grounded c :=
  Acc.intro c fun _ hs => absurd hs.lt_size h

/-- The path of a search, with what is left of its fuel. It holds no class twice, so that the
fuel lasts until the path meets itself. -/
structure SearchPath (supers : Supertypes) (fuel : Nat) (path : List ClassId) : Prop where
  nodup : path.Nodup
  lt_size : ∀ c ∈ path, c < supers.size
  length : fuel + path.length = supers.size + 1

namespace SearchPath

variable {fuel : Nat} {path : List ClassId}

theorem start (supers : Supertypes) : supers.SearchPath (supers.size + 1) [] :=
  ⟨List.nodup_nil, by simp, rfl⟩

theorem fuel_pos (h : supers.SearchPath fuel path) : 0 < fuel := by
  have hle : path.length ≤ (List.range supers.size).length :=
    (h.nodup.subperm fun c hc => List.mem_range.mpr (h.lt_size c hc)).length_le
  have hlength := h.length
  rw [List.length_range] at hle
  omega

theorem extend (h : supers.SearchPath (fuel + 1) path) (hc : c < supers.size) (hnew : c ∉ path) :
    supers.SearchPath fuel (path ++ [c]) where
  nodup := by
    rw [← List.concat_eq_append]
    exact h.nodup.concat hnew
  lt_size d hd := by
    rcases List.mem_append.mp hd with hd | hd
    · exact h.lt_size d hd
    · exact List.mem_singleton.mp hd ▸ hc
  length := by
    have := h.length
    simp only [List.length_append, List.length_singleton]
    omega

end SearchPath

/-- What a search has settled: what it found before, and one more class. -/
structure Settles (supers : Supertypes) (done : List ClassId) (c : ClassId)
    (done' : List ClassId) : Prop where
  keeps : ∀ d ∈ done, d ∈ done'
  adds : c ∈ done'
  grounded : ∀ d ∈ done', supers.Grounded d

/-- Classes that are settled one after the other are all settled in the end. -/
theorem settles_foldlM {step : List ClassId → ClassId → Except (List ClassId) (List ClassId)}
    {cs done done' : List ClassId}
    (hstep : ∀ c ∈ cs, ∀ done done', (∀ d ∈ done, supers.Grounded d) →
      step done c = .ok done' → supers.Settles done c done')
    (hdone : ∀ d ∈ done, supers.Grounded d) (h : cs.foldlM step done = .ok done') :
    (∀ d ∈ done, d ∈ done') ∧ (∀ c ∈ cs, c ∈ done') ∧ ∀ d ∈ done', supers.Grounded d := by
  induction cs generalizing done with
  | nil =>
    cases h
    exact ⟨fun d hd => hd, by simp, hdone⟩
  | cons c cs ih =>
    rw [List.foldlM_cons] at h
    cases hfirst : step done c with
    | error cycle => rw [hfirst] at h; cases h
    | ok between =>
      rw [hfirst] at h
      have hc := hstep c List.mem_cons_self done between hdone hfirst
      obtain ⟨hkeep, hall, hgrounded⟩ :=
        ih (fun d hd => hstep d (List.mem_cons_of_mem _ hd)) hc.grounded h
      refine ⟨fun d hd => hkeep d (hc.keeps d hd), fun d hd => ?_, hgrounded⟩
      rcases List.mem_cons.mp hd with rfl | hd
      · exact hkeep d hc.adds
      · exact hall d hd

theorem searchCycle_settles {fuel : Nat}
    {path done done' : List ClassId} (hpath : supers.SearchPath fuel path)
    (hc : c < supers.size) (hdone : ∀ d ∈ done, supers.Grounded d)
    (h : supers.searchCycle fuel path done c = .ok done') : supers.Settles done c done' := by
  induction fuel generalizing path done done' c with
  | zero => exact absurd hpath.fuel_pos (Nat.lt_irrefl 0)
  | succ fuel ih =>
    rw [searchCycle] at h
    split at h
    · next hmem =>
      cases h
      exact ⟨fun d hd => hd, hmem, hdone⟩
    · split at h
      · cases h
      · next hnew =>
        dsimp only at h
        cases hfold : ((supers.of c).filter (· < supers.size)).foldlM
            (supers.searchCycle fuel (path ++ [c])) done with
        | error cycle =>
          rw [hfold] at h
          cases h
        | ok between =>
          rw [hfold] at h
          cases h
          obtain ⟨hkeep, hall, hgrounded⟩ := settles_foldlM
            (fun s hs done done' hdone hs' =>
              ih (hpath.extend hc hnew) (by simpa using (List.mem_filter.mp hs).2) hdone hs')
            hdone hfold
          -- every supertype is settled by now, hence the class itself
          have hself : supers.Grounded c := Acc.intro c fun s hs => by
            by_cases hlt : s < supers.size
            · exact hgrounded s (hall s (List.mem_filter.mpr ⟨hs, by simpa using hlt⟩))
            · exact grounded_of_not_lt hlt
          refine ⟨fun d hd => List.mem_cons_of_mem _ (hkeep d hd), List.mem_cons_self, ?_⟩
          intro d hd
          rcases List.mem_cons.mp hd with rfl | hd
          · exact hself
          · exact hgrounded d hd

/-- A hierarchy that is accepted has no infinite way up, and every class gets its ancestors. -/
theorem flatten_eq_ok {ancestors : List (List ClassId)}
    (h : supers.flatten = .ok ancestors) :
    WellFounded (fun s c => supers.Names c s) ∧
      ancestors = (List.range supers.size).map supers.ancestorsOf := by
  unfold flatten at h
  simp only [bind, Except.bind, pure, Except.pure] at h
  split at h
  · cases h
  · next done hdone =>
    cases h
    refine ⟨⟨fun c => ?_⟩, rfl⟩
    obtain ⟨-, hall, hgrounded⟩ := settles_foldlM
      (fun c hc done done' hdone hc' =>
        searchCycle_settles (SearchPath.start supers) (List.mem_range.mp hc) hdone hc')
      (by simp) hdone
    by_cases hc : c < supers.size
    · exact hgrounded c (hall c (List.mem_range.mpr hc))
    · exact grounded_of_not_lt hc

/-! ## The rows of subclasses -/

/-- Of all rows, a supertype changes only its own, and only where the class is not in it yet. -/
theorem getElem?_addSubclass (d : ClassId) (rows : Array (List ClassId)) (s c : ClassId) :
    (addSubclass d rows s)[c]? =
      rows[c]?.map fun row => if c = s ∧ d ∉ row then row ++ [d] else row := by
  unfold addSubclass
  by_cases hcs : c = s
  · subst hcs
    cases hrow : rows[c]? with
    | none => simp [hrow]
    | some row =>
      have hlt := (Array.getElem?_eq_some_iff.mp hrow).1
      by_cases hd : d ∈ row
      · simp [hd, hrow]
      · simp [hd, hlt]
  · have hother : (fun row : List ClassId => if c = s ∧ d ∉ row then row ++ [d] else row) = id := by
      funext row
      rw [if_neg fun h => hcs h.1, id]
    rw [hother, Option.map_id, id]
    split
    · split
      · rfl
      · rw [Array.getElem?_setIfInBounds_ne (Ne.symm hcs)]
    · rfl

/-- A class gets into the rows of its supertypes once, however often it names them. -/
theorem getElem?_addToRows (rows : Array (List ClassId)) (ss : List ClassId) (d c : ClassId) :
    (addToRows rows (ss, d))[c]? =
      rows[c]?.map fun row => if c ∈ ss ∧ d ∉ row then row ++ [d] else row := by
  show (ss.foldl (addSubclass d) rows)[c]? = _
  induction ss generalizing rows with
  | nil => simp
  | cons s ss ih =>
    rw [List.foldl_cons, ih, getElem?_addSubclass, Option.map_map]
    congr 1
    funext row
    simp only [Function.comp_apply, List.mem_cons]
    by_cases hcs : c = s <;> by_cases hd : d ∈ row <;> simp [hcs, hd]

/-- The rows after the first `k` classes: the row of a class holds those of them that name it. -/
def Inverts (supers : Supertypes) (k : Nat) (rows : Array (List ClassId)) : Prop :=
  ∀ c, rows[c]? =
    if c < supers.size then some ((List.range k).filter fun d => (supers.of d).contains c) else none

namespace Inverts

theorem start (supers : Supertypes) : supers.Inverts 0 (Array.replicate supers.size []) := by
  intro c
  simp [Array.getElem?_replicate]

theorem step {k : Nat} {rows : Array (List ClassId)} (h : supers.Inverts k rows) :
    supers.Inverts (k + 1) (addToRows rows (supers.of k, k)) := by
  intro c
  rw [getElem?_addToRows, h c]
  split
  · -- the rows hold earlier classes only, so this one is in none of them
    have hnew : k ∉ (List.range k).filter fun d => (supers.of d).contains c := fun hk =>
      Nat.lt_irrefl k (List.mem_range.mp (List.mem_filter.mp hk).1)
    rw [Option.map_some, List.range_succ, List.filter_append]
    by_cases hc : c ∈ supers.of k
    · rw [if_pos ⟨hc, hnew⟩]
      simp [hc]
    · rw [if_neg fun hboth => hc hboth.1]
      simp [hc]
  · rfl

end Inverts

/-- When all classes have been taken in, every row holds all classes that name its own one. -/
theorem inverts_rows (supers : Supertypes) : supers.Inverts supers.size supers.rows := by
  have hall : ∀ k ≤ supers.size, supers.Inverts k
      ((supers.toList.zipIdx.take k).foldl addToRows (Array.replicate supers.size [])) := by
    intro k hk
    induction k with
    | zero => exact Inverts.start supers
    | succ k ih =>
      have hget : supers.toList.zipIdx[k]? = some (supers.of k, k) := by
        simp [of, Array.getElem?_eq_getElem hk]
      rw [List.take_add_one, hget, Option.toList_some, List.foldl_append, List.foldl_cons,
        List.foldl_nil]
      exact (ih (Nat.le_of_succ_le hk)).step
  have hrows := hall supers.size (Nat.le_refl _)
  rwa [List.take_of_length_le (by simp)] at hrows

/-- The subclasses of a class are all classes that name it, in the order of declaration. -/
theorem subclasses_eq (supers : Supertypes) (c : ClassId) :
    supers.subclasses c =
      if c < supers.size then
        (List.range supers.size).filter fun d => (supers.of d).contains c
      else [] := by
  rw [subclasses, inverts_rows supers c]
  split <;> rfl

/-- A supertype that is named twice counts once, and one that does not exist has no row. -/
example : rows #[[], [0, 0, 7], [0, 1]] = #[[1, 2], [2], []] := by decide

/-! ## Above and below -/

theorem not_transGen_self (hwf : WellFounded fun s c => supers.Names c s) (c : ClassId) :
    ¬ Relation.TransGen supers.Names c c := fun h =>
  hwf.transGen.irrefl.irrefl c (Relation.transGen_swap.mpr h)

theorem mem_ancestorsOf (hrange : supers.InRange) :
    d ∈ supers.ancestorsOf c ↔ Relation.TransGen supers.Names c d :=
  Ordered.mem_preorder_next_iff fun a b hb => List.mem_range.mpr (hrange a b hb)

theorem mem_subclasses_iff : d ∈ supers.subclasses c ↔ supers.Names d c ∧ c < supers.size := by
  rw [subclasses_eq]
  split
  · next hc =>
    rw [List.mem_filter, List.mem_range, List.contains_iff_mem]
    exact ⟨fun h => ⟨h.2, hc⟩, fun h => ⟨h.1.lt_size, h.1⟩⟩
  · next hc => exact iff_of_false List.not_mem_nil fun h => hc h.2

theorem subclasses_ascending (supers : Supertypes) (c : ClassId) :
    (supers.subclasses c).Pairwise (· < ·) := by
  rw [subclasses_eq]
  split
  · exact List.pairwise_lt_range.filter _
  · exact List.Pairwise.nil

theorem mem_subclasses (hrange : supers.InRange) : d ∈ supers.subclasses c ↔ supers.Names d c :=
  mem_subclasses_iff.trans (and_iff_left_of_imp (hrange d c))

end Interlock.Program.Supertypes
