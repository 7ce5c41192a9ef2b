/-! Finite sets and maps as ascending lists. Answers list their elements in ascending order and
never twice, so the list itself is the canonical form: two ascending lists with the same
elements are equal, and iterating over a set is iterating over its list. -/

namespace Interlock.Ordered

universe u v

variable {α : Type u} {β : Type v} [Ord α]

/-- Strictly ascending, hence without repetition. -/
def Ascending (s : List α) : Prop := s.Pairwise fun a b => compare a b = .lt

/-- Inserts an element at its place; an element that is present is left alone. -/
def insert (a : α) : List α → List α
  | [] => [a]
  | b :: s =>
    match compare a b with
    | .lt => a :: b :: s
    | .eq => b :: s
    | .gt => b :: insert a s

/-- Adds every element of `t` to `s`. -/
def union (s t : List α) : List α := t.foldl (fun acc a => insert a acc) s

def ofList (l : List α) : List α := union [] l

/-- Binds `k` to `v` unless `k` is bound already: the first binding of a key stays. -/
def insertNew (k : α) (v : β) : List (α × β) → List (α × β)
  | [] => [(k, v)]
  | (l, w) :: m =>
    match compare k l with
    | .lt => (k, v) :: (l, w) :: m
    | .eq => (l, w) :: m
    | .gt => (l, w) :: insertNew k v m

def find? (k : α) (m : List (α × β)) : Option β :=
  (m.find? fun p => compare k p.1 == .eq).map (·.2)

section Lemmas

/-- Binding a key inserts it among the keys. -/
@[simp] theorem keys_insertNew (k : α) (v : β) (m : List (α × β)) :
    (insertNew k v m).map (·.1) = insert k (m.map (·.1)) := by
  induction m with
  | nil => rfl
  | cons e m ih =>
    simp only [insertNew, List.map_cons, insert]
    split <;> simp [ih]

/-- Values can be changed before or after a key is bound. -/
theorem map_insertNew {γ : Type v} (f : β → γ) (k : α) (v : β) (m : List (α × β)) :
    (insertNew k v m).map (Prod.map id f) = insertNew k (f v) (m.map (Prod.map id f)) := by
  induction m with
  | nil => rfl
  | cons e m ih =>
    simp only [insertNew, List.map_cons, Prod.map_fst, id_eq]
    split
    · rfl
    · rfl
    · exact congrArg (Prod.map id f e :: ·) ih

theorem mem_of_mem_insertNew {k : α} {v : β} {m : List (α × β)} {e : α × β}
    (h : e ∈ insertNew k v m) : e = (k, v) ∨ e ∈ m := by
  induction m with
  | nil => simpa [insertNew] using h
  | cons d m ih =>
    rw [insertNew] at h
    split at h
    · exact List.mem_cons.mp h
    · exact Or.inr h
    · rcases List.mem_cons.mp h with rfl | h
      · exact Or.inr List.mem_cons_self
      · exact (ih h).imp_right (List.mem_cons_of_mem _)

/-- Binding keys one after the other adds them to the keys. -/
theorem keys_foldl_insertNew (m n : List (α × β)) :
    (n.foldl (fun acc e => insertNew e.1 e.2 acc) m).map (·.1) =
      union (m.map (·.1)) (n.map (·.1)) := by
  induction n generalizing m with
  | nil => rfl
  | cons e n ih => simp only [List.foldl_cons, ih, keys_insertNew, union, List.map_cons]

theorem find?_cons (j : α) (e : α × β) (m : List (α × β)) :
    find? j (e :: m) = if compare j e.1 = .eq then some e.2 else find? j m := by
  rw [find?, List.find?_cons]
  by_cases h : compare j e.1 = .eq
  · simp [h]
  · rw [if_neg h, beq_eq_false_iff_ne.mpr h, find?]

variable [Std.LawfulEqOrd α]

theorem isSome_find? {k : α} {m : List (α × β)} :
    (find? k m).isSome = true ↔ k ∈ m.map (·.1) := by
  simp only [find?, Option.isSome_map, List.find?_isSome, List.mem_map, beq_iff_eq,
    Std.LawfulEqOrd.compare_eq_iff_eq]
  exact ⟨fun ⟨e, he, hk⟩ => ⟨e, he, hk.symm⟩, fun ⟨e, he, hk⟩ => ⟨e, he, hk.symm⟩⟩

/-- A key below all keys of a map is not bound. -/
theorem find?_eq_none_of_lt {k : α} {m : List (α × β)}
    (h : ∀ l ∈ m.map (·.1), compare k l = .lt) : find? k m = none := by
  rw [← Option.not_isSome_iff_eq_none, isSome_find?]
  intro hk
  have hlt := h k hk
  rw [Std.ReflOrd.compare_self] at hlt
  cases hlt

@[simp] theorem mem_insert {x a : α} {s : List α} : x ∈ insert a s ↔ x = a ∨ x ∈ s := by
  induction s with
  | nil => simp [insert]
  | cons b s ih =>
    rw [insert]
    split
    · simp
    · next h => rw [Std.LawfulEqOrd.compare_eq_iff_eq] at h; subst h; simp
    · simp only [List.mem_cons, ih]; exact or_left_comm

@[simp] theorem mem_union {x : α} {s t : List α} : x ∈ union s t ↔ x ∈ s ∨ x ∈ t := by
  induction t generalizing s with
  | nil => simp [union]
  | cons a t ih =>
    simp only [union, List.foldl_cons] at ih ⊢
    rw [ih, mem_insert, List.mem_cons, or_comm (a := x = a), or_assoc]

@[simp] theorem mem_ofList {x : α} {l : List α} : x ∈ ofList l ↔ x ∈ l := by
  simp [ofList]

variable [Std.TransOrd α]

theorem ascending_insert {a : α} {s : List α} (h : Ascending s) : Ascending (insert a s) := by
  induction s with
  | nil => simp [insert, Ascending]
  | cons b s ih =>
    have hb := List.pairwise_cons.mp h
    rw [insert]
    split
    · next hab =>
      refine List.pairwise_cons.mpr ⟨fun x hx => ?_, h⟩
      rcases List.mem_cons.mp hx with rfl | hx
      · exact hab
      · exact Std.TransCmp.lt_trans hab (hb.1 x hx)
    · exact h
    · next hab =>
      refine List.pairwise_cons.mpr ⟨fun x hx => ?_, ih hb.2⟩
      rcases mem_insert.mp hx with rfl | hx
      · exact Std.OrientedCmp.lt_of_gt hab
      · exact hb.1 x hx

theorem ascending_union {s t : List α} (h : Ascending s) : Ascending (union s t) := by
  induction t generalizing s with
  | nil => simpa [union] using h
  | cons a t ih => exact ih (ascending_insert h)

theorem ascending_ofList (l : List α) : Ascending (ofList l) :=
  ascending_union List.Pairwise.nil

theorem ascending_insertNew {k : α} {v : β} {m : List (α × β)} (h : Ascending (m.map (·.1))) :
    Ascending ((insertNew k v m).map (·.1)) := by
  rw [keys_insertNew]
  exact ascending_insert h

/-- A key that is bound keeps its value. -/
theorem find?_insertNew {m : List (α × β)} (h : Ascending (m.map (·.1))) (j k : α) (v : β) :
    find? j (insertNew k v m) = (find? j m).or (find? j [(k, v)]) := by
  induction m with
  | nil => rfl
  | cons e m ih =>
    obtain ⟨hlt, hm⟩ := List.pairwise_cons.mp h
    rw [insertNew]
    split
    · next hke =>
      rw [find?_cons j (k, v), find?_cons j (k, v) []]
      by_cases hj : compare j k = .eq
      · -- the new key comes before all keys of the map, so it was not bound
        have hjk := Std.LawfulEqOrd.eq_of_compare hj
        have hnone : find? j (e :: m) = none := by
          refine find?_eq_none_of_lt fun l hl => ?_
          rcases List.mem_cons.mp hl with rfl | hl
          · exact hjk ▸ hke
          · exact hjk ▸ Std.TransCmp.lt_trans hke (hlt l hl)
        simp [hj, hnone]
      · simp [hj, find?]
    · next hke =>
      have hkey := Std.LawfulEqOrd.eq_of_compare hke
      simp only [find?_cons, hkey]
      split <;> simp [find?]
    · rw [find?_cons, find?_cons, ih hm]
      split <;> simp

/-- Of several bindings of a key the first one stays. -/
theorem find?_foldl_insertNew {m : List (α × β)} (h : Ascending (m.map (·.1)))
    (n : List (α × β)) (j : α) :
    find? j (n.foldl (fun acc e => insertNew e.1 e.2 acc) m) = (find? j m).or (find? j n) := by
  induction n generalizing m with
  | nil => simp [find?]
  | cons e n ih =>
    rw [List.foldl_cons, ih (ascending_insertNew h), find?_insertNew h, Option.or_assoc,
      find?_cons j e n, find?_cons]
    split <;> simp [find?]

end Lemmas

end Interlock.Ordered
