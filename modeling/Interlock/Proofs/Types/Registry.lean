import Mathlib.Order.Defs.PartialOrder
import Interlock.Types.Registry

/-! A registry only grows. What was registered keeps its identity and its key, so that everything
known about a type stays true while later declarations are read. The order of registries states
this, and every operation that registers types is shown to move up in it. -/

namespace Interlock.Types.Registry

variable {r t : Registry} {ty : TypeId} {key : TypeKey}

/-- One registry is above another if it holds the same entries first. -/
instance : Preorder Registry where
  le r t := r.entries.toList <+: t.entries.toList
  le_refl r := List.prefix_rfl
  le_trans _ _ _ h k := h.trans k

theorem size_le (h : r ≤ t) : r.size ≤ t.size := by
  have := List.IsPrefix.length_le h
  simpa [size] using this

/-- A type that a registry gives out: one of its own, or the unknown one. -/
def Knows (r : Registry) : TypeId → Prop
  | .id n => n < r.size
  | .unknown => True
  | .unresolved => False

theorem Knows.mono (h : r.Knows ty) (hle : r ≤ t) : t.Knows ty := by
  cases ty with
  | id n => exact Nat.lt_of_lt_of_le h (size_le hle)
  | unknown => trivial
  | unresolved => exact h

theorem key?_id (r : Registry) (n : Nat) : r.key? (.id n) = r.entries[n]?.map (·.key) := rfl

theorem key?_mono (h : r.key? ty = some key) (hle : r ≤ t) : t.key? ty = some key := by
  cases ty with
  | id n =>
    obtain ⟨later, heq⟩ := hle
    simp only [key?_id, Option.map_eq_some_iff] at h ⊢
    obtain ⟨e, he, hkey⟩ := h
    refine ⟨e, ?_, hkey⟩
    rw [← Array.getElem?_toList] at he ⊢
    rw [← heq, List.getElem?_append_left (List.getElem?_eq_some_iff.mp he).1, he]
  | unknown => simp [key?] at h
  | unresolved => simp [key?] at h

theorem knows_of_key? (h : r.key? ty = some key) : r.Knows ty := by
  cases ty with
  | id n =>
    obtain ⟨e, he, -⟩ := Option.map_eq_some_iff.mp h
    exact (Array.getElem?_eq_some_iff.mp he).1
  | unknown => trivial
  | unresolved => simp [key?] at h

theorem key?_of_find? (h : r.find? key = some ty) : r.key? ty = some key := by
  obtain ⟨n, hn, rfl⟩ := Option.map_eq_some_iff.mp h
  obtain ⟨hlt, hkey, -⟩ := Array.findIdx?_eq_some_iff_getElem.mp hn
  simp only [key?_id, Array.getElem?_eq_getElem hlt, Option.map_some]
  simpa using hkey

theorem knows_find? (r : Registry) (key : TypeKey) : r.Knows ((r.find? key).getD .unknown) := by
  cases h : r.find? key with
  | none => trivial
  | some ty => exact knows_of_key? (key?_of_find? h)

/-! ## Registering -/

theorem le_register (r : Registry) (key : TypeKey) : r ≤ (r.register key).2 := by
  unfold register
  split
  · exact le_refl r
  · change r.entries.toList <+: (r.entries.push _).toList
    simp

theorem key?_register (r : Registry) (key : TypeKey) :
    (r.register key).2.key? (r.register key).1 = some key := by
  unfold register
  split
  · next h => exact key?_of_find? h
  · simp [key?_id, size]

theorem knows_register (r : Registry) (key : TypeKey) :
    (r.register key).2.Knows (r.register key).1 :=
  knows_of_key? (key?_register r key)

theorem le_registerAll (keys : List TypeKey) (r : Registry) : r ≤ r.registerAll keys := by
  induction keys generalizing r with
  | nil => exact le_refl r
  | cons key keys ih => exact le_trans (le_register r key) (ih (r.register key).2)

/-- The primitives alone. -/
def primitives : Registry := registerAll ⟨#[]⟩ (Primitive.all.map .primitive)

theorem primitives_key? (p : Primitive) : primitives.key? (primitive p) = some (.primitive p) := by
  cases p <;> decide +kernel

theorem primitives_le_withoutObjectSet : primitives ≤ withoutObjectSet := by
  have hnames : withoutObjectSet =
      primitives.registerAll ((untrackedNames ++ builtinNames).map .named) := by
    rw [withoutObjectSet, initialKeys, primitives, registerAll, registerAll, registerAll,
      List.foldl_append]
  rw [hnames]
  exact le_registerAll _ primitives

theorem primitives_le_initial : primitives ≤ initial := by
  calc primitives
    _ ≤ withoutObjectSet := primitives_le_withoutObjectSet
    _ ≤ withoutObjectSet.registerAll [objectSetKey] := le_registerAll _ _
    _ = initial := by rw [initial]

/-- The primitives come first in the registry that every analysis starts with. -/
theorem key?_primitive (h : initial ≤ r) (p : Primitive) :
    r.key? (primitive p) = some (.primitive p) :=
  key?_mono (primitives_key? p) (le_trans primitives_le_initial h)

theorem knows_primitive (h : initial ≤ r) (p : Primitive) : r.Knows (primitive p) :=
  knows_of_key? (key?_primitive h p)

theorem knows_named? (h : initial ≤ r) (name : String) :
    r.Knows ((r.named? name).getD .unknown) := by
  unfold named?
  split
  · exact knows_primitive h _
  · split
    · exact knows_primitive h _
    · split
      · exact knows_find? r _
      · trivial

/-! ## Substitution -/

theorem le_instantiateAt (owner : ClassId) (args : List TypeId) (fuel : Nat) (ty : TypeId)
    (r : Registry) : r ≤ (instantiateAt owner args fuel ty r).2 := by
  induction fuel generalizing ty r with
  | zero => exact le_refl r
  | succ fuel ih =>
    rw [instantiateAt]
    split
    · split <;> exact le_refl r
    · next components _ =>
      have hparts : r ≤ (mapThrough (instantiateAt owner args fuel) components r).2 :=
        (mapThrough_spec (R := (· ≤ ·)) (P := fun _ _ _ => True) le_refl le_trans
          (fun _ _ => trivial) components r fun ty _ s _ => ⟨ih ty s, trivial⟩).1
      exact le_trans hparts (le_register _ _)
    · next element _ => exact le_trans (ih element r) (le_register _ _)
    · exact le_refl r

theorem le_instantiate (r : Registry) (ty : TypeId) (owner : ClassId) (args : List TypeId) :
    r ≤ (r.instantiate ty owner args).2 :=
  le_instantiateAt owner args (r.size + 1) ty r

end Interlock.Types.Registry
