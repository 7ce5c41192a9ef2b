import Interlock.Proofs.Types.Registry

/-! Interning. A type refers only to types that were registered before it, a key has one identity,
and a type has the kind that its key calls for. Registering keeps this as long as a key mentions
registered types only, so it holds of every registry that an analysis meets. -/

namespace Interlock.Types

/-- The types that a key mentions. -/
def TypeKey.parts : TypeKey → List TypeId
  | .compound components => components
  | .array element => [element]
  | _ => []

/-- One of the first `n` types, or one of the two that no registration gives. -/
def TypeId.Below (n : Nat) : TypeId → Prop
  | .id k => k < n
  | .unknown => True
  | .unresolved => True

instance (n : Nat) : (ty : TypeId) → Decidable (ty.Below n)
  | .id k => inferInstanceAs (Decidable (k < n))
  | .unknown => .isTrue trivial
  | .unresolved => .isTrue trivial

theorem TypeId.Below.mono {ty : TypeId} {n k : Nat} (h : ty.Below n) (hle : n ≤ k) :
    ty.Below k := by
  cases ty with
  | id i => exact Nat.lt_of_lt_of_le h hle
  | unknown => trivial
  | unresolved => trivial

namespace Registry

variable {r t : Registry} {ty : TypeId} {key : TypeKey}

/-- A type that a key or a request may mention. -/
abbrev Covers (r : Registry) (ty : TypeId) : Prop := ty.Below r.size

theorem covers_mono (h : r.Covers ty) (hle : r ≤ t) : t.Covers ty := h.mono (size_le hle)

theorem Knows.covers (h : r.Knows ty) : r.Covers ty := by
  cases ty with
  | id n => exact h
  | unknown => trivial
  | unresolved => trivial

theorem covers_of_key? (h : r.key? ty = some key) : r.Covers ty := (knows_of_key? h).covers

theorem exists_key?_of_covers {n : Nat} (h : r.Covers (.id n)) :
    ∃ key, r.key? (.id n) = some key := by
  have hlt : n < r.entries.size := h
  exact ⟨r.entries[n].key, by rw [key?_id, Array.getElem?_eq_getElem hlt, Option.map_some]⟩

theorem kindOf_id (r : Registry) (n : Nat) :
    r.kindOf (.id n) = (r.entries[n]?.map (·.kind)).getD .none := by
  rw [kindOf]
  cases r.entries[n]? <;> rfl

theorem kindOf_mono (h : r.Covers ty) (hle : r ≤ t) : t.kindOf ty = r.kindOf ty := by
  cases ty with
  | id n =>
    obtain ⟨later, heq⟩ := hle
    have hlt : n < r.entries.toList.length := by
      rw [Array.length_toList]
      exact h
    rw [kindOf_id, kindOf_id, ← Array.getElem?_toList, ← Array.getElem?_toList, ← heq,
      List.getElem?_append_left hlt]
  | unknown => rfl
  | unresolved => rfl

/-- The kind of a key depends on the kinds of what it mentions. -/
theorem kindFor_congr (h : ∀ part ∈ key.parts, t.kindOf part = r.kindOf part) :
    t.kindFor key = r.kindFor key := by
  cases key with
  | compound components =>
    simp only [kindFor]
    cases hbase : components.getLast? with
    | none => rfl
    | some base => exact h base (List.mem_of_getLast? hbase)
  | primitive p => cases p <;> rfl
  | _ => rfl

/-! ## One more type -/

/-- The registry with a further type. -/
def push (r : Registry) (key : TypeKey) : Registry := ⟨r.entries.push ⟨key, r.kindFor key⟩⟩

@[simp] theorem size_push (r : Registry) (key : TypeKey) : (r.push key).size = r.size + 1 := by
  simp [size, push]

theorem le_push (r : Registry) (key : TypeKey) : r ≤ r.push key := by
  change r.entries.toList <+: (r.entries.push _).toList
  simp

theorem key?_push (r : Registry) (key : TypeKey) (n : Nat) :
    (r.push key).key? (.id n) = if n = r.size then some key else r.key? (.id n) := by
  rw [key?_id, key?_id, push, Array.getElem?_push, size]
  by_cases hn : n = r.entries.size
  · rw [if_pos hn, if_pos hn, Option.map_some]
  · rw [if_neg hn, if_neg hn]

theorem find?_push (r : Registry) (key k : TypeKey) :
    (r.push key).find? k = (r.find? k).or (if key = k then some (.id r.size) else none) := by
  rw [find?, find?, push, Array.findIdx?_push]
  cases r.entries.findIdx? fun e => decide (e.key = k) with
  | some n => rfl
  | none => by_cases hk : key = k <;> simp [hk, size]

theorem register_of_find? (h : r.find? key = some ty) : r.register key = (ty, r) := by
  rw [register, h]

theorem register_of_new (h : r.find? key = none) :
    r.register key = (.id r.size, r.push key) := by
  rw [register, h]
  rfl

theorem find?_register (r : Registry) (key : TypeKey) :
    (r.register key).2.find? key = some (r.register key).1 := by
  cases h : r.find? key with
  | some ty => rw [register_of_find? h, h]
  | none => rw [register_of_new h, find?_push, h, if_pos rfl, Option.none_or]

theorem find?_mono (h : r.find? key = some ty) (hle : r ≤ t) : t.find? key = some ty := by
  obtain ⟨later, heq⟩ := hle
  have happ : t.entries = r.entries ++ later.toArray := by
    apply Array.toList_inj.mp
    simpa using heq.symm
  rw [find?, happ, Array.findIdx?_append]
  rw [find?] at h
  cases hn : r.entries.findIdx? fun e => decide (e.key = key) with
  | some n => simpa [hn] using h
  | none => simp [hn] at h

/-! ## The invariant -/

/-- A registry that shares its types. -/
structure Interned (r : Registry) : Prop where
  find? : ∀ {n key}, r.key? (.id n) = some key → r.find? key = some (.id n)
  parts : ∀ {n key}, r.key? (.id n) = some key → ∀ part ∈ key.parts, part.Below n
  kind : ∀ {ty key}, r.key? ty = some key → r.kindOf ty = r.kindFor key

/-- Keys and identities are inverse to each other. -/
theorem Interned.eq_of_key? (h : r.Interned) {n k : Nat} (hn : r.key? (.id n) = some key)
    (hk : r.key? (.id k) = some key) : n = k := by
  have heq := (h.find? hn).symm.trans (h.find? hk)
  simpa using heq

theorem Interned.covers_parts (h : r.Interned) (hkey : r.key? ty = some key) :
    ∀ part ∈ key.parts, r.Covers part := by
  intro part hpart
  cases ty with
  | id n => exact (h.parts hkey part hpart).mono (Nat.le_of_lt (covers_of_key? hkey))
  | unknown => simp [key?] at hkey
  | unresolved => simp [key?] at hkey

/-- What holds of the two types that are never registered, and of a registered type whenever it
holds of those that its key mentions, holds of all types of the registry. -/
theorem Interned.induction (h : r.Interned) {P : TypeId → Prop} (unknown : P .unknown)
    (unresolved : P .unresolved)
    (id : ∀ n key, r.key? (.id n) = some key → (∀ part ∈ key.parts, part.Below n) →
      (∀ part ∈ key.parts, P part) → P (.id n))
    {ty : TypeId} (hty : r.Covers ty) : P ty := by
  have hall : ∀ n, r.Covers (.id n) → P (.id n) := by
    intro n
    induction n using Nat.strongRecOn with
    | ind n ih =>
      intro hn
      obtain ⟨key, hkey⟩ := exists_key?_of_covers hn
      refine id n key hkey (h.parts hkey) fun part hpart => ?_
      have hbelow := h.parts hkey part hpart
      cases part with
      | id k => exact ih k hbelow (Nat.lt_trans hbelow hn)
      | unknown => exact unknown
      | unresolved => exact unresolved
  cases ty with
  | id n => exact hall n hty
  | unknown => exact unknown
  | unresolved => exact unresolved

theorem components?_eq_some_iff {components : List TypeId} :
    r.components? ty = some components ↔ r.key? ty = some (.compound components) := by
  unfold components?
  split <;> simp_all

theorem classOf?_eq_some_iff {c : ClassId} :
    r.classOf? ty = some c ↔ r.key? ty = some (.declared c) := by
  unfold classOf?
  split <;> simp_all

theorem interned_empty : Interned ⟨#[]⟩ := by
  refine ⟨?_, ?_, ?_⟩
  · intro n key hkey
    simp [key?_id] at hkey
  · intro n key hkey
    simp [key?_id] at hkey
  · intro ty key hkey
    cases ty <;> simp [key?] at hkey

theorem Interned.push (h : r.Interned) (hnew : r.find? key = none)
    (hparts : ∀ part ∈ key.parts, r.Covers part) : (r.push key).Interned := by
  have hsame : ∀ part, r.Covers part → (r.push key).kindOf part = r.kindOf part :=
    fun part hpart => kindOf_mono hpart (le_push r key)
  refine ⟨?_, ?_, ?_⟩
  · intro n k hk
    rw [key?_push] at hk
    rw [find?_push]
    by_cases hn : n = r.size
    · rw [if_pos hn, Option.some.injEq] at hk
      rw [← hk, hnew, if_pos rfl, hn, Option.none_or]
    · rw [if_neg hn] at hk
      rw [h.find? hk, Option.some_or]
  · intro n k hk part hpart
    rw [key?_push] at hk
    by_cases hn : n = r.size
    · rw [if_pos hn, Option.some.injEq] at hk
      rw [hn]
      exact hparts part (hk ▸ hpart)
    · rw [if_neg hn] at hk
      exact h.parts hk part hpart
  · intro ty k hk
    cases ty with
    | id n =>
      rw [key?_push] at hk
      by_cases hn : n = r.size
      · rw [if_pos hn, Option.some.injEq] at hk
        rw [← hk, kindFor_congr fun part hpart => hsame part (hparts part hpart), hn, kindOf_id]
        simp [Registry.push, size]
      · rw [if_neg hn] at hk
        rw [hsame _ (covers_of_key? hk), h.kind hk]
        exact (kindFor_congr fun part hpart => hsame part (h.covers_parts hk part hpart)).symm
    | unknown => simp [key?] at hk
    | unresolved => simp [key?] at hk

/-- Registering keeps a registry interned. -/
theorem Interned.register (h : r.Interned) (hparts : ∀ part ∈ key.parts, r.Covers part) :
    (r.register key).2.Interned := by
  cases hfind : r.find? key with
  | some ty =>
    rw [register_of_find? hfind]
    exact h
  | none =>
    rw [register_of_new hfind]
    exact h.push hfind hparts

theorem Interned.registerAll (h : r.Interned) (keys : List TypeKey)
    (hparts : ∀ key ∈ keys, ∀ part ∈ key.parts, r.Covers part) : (r.registerAll keys).Interned := by
  induction keys generalizing r with
  | nil => exact h
  | cons key keys ih =>
    have hle := le_register r key
    refine ih (h.register (hparts key List.mem_cons_self)) fun k hk part hpart => ?_
    exact covers_mono (hparts k (List.mem_cons_of_mem _ hk) part hpart) hle

/-! ## The registry that every analysis starts with -/

theorem parts_of_mem_initialKeys (h : key ∈ initialKeys) : key.parts = [] := by
  rcases List.mem_append.mp h with h | h
  · obtain ⟨p, -, rfl⟩ := List.mem_map.mp h
    rfl
  · obtain ⟨name, -, rfl⟩ := List.mem_map.mp h
    rfl

theorem interned_withoutObjectSet : withoutObjectSet.Interned := by
  refine interned_empty.registerAll initialKeys fun key hkey part hpart => ?_
  simp [parts_of_mem_initialKeys hkey] at hpart

theorem knows_of_named? {name : String} (h : primitives ≤ r) (hname : r.named? name = some ty) :
    r.Knows ty := by
  have hprimitive : ∀ p, r.Knows (primitive p) := fun p =>
    knows_of_key? (key?_mono (primitives_key? p) h)
  unfold named? at hname
  split at hname
  · cases hname
    exact hprimitive _
  · split at hname
    · cases hname
      exact hprimitive _
    · split at hname
      · exact knows_of_key? (key?_of_find? hname)
      · cases hname

theorem knows_parts_objectSetKey {part : TypeId} (h : part ∈ objectSetKey.parts) :
    withoutObjectSet.Knows part := by
  rw [objectSetKey, TypeKey.parts, List.mem_filterMap] at h
  obtain ⟨name, -, hname⟩ := h
  exact knows_of_named? primitives_le_withoutObjectSet hname

theorem interned_initial : initial.Interned := by
  rw [initial]
  refine interned_withoutObjectSet.registerAll [objectSetKey] fun key hkey part hpart => ?_
  rw [List.mem_singleton.mp hkey] at hpart
  exact (knows_parts_objectSetKey hpart).covers

end Registry

end Interlock.Types
