import Interlock.Proofs.Program.GenericMembers

/-! The order in which the fields of a class are visited. It decides which identities the types of
members get, and nothing else: the registries that two orders leave hold the same types, and
neither changes what was there before. -/

namespace Interlock.Types.Registry

variable {r t t' : Registry} {τs τs' : List TypeTree} {ty : TypeId} {owner : ClassId}
  {args : List TypeId}

/-! ## Registries that hold the same types -/

/-- Two registries that have grown from `r` differ in identities only. -/
structure SameTypes (r t t' : Registry) : Prop where
  holds_iff : ∀ τ, t.Holds τ ↔ t'.Holds τ
  /-- The types that were there before keep their trees. -/
  keeps : ∀ {ty}, r.Covers ty → t.tree ty = r.tree ty ∧ t'.tree ty = r.tree ty
  /-- Looking for the instantiation of a type finds the same tree, or nothing, in both. -/
  instantiated? : ∀ {ty owner args}, r.Covers ty → (∀ arg ∈ args, r.Covers arg) →
    (t.instantiated? ty owner args).map t.tree = (t'.instantiated? ty owner args).map t'.tree

/-- What looking finds in a registry that has grown, by trees. -/
theorem Interned.map_tree_instantiated?_iff (h : r.Interned) (ht : t.Interned) (hle : r ≤ t)
    (hty : r.Covers ty) (hargs : ∀ arg ∈ args, r.Covers arg) {τ : TypeTree} :
    (t.instantiated? ty owner args).map t.tree = some τ ↔
      τ = (r.tree ty).subst owner (args.map r.tree) ∧ ∀ σ ∈ τ.nodes, t.Holds σ := by
  simp only [Option.map_eq_some_iff, h.instantiated?_eq_some_iff_of_le ht hle hargs hty,
    ← ht.exists_tree_eq_iff]
  constructor
  · rintro ⟨x, ⟨hx, htree⟩, rfl⟩
    exact ⟨htree, x, hx, rfl⟩
  · rintro ⟨rfl, x, hx, htree⟩
    exact ⟨x, ⟨hx, htree⟩, htree⟩

/-- Registries that have grown by the same trees hold the same types. -/
theorem Adds.sameTypes (h : Adds r t τs) (h' : Adds r t' τs') (hr : r.Interned)
    (hsame : ∀ τ, τ ∈ τs ↔ τ ∈ τs') : SameTypes r t t' := by
  have hholds : ∀ τ, t.Holds τ ↔ t'.Holds τ := by
    intro τ
    simp only [h.holds_iff hr, h'.holds_iff hr, hsame]
  refine ⟨hholds, fun hty => ?_, fun {ty owner args} hty hargs => Option.ext fun τ => ?_⟩
  · exact ⟨hr.tree_mono h.interned h.le hty, hr.tree_mono h'.interned h'.le hty⟩
  · rw [hr.map_tree_instantiated?_iff h.interned h.le hty hargs,
      hr.map_tree_instantiated?_iff h'.interned h'.le hty hargs]
    simp only [hholds]

end Interlock.Types.Registry

namespace Interlock.Program.Model

open Interlock.Types Interlock.Types.Registry

variable {m : Model} {r : Registry} {order order' : ClassId → List (String × TypeId) →
  List (String × TypeId)}

/-! ## Orders of fields -/

/-- The model in which the fields of each class stand in another order. -/
def inOrder (m : Model) (order : ClassId → List (String × TypeId) → List (String × TypeId)) :
    Model :=
  { m with classes := m.classes.mapIdx fun c cls => { cls with fields := order c cls.fields } }

/-- An order in which all fields of a class are visited, each once. -/
def Reorders (order : ClassId → List (String × TypeId) → List (String × TypeId)) : Prop :=
  ∀ c fields, (order c fields).Perm fields

theorem class?_inOrder (m : Model) (c : ClassId) :
    (m.inOrder order).class? c =
      (m.class? c).map fun cls => { cls with fields := order c cls.fields } :=
  Array.getElem?_mapIdx

theorem memberTypes_inOrder (horder : Reorders order) (m : Model) (c : ClassId) (cls : Class) :
    (memberTypes (m.inOrder order) { cls with fields := order c cls.fields }).Perm
      (memberTypes m cls) :=
  ((horder c cls.fields).map _).append_right _

/-- The order does not matter to the trees of members. -/
theorem memberTrees_inOrder (horder : Reorders order) (m : Model) (r : Registry) :
    ((m.inOrder order).memberTrees r).Perm (m.memberTrees r) := by
  refine List.Perm.flatMap_left _ fun p _ => ?_
  rw [memberTreesOf, memberTreesOf, class?_inOrder]
  cases m.class? p.1 with
  | none => exact .refl _
  | some cls => exact (memberTypes_inOrder horder m p.1 cls).flatMap_right _

/-- A model before the types of members of generic classes are registered. -/
structure BeforeMembers (m : Model) (r : Registry) : Prop where
  interned : r.Interned
  members : ∀ {c cls}, m.class? c = some cls → ∀ ty ∈ memberTypes m cls, r.Covers ty

theorem BeforeMembers.inOrder (h : m.BeforeMembers r) (horder : Reorders order) :
    (m.inOrder order).BeforeMembers r := by
  refine ⟨h.interned, fun {c cls} hc ty hty => ?_⟩
  rw [class?_inOrder] at hc
  obtain ⟨before, hbefore, rfl⟩ := Option.map_eq_some_iff.mp hc
  exact h.members hbefore ty ((memberTypes_inOrder horder m c before).mem_iff.mp hty)

/-- A round over the instantiations adds the same trees in every order. -/
theorem BeforeMembers.adds (h : m.BeforeMembers r) (horder : Reorders order) :
    Adds r (instantiateMembers (m.inOrder order) r) ((m.inOrder order).memberTrees r) :=
  adds_instantiateMembers h.interned (h.inOrder horder).members

theorem BeforeMembers.sameTypes (h : m.BeforeMembers r) (horder : Reorders order)
    (horder' : Reorders order') :
    SameTypes r (instantiateMembers (m.inOrder order) r)
      (instantiateMembers (m.inOrder order') r) := by
  refine (h.adds horder).sameTypes (h.adds horder') h.interned fun τ => ?_
  rw [(memberTrees_inOrder horder m r).mem_iff, (memberTrees_inOrder horder' m r).mem_iff]

/-- Every model that is made of a program was in this state. -/
theorem exists_beforeMembers {units : List SourceUnit} (h : ofUnits units = .ok m) :
    ∃ written, m.BeforeMembers written ∧ m.registry = instantiateMembers m written := by
  obtain ⟨bare, written, hfinished⟩ := exists_finished h
  exact ⟨written, ⟨hfinished.ready.interned, hfinished.members⟩, hfinished.registry⟩

/-- No two orders of the fields lead to registries that differ in more than identities; and this
covers every program, since its model has passed through such a state. -/
theorem instantiateMembers_orders :
    (∀ (m : Model) r, m.BeforeMembers r → ∀ order order', Reorders order → Reorders order' →
      SameTypes r (instantiateMembers (m.inOrder order) r)
        (instantiateMembers (m.inOrder order') r)) ∧
    ∀ units m, ofUnits units = .ok m →
      ∃ written, m.BeforeMembers written ∧ m.registry = instantiateMembers m written :=
  ⟨fun _ _ h _ _ horder horder' => h.sameTypes horder horder',
    fun _ _ hm => exists_beforeMembers hm⟩

/-- The types of a program with a box of strings, whose class has an array and a list. -/
def boxTypes : Registry :=
  registerAll ⟨#[]⟩ [.declared 0, .param 0 0, .named "List", .primitive .string, .array (.id 1),
    .compound [.id 1, .id 2], .compound [.id 3, .id 0]]

def boxModel : Model where
  classes := #[{
    decl := { name := "Box", typeParams := ["T"],
              fields := [{ type := "T[]", name := "items" }, { type := "List<T>", name := "list" }] }
    qualifiedName := "Box", package := "", outer := none, unit := 0
    fields := [("items", .id 4), ("list", .id 5)], paramTypes := [.id 1], type := .id 0 }]
  registry := boxTypes

theorem beforeMembers_boxModel : boxModel.BeforeMembers boxTypes := by
  have hleaves : (registerAll ⟨#[]⟩ [.declared 0, .param 0 0, .named "List",
      .primitive .string]).Interned := interned_empty.registerAll _ (by simp [TypeKey.parts])
  have hgeneric := hleaves.registerAll [.array (.id 1), .compound [.id 1, .id 2],
    .compound [.id 3, .id 0]] (by decide +kernel)
  refine ⟨hgeneric, fun {c cls} hc ty hty => ?_⟩
  have hknown : ∀ ty ∈ [TypeId.id 4, .id 5], boxTypes.Covers ty := by decide +kernel
  cases c with
  | zero =>
    obtain rfl := Option.some.inj hc
    exact hknown ty hty
  | succ c => cases hc

/-- The array of strings is registered before the list of strings, or after it. -/
theorem boxModel_orders : boxModel.BeforeMembers boxTypes ∧
    (instantiateMembers (boxModel.inOrder fun _ fields => fields) boxTypes).key? (.id 7) =
      some (.array (.id 3)) ∧
    (instantiateMembers (boxModel.inOrder fun _ fields => fields.reverse) boxTypes).key? (.id 8) =
      some (.array (.id 3)) ∧
    SameTypes boxTypes (instantiateMembers (boxModel.inOrder fun _ fields => fields) boxTypes)
      (instantiateMembers (boxModel.inOrder fun _ fields => fields.reverse) boxTypes) := by
  refine ⟨beforeMembers_boxModel, by decide +kernel, by decide +kernel, ?_⟩
  exact instantiateMembers_orders.1 boxModel boxTypes beforeMembers_boxModel _ _
    (fun _ fields => .refl fields) fun _ fields => fields.reverse_perm

end Interlock.Program.Model
