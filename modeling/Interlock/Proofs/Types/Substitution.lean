import Interlock.Proofs.Types.Leaves
import Interlock.Proofs.Types.Making

/-! Substitution of type parameters. On trees it is the replacement of the parameters of one class;
both substitutions of a registry give the type with that tree, the one that registers always and
the one that only looks exactly when the type is there. -/

namespace Interlock.Types

namespace TypeTree

mutual

/-- Replaces the type parameters of `owner`; one without an argument becomes unknown. -/
def subst (owner : ClassId) (args : List TypeTree) : TypeTree → TypeTree
  | primitive p => primitive p
  | named name => named name
  | declared c => declared c
  | compound parts => compound (substAll owner args parts)
  | param cls index => if cls = owner then (args[index]?).getD unknown else param cls index
  | array element => array (element.subst owner args)
  | unknown => unknown
  | unresolved => unresolved

def substAll (owner : ClassId) (args : List TypeTree) : List TypeTree → List TypeTree
  | [] => []
  | t :: ts => t.subst owner args :: substAll owner args ts

end

theorem substAll_eq_map (owner : ClassId) (args ts : List TypeTree) :
    substAll owner args ts = ts.map (subst owner args) := by
  induction ts with
  | nil => rfl
  | cons t ts ih => rw [substAll, List.map_cons, ih]

variable {owner : ClassId} {args : List TypeTree} {σ τ : TypeTree}

/-- A type parameter of a class occurs in the type. -/
def Mentions (τ : TypeTree) (owner : ClassId) : Prop := ∃ index, param owner index ∈ τ.nodes

/-- Type parameters that stand for themselves change nothing. -/
theorem subst_own (h : ∀ i, param owner i ∈ τ.leaves → args[i]? = some (param owner i)) :
    τ.subst owner args = τ := by
  induction τ using partsInduction with
  | step τ ih =>
    have hparts : ∀ ρ ∈ τ.parts, ρ.subst owner args = ρ := fun ρ hρ =>
      ih ρ hρ fun i hi => h i (mem_leaves_of_mem_parts hρ hi)
    cases τ with
    | compound parts =>
      have hsame : parts.map (subst owner args) = parts.map id := List.map_congr_left hparts
      rw [subst, substAll_eq_map, hsame, List.map_id]
    | array element => rw [subst, hparts element (by simp [parts])]
    | param cls index =>
      rw [subst]
      by_cases howner : cls = owner
      · rw [if_pos howner, howner, h index (by simp [leaves, howner]), Option.getD_some]
      · rw [if_neg howner]
    | _ => rfl

theorem subst_eq_self (τ : TypeTree) (h : ∀ index, param owner index ∉ τ.nodes) :
    τ.subst owner args = τ :=
  subst_own fun index hmem => absurd (mem_nodes_of_mem_leaves hmem (by simp [nodes])) (h index)

/-- A leaf is kept, unless it is a parameter of the class. -/
theorem subst_of_parts_eq_nil (hleaf : τ.parts = []) (h : ∀ i, τ ≠ param owner i) :
    τ.subst owner args = τ := by
  cases τ with
  | compound parts =>
    obtain rfl : parts = [] := hleaf
    rfl
  | array element => cases hleaf
  | param cls index => rw [subst, if_neg fun howner => h index (by rw [howner])]
  | _ => rfl

theorem subst_param (owner : ClassId) (args : List TypeTree) (i : Nat) :
    (param owner i).subst owner args = (args[i]?).getD unknown := by
  rw [subst, if_pos rfl]

/-- Leaf by leaf, the leaves of a substitution are what is put in the place of each. -/
theorem leaves_subst (τ : TypeTree) :
    (τ.subst owner args).leaves = τ.leaves.flatMap fun σ => (σ.subst owner args).leaves := by
  induction τ using partsInduction with
  | step τ ih =>
    cases τ with
    | compound parts =>
      have hparts : parts.map (fun ρ => (ρ.subst owner args).leaves) =
          parts.map fun ρ => ρ.leaves.flatMap fun σ => (σ.subst owner args).leaves :=
        List.map_congr_left ih
      rw [subst, substAll_eq_map, leaves, leaves, leavesAll_eq_flatMap, leavesAll_eq_flatMap,
        List.flatMap_map, List.flatMap_assoc, List.flatMap_def, List.flatMap_def, hparts]
    | array element =>
      rw [subst, leaves, leaves]
      exact ih element (by simp [parts])
    | _ => simp [leaves]

/-- A substitution is not followed exactly if a leaf that it keeps is not, or a parameter that it
replaces has no argument or one that is not. -/
theorem isUntracked_subst_iff : (τ.subst owner args).isUntracked = true ↔
    (∃ σ ∈ τ.leaves, (∀ i, σ ≠ param owner i) ∧ σ.isUntracked = true) ∨
      ∃ i, param owner i ∈ τ.leaves ∧ ∀ arg, args[i]? = some arg → arg.isUntracked = true := by
  have hparam : ∀ i, ((param owner i).subst owner args).isUntracked = true ↔
      ∀ arg, args[i]? = some arg → arg.isUntracked = true := by
    intro i
    rw [subst_param]
    cases args[i]? with
    | some arg => simp
    | none => simp [isUntracked]
  have hleaves : (τ.subst owner args).isUntracked = true ↔
      ∃ σ ∈ τ.leaves, (σ.subst owner args).isUntracked = true := by
    simp only [isUntracked_iff (τ := τ.subst owner args), leaves_subst τ, List.mem_flatMap]
    constructor
    · rintro ⟨ρ, ⟨σ, hσ, hρ⟩, h⟩
      exact ⟨σ, hσ, isUntracked_iff.mpr ⟨ρ, hρ, h⟩⟩
    · rintro ⟨σ, hσ, h⟩
      obtain ⟨ρ, hρ, h⟩ := isUntracked_iff.mp h
      exact ⟨ρ, ⟨σ, hσ, hρ⟩, h⟩
  rw [hleaves]
  constructor
  · rintro ⟨σ, hσ, h⟩
    by_cases hown : ∃ i, σ = param owner i
    · obtain ⟨i, rfl⟩ := hown
      exact .inr ⟨i, hσ, (hparam i).mp h⟩
    · have hkept : ∀ i, σ ≠ param owner i := fun i hi => hown ⟨i, hi⟩
      rw [subst_of_parts_eq_nil (parts_of_mem_leaves hσ) hkept] at h
      exact .inl ⟨σ, hσ, hkept, h⟩
  · rintro (⟨σ, hσ, hkept, h⟩ | ⟨i, hi, h⟩)
    · exact ⟨σ, hσ, by rwa [subst_of_parts_eq_nil (parts_of_mem_leaves hσ) hkept]⟩
    · exact ⟨param owner i, hi, (hparam i).mpr h⟩

/-- What a substitution contains comes from the type or from an argument. -/
theorem mem_nodes_subst (τ : TypeTree) (hσ : σ ∈ (τ.subst owner args).nodes) :
    (∃ ρ ∈ τ.nodes, σ = ρ.subst owner args) ∨ ∃ arg ∈ args, σ ∈ arg.nodes := by
  induction τ using partsInduction with
  | step τ ih =>
    have hparts : ∀ ρ ∈ τ.parts, σ ∈ (ρ.subst owner args).nodes →
        (∃ ρ ∈ τ.nodes, σ = ρ.subst owner args) ∨ ∃ arg ∈ args, σ ∈ arg.nodes := fun ρ hρ h =>
      (ih ρ hρ h).imp_left fun ⟨υ, hυ, heq⟩ => ⟨υ, mem_nodes_of_mem_parts hρ hυ, heq⟩
    cases τ with
    | compound parts =>
      rw [subst, nodes, List.mem_cons] at hσ
      rcases hσ with rfl | hσ
      · exact .inl ⟨compound parts, by simp [nodes], by rw [subst]⟩
      · rw [nodesAll_eq_flatMap, substAll_eq_map, List.flatMap_map] at hσ
        obtain ⟨ρ, hρ, hσ⟩ := List.mem_flatMap.mp hσ
        exact hparts ρ hρ hσ
    | array element =>
      rw [subst, nodes, List.mem_cons] at hσ
      rcases hσ with rfl | hσ
      · exact .inl ⟨array element, by simp [nodes], by rw [subst]⟩
      · exact hparts element (by simp [parts]) hσ
    | param cls index =>
      by_cases howner : cls = owner
      · rw [howner, subst_param] at hσ
        cases harg : args[index]? with
        | some arg => exact .inr ⟨arg, List.mem_of_getElem? harg, by simpa [harg] using hσ⟩
        | none => simp [harg, nodes] at hσ
      · rw [subst, if_neg howner, nodes, List.mem_singleton] at hσ
        exact .inl ⟨param cls index, by simp [nodes], by rw [subst, if_neg howner, hσ]⟩
    | primitive p => exact .inl ⟨σ, hσ, by simp_all [subst, nodes]⟩
    | named name => exact .inl ⟨σ, hσ, by simp_all [subst, nodes]⟩
    | declared c => exact .inl ⟨σ, hσ, by simp_all [subst, nodes]⟩
    | unknown => simp [subst, nodes] at hσ
    | unresolved => simp [subst, nodes] at hσ

/-- A compound type comes from one, or it is an argument. -/
theorem subst_eq_compound {σs : List TypeTree} (h : τ.subst owner args = compound σs) :
    (∃ parts, τ = compound parts ∧ parts.map (subst owner args) = σs) ∨ compound σs ∈ args := by
  cases τ with
  | compound parts =>
    rw [subst, substAll_eq_map, compound.injEq] at h
    exact .inl ⟨parts, rfl, h⟩
  | param cls index =>
    rw [subst] at h
    by_cases howner : cls = owner
    · rw [if_pos howner] at h
      cases harg : args[index]? with
      | some arg =>
        rw [harg, Option.getD_some] at h
        exact .inr (h ▸ List.mem_of_getElem? harg)
      | none => simp [harg] at h
    · rw [if_neg howner] at h
      cases h
  | _ => cases h

theorem subst_eq_declared {d : ClassId} (h : τ.subst owner args = declared d) :
    τ = declared d ∨ ∃ index, τ = param owner index := by
  cases τ with
  | declared c => exact .inl h
  | param cls index =>
    rw [subst] at h
    by_cases howner : cls = owner
    · exact .inr ⟨index, by rw [howner]⟩
    · rw [if_neg howner] at h
      cases h
  | _ => cases h

end TypeTree

namespace Registry

variable {r t : Registry} {ty x : TypeId} {owner : ClassId} {args : List TypeId}

/-! ## Substitution that registers -/

theorem Interned.makes_instantiateAt (h : r.Interned) (hargs : ∀ arg ∈ args, r.Covers arg)
    (hty : r.Covers ty) : ∀ s, r ≤ s → s.Interned → ∀ fuel, ty.Below fuel →
      Makes s (instantiateAt owner args fuel ty s)
        ((r.tree ty).subst owner (args.map r.tree)) := by
  refine h.induction (P := fun ty => ∀ s, r ≤ s → s.Interned → ∀ fuel, ty.Below fuel →
    Makes s (instantiateAt owner args fuel ty s) ((r.tree ty).subst owner (args.map r.tree)))
    ?_ ?_ ?_ hty
  · intro s _ hs fuel _
    have hsame : instantiateAt owner args fuel .unknown s = (.unknown, s) := by
      cases fuel <;> rfl
    rw [hsame, tree_unknown, TypeTree.subst, ← tree_unknown s]
    exact .same hs trivial
  · intro s _ hs fuel _
    have hsame : instantiateAt owner args fuel .unresolved s = (.unresolved, s) := by
      cases fuel <;> rfl
    rw [hsame, tree_unresolved, TypeTree.subst, ← tree_unresolved s]
    exact .same hs trivial
  · intro n key hkey hbelow ih s hle hs fuel hfuel
    obtain ⟨k, rfl, hk⟩ := exists_succ_of_below hfuel
    have hstep : ∀ part ∈ key.parts, ∀ t, s ≤ t → t.Interned →
        Makes t (instantiateAt owner args k part t)
          ((r.tree part).subst owner (args.map r.tree)) := fun part hpart t ht hti =>
      ih part hpart t (le_trans hle ht) hti k ((hbelow part hpart).mono hk)
    have hkeep : ∀ {ty}, r.Covers ty → Makes s (ty, s) (r.tree ty) := fun {ty} hty =>
      h.tree_mono hs hle hty ▸ .same hs (covers_mono hty hle)
    have hown := hkeep (covers_of_key? hkey)
    rw [h.tree_eq hkey] at hown ⊢
    rw [instantiateAt, key?_mono hkey hle]
    cases key with
    | compound components =>
      have hall := makesAll_mapThrough components hs hstep
      rw [TypeKey.treeBy, TypeTree.subst, TypeTree.substAll_eq_map, List.map_map]
      exact hall.compound
    | array element =>
      rw [TypeKey.treeBy, TypeTree.subst]
      exact (hstep element (by simp [TypeKey.parts]) s (le_refl s) hs).array
    | param cls index =>
      rw [TypeKey.treeBy, TypeTree.subst]
      by_cases howner : cls = owner
      · simp only [howner, if_true, List.getElem?_map]
        cases harg : args[index]? with
        | some arg => exact hkeep (hargs arg (List.mem_of_getElem? harg))
        | none => exact tree_unknown r ▸ hkeep trivial
      · simpa only [howner, if_false, TypeKey.treeBy] using hown
    | _ => exact hown

/-- Replacing type parameters gives the tree in which they are replaced. -/
theorem Interned.makes_instantiate (h : r.Interned) (owner : ClassId) {args : List TypeId}
    (hargs : ∀ arg ∈ args, r.Covers arg)
    (hty : r.Covers ty) :
    Makes r (r.instantiate ty owner args) ((r.tree ty).subst owner (args.map r.tree)) :=
  h.makes_instantiateAt hargs hty r (le_refl r) h _ (hty.mono (Nat.le_succ _))

/-! ## Substitution that only looks -/

theorem Interned.key?_of_tree_compound (h : r.Interned) (hx : r.Covers x) {τs : List TypeTree}
    (htree : r.tree x = .compound τs) :
    ∃ cs, r.key? x = some (.compound cs) ∧ cs.map r.tree = τs := by
  cases x with
  | id n =>
    obtain ⟨key, hkey⟩ := exists_key?_of_covers hx
    rw [h.tree_eq hkey] at htree
    cases key with
    | compound cs => exact ⟨cs, hkey, TypeTree.compound.inj htree⟩
    | _ => cases htree
  | unknown => simp at htree
  | unresolved => simp at htree

theorem Interned.key?_of_tree_array (h : r.Interned) (hx : r.Covers x) {τ : TypeTree}
    (htree : r.tree x = .array τ) : ∃ e, r.key? x = some (.array e) ∧ r.tree e = τ := by
  cases x with
  | id n =>
    obtain ⟨key, hkey⟩ := exists_key?_of_covers hx
    rw [h.tree_eq hkey] at htree
    cases key with
    | array e => exact ⟨e, hkey, TypeTree.array.inj htree⟩
    | _ => cases htree
  | unknown => simp at htree
  | unresolved => simp at htree

theorem Interned.find?_eq_some_iff (h : r.Interned) {key : TypeKey} :
    r.find? key = some x ↔ r.key? x = some key := by
  refine ⟨key?_of_find?, fun hkey => ?_⟩
  cases x with
  | id n => exact h.find? hkey
  | unknown => simp [key?] at hkey
  | unresolved => simp [key?] at hkey

/-- What is looked up for each component, by trees. -/
theorem mapM_eq_some_iff {f : TypeId → Option TypeId} {g : TypeId → TypeTree}
    (as bs : List TypeId) (h : ∀ a ∈ as, ∀ b, f a = some b ↔ r.Covers b ∧ r.tree b = g a) :
    as.mapM f = some bs ↔ (∀ b ∈ bs, r.Covers b) ∧ bs.map r.tree = as.map g := by
  induction as generalizing bs with
  | nil => cases bs <;> simp
  | cons a as ih =>
    have hrest : ∀ {bs}, as.mapM f = some bs ↔
        (∀ b ∈ bs, r.Covers b) ∧ bs.map r.tree = as.map g :=
      ih _ fun c hc => h c (List.mem_cons_of_mem _ hc)
    have hfirst := h a List.mem_cons_self
    rw [List.mapM_cons]
    constructor
    · intro hmap
      obtain ⟨b, hb, hmap⟩ := Option.bind_eq_some_iff.mp hmap
      obtain ⟨rest, hr, hmap⟩ := Option.bind_eq_some_iff.mp hmap
      cases hmap
      obtain ⟨hcovers, htrees⟩ := hrest.mp hr
      obtain ⟨hb, htree⟩ := (hfirst b).mp hb
      exact ⟨List.forall_mem_cons.mpr ⟨hb, hcovers⟩, by rw [List.map_cons, htree, htrees]; rfl⟩
    · rintro ⟨hcovers, htrees⟩
      cases bs with
      | nil => simp at htrees
      | cons b bs =>
        obtain ⟨hb, hcovers⟩ := List.forall_mem_cons.mp hcovers
        rw [List.map_cons, List.map_cons, List.cons.injEq] at htrees
        simp [(hfirst b).mpr ⟨hb, htrees.1⟩, hrest.mpr ⟨hcovers, htrees.2⟩]

theorem Interned.instantiatedAt_eq_some_iff (h : r.Interned)
    (hargs : ∀ arg ∈ args, r.Covers arg) (hty : r.Covers ty) :
    ∀ fuel, ty.Below fuel → ∀ x, r.instantiatedAt owner args fuel ty = some x ↔
      r.Covers x ∧ r.tree x = (r.tree ty).subst owner (args.map r.tree) := by
  have hsame : ∀ {a x : TypeId}, r.Covers a →
      (some a = some x ↔ r.Covers x ∧ r.tree x = r.tree a) := by
    intro a x ha
    constructor
    · rintro ⟨⟩
      exact ⟨ha, rfl⟩
    · rintro ⟨hx, htree⟩
      rw [h.tree_injective hx ha htree]
  refine h.induction (P := fun ty => ∀ fuel, ty.Below fuel → ∀ x,
    r.instantiatedAt owner args fuel ty = some x ↔
      r.Covers x ∧ r.tree x = (r.tree ty).subst owner (args.map r.tree)) ?_ ?_ ?_ hty
  · intro fuel _ x
    have hlook : r.instantiatedAt owner args fuel .unknown = some .unknown := by
      cases fuel <;> rfl
    rw [hlook, tree_unknown, TypeTree.subst, ← tree_unknown r]
    exact hsame trivial
  · intro fuel _ x
    have hlook : r.instantiatedAt owner args fuel .unresolved = some .unresolved := by
      cases fuel <;> rfl
    rw [hlook, tree_unresolved, TypeTree.subst, ← tree_unresolved r]
    exact hsame trivial
  · intro n key hkey hbelow ih fuel hfuel x
    obtain ⟨k, rfl, hk⟩ := exists_succ_of_below hfuel
    have hstep : ∀ part ∈ key.parts, ∀ x, r.instantiatedAt owner args k part = some x ↔
        r.Covers x ∧ r.tree x = (r.tree part).subst owner (args.map r.tree) :=
      fun part hpart => ih part hpart k ((hbelow part hpart).mono hk)
    have hown := hsame (x := x) (covers_of_key? hkey)
    rw [h.tree_eq hkey] at hown ⊢
    rw [instantiatedAt, hkey]
    cases key with
    | compound components =>
      have hall := fun cs => mapM_eq_some_iff components cs hstep
      simp only [TypeKey.treeBy, TypeTree.subst, TypeTree.substAll_eq_map, List.map_map,
        Option.bind_eq_some_iff, hall, h.find?_eq_some_iff]
      constructor
      · rintro ⟨cs, ⟨-, htrees⟩, hx⟩
        refine ⟨covers_of_key? hx, ?_⟩
        rw [h.tree_eq hx, TypeKey.treeBy, htrees]
        rfl
      · rintro ⟨hx, htree⟩
        obtain ⟨cs, hcs, htrees⟩ := h.key?_of_tree_compound hx htree
        exact ⟨cs, ⟨h.covers_parts hcs, htrees⟩, hcs⟩
    | array element =>
      simp only [TypeKey.treeBy, TypeTree.subst, Option.bind_eq_some_iff,
        hstep element (by simp [TypeKey.parts]), h.find?_eq_some_iff]
      constructor
      · rintro ⟨e, ⟨-, htree⟩, hx⟩
        refine ⟨covers_of_key? hx, ?_⟩
        rw [h.tree_eq hx, TypeKey.treeBy, htree]
      · rintro ⟨hx, htree⟩
        obtain ⟨e, he, htree⟩ := h.key?_of_tree_array hx htree
        exact ⟨e, ⟨h.covers_parts he e (by simp [TypeKey.parts]), htree⟩, he⟩
    | param cls index =>
      rw [TypeKey.treeBy, TypeTree.subst]
      by_cases howner : cls = owner
      · simp only [howner, if_true, List.getElem?_map]
        cases harg : args[index]? with
        | some arg => exact hsame (hargs arg (List.mem_of_getElem? harg))
        | none => exact tree_unknown r ▸ hsame trivial
      · simpa only [howner, if_false, TypeKey.treeBy] using hown
    | _ => exact hown

/-- Looking finds the type whose tree has the type parameters replaced, if there is one. -/
theorem Interned.instantiated?_eq_some_iff (h : r.Interned) (hargs : ∀ arg ∈ args, r.Covers arg)
    (hty : r.Covers ty) : r.instantiated? ty owner args = some x ↔
      r.Covers x ∧ r.tree x = (r.tree ty).subst owner (args.map r.tree) :=
  h.instantiatedAt_eq_some_iff hargs hty _ (hty.mono (Nat.le_succ _)) x

/-- In a registry that has grown, looking goes by the trees that were there before. -/
theorem Interned.instantiated?_eq_some_iff_of_le (h : r.Interned) (ht : t.Interned) (hle : r ≤ t)
    (hargs : ∀ arg ∈ args, r.Covers arg) (hty : r.Covers ty) :
    t.instantiated? ty owner args = some x ↔
      t.Covers x ∧ t.tree x = (r.tree ty).subst owner (args.map r.tree) := by
  have hkept : args.map t.tree = args.map r.tree :=
    List.map_congr_left fun arg harg => h.tree_mono ht hle (hargs arg harg)
  rw [ht.instantiated?_eq_some_iff (fun arg harg => covers_mono (hargs arg harg) hle)
    (covers_mono hty hle), hkept, h.tree_mono ht hle hty]

/-- Looking finds what registering gives without anything new. -/
theorem Interned.instantiated?_eq_some_iff_instantiate (h : r.Interned)
    (hargs : ∀ arg ∈ args, r.Covers arg) (hty : r.Covers ty) :
    r.instantiated? ty owner args = some x ↔ r.instantiate ty owner args = (x, r) := by
  have hmake := h.makes_instantiate owner hargs hty
  rw [h.instantiated?_eq_some_iff hargs hty]
  constructor
  · rintro ⟨hcovers, htree⟩
    rw [← htree] at hmake
    exact hmake.again h hcovers
  · intro hx
    rw [hx] at hmake
    exact ⟨hmake.covers, hmake.tree⟩

theorem Interned.isSome_instantiated?_iff (h : r.Interned) (hargs : ∀ arg ∈ args, r.Covers arg)
    (hty : r.Covers ty) :
    (r.instantiated? ty owner args).isSome ↔ (r.instantiate ty owner args).2 = r := by
  simp only [Option.isSome_iff_exists, h.instantiated?_eq_some_iff_instantiate hargs hty]
  constructor
  · rintro ⟨x, hx⟩
    rw [hx]
  · intro hsame
    exact ⟨(r.instantiate ty owner args).1, Prod.ext rfl hsame⟩

end Registry

end Interlock.Types
