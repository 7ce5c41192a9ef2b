import Interlock.Proofs.Types.History

/-! Types with their parameters replaced. What the substitution that registers gives is the type
tree with all parameters of the class replaced at once, and the substitution that only looks finds
it from then on: the two differ in what they leave behind, never in what they answer. -/

namespace Interlock.Types.Registry

variable {r t : Registry} {ty x : TypeId} {owner : ClassId} {args : List TypeId}

/-! ## Replacing -/

/-- Every leaf of a type is a type of the registry. -/
theorem Interned.exists_of_mem_leaves (h : r.Interned) (hty : r.Covers ty) {σ : TypeTree}
    (hσ : σ ∈ (r.tree ty).leaves) : ∃ leaf, r.Covers leaf ∧ r.tree leaf = σ :=
  exists_tree_eq fun _ hρ => h.holds_of_mem_nodes hty (TypeTree.mem_nodes_of_mem_leaves hσ hρ)

/-- The key of a type parameter, by its tree. -/
theorem Interned.key?_eq_param_iff (h : r.Interned) (hty : r.Covers ty) {c : ClassId} {i : Nat} :
    r.key? ty = some (.param c i) ↔ r.tree ty = .param c i :=
  ⟨fun hkey => h.tree_eq hkey, fun htree => h.key?_of_tree (f := r.tree) hty _ rfl htree⟩

/-- What replacing the type parameters of a class in a type gives. -/
structure Substitutes (r : Registry) (ty : TypeId) (owner : ClassId) (args : List TypeId) :
    Prop where
  covers : (r.instantiate ty owner args).2.Covers (r.instantiate ty owner args).1
  tree : (r.instantiate ty owner args).2.tree (r.instantiate ty owner args).1 =
    (r.tree ty).subst owner (args.map r.tree)
  /-- The types that were there before keep their trees. -/
  keeps : ∀ x, r.Covers x → (r.instantiate ty owner args).2.tree x = r.tree x
  /-- Parameters that stand for themselves are replaced by nothing new. -/
  own : (∀ i arg, args[i]? = some arg → r.key? arg = some (.param owner i)) →
    (∀ i, .param owner i ∈ (r.tree ty).leaves → i < args.length) →
    r.instantiate ty owner args = (ty, r)
  /-- The result is not followed because of a leaf that is kept, or because of an argument. -/
  untracked_iff : (r.instantiate ty owner args).2.isUntracked (r.instantiate ty owner args).1 =
      true ↔
    (∃ leaf, r.Covers leaf ∧ r.tree leaf ∈ (r.tree ty).leaves ∧
      (∀ i, r.key? leaf ≠ some (.param owner i)) ∧ r.isUntracked leaf = true) ∨
    ∃ i, .param owner i ∈ (r.tree ty).leaves ∧
      ∀ arg, args[i]? = some arg → r.isUntracked arg = true

/-- Instantiation is substitution in the type tree, and nothing else. -/
theorem instantiate_substitutes (h : r.Interned) (hty : r.Covers ty)
    (hargs : ∀ arg ∈ args, r.Covers arg) : r.Substitutes ty owner args := by
  have hmake := h.makes_instantiate owner hargs hty
  refine ⟨hmake.covers, hmake.tree, fun x hx => h.tree_mono hmake.interned hmake.le hx,
    fun hown hall => ?_, ?_⟩
  · have hsame : (r.tree ty).subst owner (args.map r.tree) = r.tree ty := by
      refine TypeTree.subst_own fun i hi => ?_
      have harg := List.getElem?_eq_getElem (hall i hi)
      rw [List.getElem?_map, harg, Option.map_some, h.tree_eq (hown i _ harg), TypeKey.treeBy]
    rw [hsame] at hmake
    exact hmake.again h hty
  · rw [hmake.interned.isUntracked_eq hmake.covers, hmake.tree, TypeTree.isUntracked_subst_iff]
    refine or_congr ⟨?_, ?_⟩ (exists_congr fun i => and_congr_right fun _ => ?_)
    · rintro ⟨σ, hσ, hkept, huntracked⟩
      obtain ⟨leaf, hleaf, rfl⟩ := h.exists_of_mem_leaves hty hσ
      exact ⟨leaf, hleaf, hσ, fun i => mt (h.key?_eq_param_iff hleaf).mp (hkept i),
        by rwa [h.isUntracked_eq hleaf]⟩
    · rintro ⟨leaf, hleaf, hσ, hkept, huntracked⟩
      exact ⟨r.tree leaf, hσ, fun i => mt (h.key?_eq_param_iff hleaf).mpr (hkept i),
        by rwa [h.isUntracked_eq hleaf] at huntracked⟩
    · rw [List.getElem?_map]
      cases harg : args[i]? with
      | none => simp
      | some arg =>
        simp [h.isUntracked_eq (hargs arg (List.mem_of_getElem? harg))]

/-- A generic class with two parameters, and the type of its instances. -/
def pair : Registry :=
  registerAll ⟨#[]⟩ [.declared 0, .param 0 0, .param 0 1, .compound [.id 1, .id 2, .id 0]]

theorem interned_pair : pair.Interned := by
  have hleaves : (registerAll ⟨#[]⟩ [.declared 0, .param 0 0, .param 0 1]).Interned :=
    interned_empty.registerAll _ (by simp [TypeKey.parts])
  exact hleaves.registerAll [.compound [.id 1, .id 2, .id 0]] (by decide +kernel)

/-- Both parameters are replaced at once, so they can be exchanged. -/
theorem pair_exchanged : pair.Interned ∧
    (pair.tree (.id 3)).subst 0 ([.id 2, .id 1].map pair.tree) =
      .compound [.param 0 1, .param 0 0, .declared 0] ∧
    pair.Substitutes (.id 3) 0 [.id 2, .id 1] :=
  ⟨interned_pair, by decide +kernel,
    instantiate_substitutes interned_pair (by decide +kernel) (by decide +kernel)⟩

/-! ## Looking -/

theorem mapM_eq_some_mono {f g : TypeId → Option TypeId} (as : List TypeId) {bs : List TypeId}
    (h : ∀ a ∈ as, ∀ b, f a = some b → g a = some b) (hbs : as.mapM f = some bs) :
    as.mapM g = some bs := by
  induction as generalizing bs with
  | nil => exact hbs
  | cons a as ih =>
    rw [List.mapM_cons] at hbs ⊢
    obtain ⟨b, hb, hbs⟩ := Option.bind_eq_some_iff.mp hbs
    obtain ⟨rest, hrest, hbs⟩ := Option.bind_eq_some_iff.mp hbs
    have hlater := ih (fun c hc => h c (List.mem_cons_of_mem _ hc)) hrest
    rw [h a List.mem_cons_self b hb, hlater]
    exact hbs

/-- What was found once is found in every registry that has grown from this one. -/
theorem Interned.instantiatedAt_mono (h : r.Interned) (hle : r ≤ t) (hty : r.Covers ty) :
    ∀ fuel later, ty.Below fuel → fuel ≤ later → ∀ x,
      r.instantiatedAt owner args fuel ty = some x →
        t.instantiatedAt owner args later ty = some x := by
  refine h.induction (P := fun ty => ∀ fuel later, ty.Below fuel → fuel ≤ later → ∀ x,
    r.instantiatedAt owner args fuel ty = some x →
      t.instantiatedAt owner args later ty = some x) ?_ ?_ ?_ hty
  · intro fuel later _ _ x hx
    cases fuel <;> cases later <;> exact hx
  · intro fuel later _ _ x hx
    cases fuel <;> cases later <;> exact hx
  · intro n key hkey hbelow ih fuel later hfuel hlater x hx
    obtain ⟨k, rfl, hk⟩ := exists_succ_of_below hfuel
    obtain ⟨m, rfl, hm⟩ := exists_succ_of_below (hfuel.mono hlater)
    have hstep : ∀ part ∈ key.parts, ∀ x, r.instantiatedAt owner args k part = some x →
        t.instantiatedAt owner args m part = some x := fun part hpart =>
      ih part hpart k m ((hbelow part hpart).mono hk) (Nat.le_of_succ_le_succ hlater)
    rw [instantiatedAt, hkey] at hx
    rw [instantiatedAt, key?_mono hkey hle]
    cases key with
    | compound components =>
      obtain ⟨cs, hcs, hfound⟩ := Option.bind_eq_some_iff.mp hx
      exact Option.bind_eq_some_iff.mpr
        ⟨cs, mapM_eq_some_mono components hstep hcs, find?_mono hfound hle⟩
    | array element =>
      obtain ⟨e, he, hfound⟩ := Option.bind_eq_some_iff.mp hx
      exact Option.bind_eq_some_iff.mpr
        ⟨e, hstep element (by simp [TypeKey.parts]) e he, find?_mono hfound hle⟩
    | _ => exact hx

theorem Interned.instantiated?_mono (h : r.Interned) (hle : r ≤ t) (hty : r.Covers ty)
    (hx : r.instantiated? ty owner args = some x) : t.instantiated? ty owner args = some x :=
  h.instantiatedAt_mono hle hty _ _ (hty.mono (Nat.le_succ _)) (Nat.succ_le_succ (size_le hle)) x hx

/-- The substitution that registers and the one that only looks give the same. -/
structure Agrees (r : Registry) (ty : TypeId) (owner : ClassId) (args : List TypeId) : Prop where
  /-- What is made is found from then on, whatever is asked for in between. -/
  later : ∀ more : List Request,
    (answers more (r.instantiate ty owner args).2).2.instantiated? ty owner args =
      some (r.instantiate ty owner args).1
  /-- What is found is made again, without anything new. -/
  found_iff : ∀ x, r.instantiated? ty owner args = some x ↔ r.instantiate ty owner args = (x, r)

theorem Interned.agrees (h : r.Interned) (hty : r.Covers ty) (hargs : ∀ arg ∈ args, r.Covers arg) :
    r.Agrees ty owner args := by
  have hmake := h.makes_instantiate owner hargs hty
  have hmade : (r.instantiate ty owner args).2.instantiated? ty owner args =
      some (r.instantiate ty owner args).1 :=
    (h.instantiated?_eq_some_iff_of_le hmake.interned hmake.le hargs hty).mpr
      ⟨hmake.covers, hmake.tree⟩
  exact ⟨fun more => hmake.interned.instantiated?_mono (le_answers more _)
      (covers_mono hty hmake.le) hmade,
    fun x => h.instantiated?_eq_some_iff_instantiate hargs hty⟩

/-- After every history of requests, the two substitutions agree on the types that are known. -/
theorem agrees_after {history : List Request} (h : Proper history .initial)
    (hty : (after history).Covers ty) (hargs : ∀ arg ∈ args, (after history).Covers arg) :
    (after history).Agrees ty owner args :=
  (interned_after h).agrees hty hargs

theorem three_lt_length_boxes : 3 < (answers boxes .initial).1.length := by
  rw [answers, length_mapThrough]
  decide

/-- The array of generic boxes. -/
def boxArray : TypeId := (answers boxes .initial).1.get ⟨3, three_lt_length_boxes⟩

theorem boxArray_agrees : Proper boxes .initial ∧ (after boxes).Covers boxArray ∧
    (∀ arg ∈ [primitive .string], (after boxes).Covers arg) ∧
    (after boxes).Agrees boxArray 0 [primitive .string] := by
  have harray : (after boxes).Covers boxArray :=
    covers_answers proper_boxes boxArray (List.get_mem _ _)
  have hstring : ∀ arg ∈ [primitive .string], (after boxes).Covers arg :=
    List.forall_mem_singleton.mpr (knows_primitive (initial_le_after boxes) .string).covers
  exact ⟨proper_boxes, harray, hstring, agrees_after proper_boxes harray hstring⟩

end Interlock.Types.Registry
