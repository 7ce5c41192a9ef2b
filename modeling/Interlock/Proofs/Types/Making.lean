import Interlock.Proofs.Types.Tree

/-! Making types. An operation that registers types is known by the tree of the type that it gives:
the registry then holds what it held before and the nodes of this tree, and nothing else. -/

namespace Interlock.Types

theorem TypeKey.mem_nodes_treeBy (key : TypeKey) (f : TypeId → TypeTree) :
    key.treeBy f ∈ (key.treeBy f).nodes := by
  cases key <;> simp [treeBy, TypeTree.nodes]

/-- Below the root of a tree are the nodes of its parts. -/
theorem TypeKey.mem_nodes_treeBy_iff {key : TypeKey} {f : TypeId → TypeTree} {σ : TypeTree} :
    σ ∈ (key.treeBy f).nodes ↔ σ = key.treeBy f ∨ ∃ part ∈ key.parts, σ ∈ (f part).nodes := by
  cases key with
  | compound components =>
    simp [treeBy, TypeTree.nodes, TypeTree.nodesAll_eq_flatMap, parts, List.flatMap_map]
  | _ => simp [treeBy, TypeTree.nodes, parts]

namespace Registry

variable {r t : Registry} {ty : TypeId} {key : TypeKey} {σ τ : TypeTree}

/-- A type with this tree is registered. -/
def Holds (r : Registry) (τ : TypeTree) : Prop := ∃ n, r.Covers (.id n) ∧ r.tree (.id n) = τ

theorem Interned.holds_mono (h : r.Interned) (ht : t.Interned) (hle : r ≤ t) (hτ : r.Holds τ) :
    t.Holds τ := by
  obtain ⟨n, hn, rfl⟩ := hτ
  exact ⟨n, covers_mono hn hle, h.tree_mono ht hle hn⟩

/-- What is known of a type is known of everything inside it. -/
theorem Interned.holds_of_mem_nodes (h : r.Interned) (hty : r.Covers ty)
    (hσ : σ ∈ (r.tree ty).nodes) : r.Holds σ := by
  refine h.induction (P := fun ty => ∀ σ ∈ (r.tree ty).nodes, r.Holds σ) ?_ ?_ ?_ hty σ hσ
  · intro σ hσ
    simp [TypeTree.nodes] at hσ
  · intro σ hσ
    simp [TypeTree.nodes] at hσ
  · intro n key hkey _ ih σ hσ
    rw [h.tree_eq hkey, TypeKey.mem_nodes_treeBy_iff] at hσ
    rcases hσ with rfl | ⟨part, hpart, hσ⟩
    · exact ⟨n, covers_of_key? hkey, h.tree_eq hkey⟩
    · exact ih part hpart σ hσ

/-- A tree without parts tells the key. -/
theorem Interned.key?_of_tree (h : r.Interned) (hty : r.Covers ty) (key : TypeKey)
    (hparts : key.parts = []) {f : TypeId → TypeTree} (htree : r.tree ty = key.treeBy f) :
    r.key? ty = some key := by
  cases ty with
  | id n =>
    obtain ⟨key', hkey'⟩ := exists_key?_of_covers hty
    rw [h.tree_eq hkey'] at htree
    have hsame : key' = key := by
      refine TypeKey.eq_of_treeBy_eq (f := r.tree) (by simp [hparts]) ?_
      rw [htree]
      exact TypeKey.treeBy_congr (by simp [hparts])
    exact hsame ▸ hkey'
  | unknown => exact absurd ((tree_unknown r).symm.trans htree).symm (key.treeBy_ne_unknown f)
  | unresolved =>
    exact absurd ((tree_unresolved r).symm.trans htree).symm (key.treeBy_ne_unresolved f)

/-- A type without parts is found by its key. -/
theorem Interned.find?_of_holds (h : r.Interned) (key : TypeKey) (hparts : key.parts = [])
    {f : TypeId → TypeTree} (hkey : r.Holds (key.treeBy f)) :
    ∃ ty, r.find? key = some ty ∧ r.Covers ty ∧ r.tree ty = key.treeBy f := by
  obtain ⟨n, hn, htree⟩ := hkey
  exact ⟨.id n, h.find? (h.key?_of_tree hn key hparts htree), hn, htree⟩

/-- A registry that has grown without a new type is the same. -/
theorem Interned.eq_of_le (h : r.Interned) (ht : t.Interned) (hle : r ≤ t)
    (hsame : ∀ σ, t.Holds σ → r.Holds σ) : t = r := by
  have hsize : t.size ≤ r.size := by
    refine Nat.not_lt.mp fun hlt => ?_
    have hnew : t.Covers (.id r.size) := hlt
    obtain ⟨n, hn, htree⟩ := hsame (t.tree (.id r.size)) ⟨r.size, hnew, rfl⟩
    rw [← h.tree_mono ht hle hn] at htree
    cases ht.tree_injective (covers_mono hn hle) hnew htree
    exact Nat.lt_irrefl _ hn
  obtain ⟨later, heq⟩ := hle
  have hlater : later = [] := by
    have hlength := congrArg List.length heq
    simp only [List.length_append, Array.length_toList] at hlength
    have hle' : t.entries.size ≤ r.entries.size := hsize
    exact List.eq_nil_of_length_eq_zero (by omega)
  rw [hlater, List.append_nil] at heq
  obtain ⟨entries⟩ := r
  obtain ⟨entries'⟩ := t
  exact congrArg Registry.mk (Array.toList_inj.mp heq.symm)

/-- A type with the tree `τ`, made of a registry. -/
structure Makes (r : Registry) (made : TypeId × Registry) (τ : TypeTree) : Prop where
  le : r ≤ made.2
  interned : made.2.Interned
  covers : made.2.Covers made.1
  tree : made.2.tree made.1 = τ
  /-- Nothing is registered but what the type needs. -/
  only : ∀ σ, made.2.Holds σ → r.Holds σ ∨ σ ∈ τ.nodes

/-- Types made one after the other. -/
structure MakesAll (r : Registry) (made : List TypeId × Registry) (τs : List TypeTree) : Prop where
  le : r ≤ made.2
  interned : made.2.Interned
  covers : ∀ ty ∈ made.1, made.2.Covers ty
  tree : made.1.map made.2.tree = τs
  only : ∀ σ, made.2.Holds σ → r.Holds σ ∨ ∃ τ ∈ τs, σ ∈ τ.nodes

theorem Makes.same (h : r.Interned) (hty : r.Covers ty) : Makes r (ty, r) (r.tree ty) :=
  ⟨le_refl r, h, hty, rfl, fun _ => .inl⟩

/-- What is made again is found, and nothing changes. -/
theorem Makes.again {made : TypeId × Registry} (hr : r.Interned) (h : Makes r made (r.tree ty))
    (hty : r.Covers ty) : made = (ty, r) := by
  have hsame : made.2 = r := hr.eq_of_le h.interned h.le fun σ hσ =>
    (h.only σ hσ).elim id (hr.holds_of_mem_nodes hty)
  obtain ⟨ty', r'⟩ := made
  obtain rfl : r' = r := hsame
  exact congrArg (·, r') (hr.tree_injective h.covers hty h.tree)

/-- Registering a key makes the tree of the key. -/
theorem Interned.makes_register (h : r.Interned) (key : TypeKey)
    (hparts : ∀ part ∈ key.parts, r.Covers part) :
    Makes r (r.register key) (key.treeBy r.tree) := by
  have hle := le_register r key
  have hinterned := h.register hparts
  have htree : (r.register key).2.tree (r.register key).1 = key.treeBy r.tree := by
    rw [hinterned.tree_eq (key?_register r key)]
    exact TypeKey.treeBy_congr fun part hpart => h.tree_mono hinterned hle (hparts part hpart)
  refine ⟨hle, hinterned, (knows_register r key).covers, htree, ?_⟩
  rintro σ ⟨n, hn, rfl⟩
  cases hfind : r.find? key with
  | some ty =>
    rw [register_of_find? hfind] at hn ⊢
    exact .inl ⟨n, hn, rfl⟩
  | none =>
    rw [register_of_new hfind] at hn htree ⊢
    by_cases hnew : n = r.size
    · right
      rw [hnew, htree]
      exact key.mem_nodes_treeBy r.tree
    · left
      have hlt : n < r.size + 1 := size_push r key ▸ hn
      have hold : r.Covers (.id n) := show n < r.size by omega
      exact ⟨n, hold, (h.tree_mono (h.push hfind hparts) (le_push r key) hold).symm⟩

theorem makesAll_nil (h : r.Interned) : MakesAll r ([], r) [] :=
  ⟨le_refl r, h, by simp, rfl, fun _ => .inl⟩

theorem makesAll_cons {made : TypeId × Registry} {mades : List TypeId × Registry}
    {τs : List TypeTree} (hfirst : Makes r made τ) (hrest : MakesAll made.2 mades τs) :
    MakesAll r (made.1 :: mades.1, mades.2) (τ :: τs) where
  le := le_trans hfirst.le hrest.le
  interned := hrest.interned
  covers := by
    intro ty hty
    rcases List.mem_cons.mp hty with rfl | hty
    · exact covers_mono hfirst.covers hrest.le
    · exact hrest.covers ty hty
  tree := by
    rw [List.map_cons, hrest.tree, hfirst.interned.tree_mono hrest.interned hrest.le hfirst.covers,
      hfirst.tree]
  only := by
    intro σ hσ
    rcases hrest.only σ hσ with hσ | ⟨τ', hτ', hσ⟩
    · exact (hfirst.only σ hσ).imp_right fun hσ => ⟨τ, List.mem_cons_self, hσ⟩
    · exact .inr ⟨τ', List.mem_cons_of_mem _ hτ', hσ⟩

/-- A type that was there before may be put after those that are made. -/
theorem MakesAll.snoc {made : List TypeId × Registry} {τs : List TypeTree}
    (h : MakesAll r made τs) (hr : r.Interned) (hty : r.Covers ty) :
    MakesAll r (made.1 ++ [ty], made.2) (τs ++ [r.tree ty]) where
  le := h.le
  interned := h.interned
  covers := by
    intro ty' hty'
    rcases List.mem_append.mp hty' with hty' | hty'
    · exact h.covers ty' hty'
    · rw [List.mem_singleton.mp hty']
      exact covers_mono hty h.le
  tree := by
    rw [List.map_append, h.tree, List.map_singleton, hr.tree_mono h.interned h.le hty]
  only := by
    intro σ hσ
    exact (h.only σ hσ).imp_right fun ⟨τ, hτ, hσ⟩ => ⟨τ, List.mem_append_left _ hτ, hσ⟩

/-- A loop that makes a type for each element. -/
theorem makesAll_mapThrough {α : Type} {f : α → Registry → TypeId × Registry}
    {g : α → TypeTree} (as : List α) (h : r.Interned)
    (hstep : ∀ a ∈ as, ∀ s, r ≤ s → s.Interned → Makes s (f a s) (g a)) :
    MakesAll r (mapThrough f as r) (as.map g) := by
  induction as generalizing r with
  | nil => exact makesAll_nil h
  | cons a as ih =>
    have hfirst := hstep a List.mem_cons_self r (le_refl r) h
    exact makesAll_cons hfirst (ih hfirst.interned fun b hb s hs =>
      hstep b (List.mem_cons_of_mem _ hb) s (le_trans hfirst.le hs))

/-- A generic type is made of its components. -/
theorem MakesAll.compound {made : List TypeId × Registry} {τs : List TypeTree}
    (h : MakesAll r made τs) : Makes r (made.2.register (.compound made.1)) (.compound τs) := by
  have hmake := h.interned.makes_register (.compound made.1) h.covers
  rw [TypeKey.treeBy, h.tree] at hmake
  refine ⟨le_trans h.le hmake.le, hmake.interned, hmake.covers, hmake.tree, fun σ hσ => ?_⟩
  rcases hmake.only σ hσ with hσ | hσ
  · refine (h.only σ hσ).imp_right fun hσ => ?_
    rw [TypeTree.nodes, TypeTree.nodesAll_eq_flatMap]
    exact List.mem_cons_of_mem _ (List.mem_flatMap.mpr hσ)
  · exact .inr hσ

/-- An array type is made of its element. -/
theorem Makes.array {made : TypeId × Registry} (h : Makes r made τ) :
    Makes r (made.2.register (.array made.1)) (.array τ) := by
  have hmake := h.interned.makes_register (.array made.1)
    (by simpa [TypeKey.parts] using h.covers)
  rw [TypeKey.treeBy, h.tree] at hmake
  refine ⟨le_trans h.le hmake.le, hmake.interned, hmake.covers, hmake.tree, fun σ hσ => ?_⟩
  rcases hmake.only σ hσ with hσ | hσ
  · exact (h.only σ hσ).imp_right (List.mem_cons_of_mem _)
  · exact .inr hσ

/-! ## What is added -/

/-- A registry that has grown by types with the trees `τs`, and by nothing else. -/
structure Adds (r t : Registry) (τs : List TypeTree) : Prop where
  le : r ≤ t
  interned : t.Interned
  only : ∀ σ, t.Holds σ → r.Holds σ ∨ ∃ τ ∈ τs, σ ∈ τ.nodes
  all : ∀ τ ∈ τs, ∀ σ ∈ τ.nodes, t.Holds σ

namespace Adds

variable {s : Registry} {τs υs : List TypeTree}

theorem refl (h : r.Interned) : Adds r r [] := ⟨le_refl r, h, fun _ => .inl, by simp⟩

theorem holds_iff (h : Adds r t τs) (hr : r.Interned) :
    t.Holds σ ↔ r.Holds σ ∨ ∃ τ ∈ τs, σ ∈ τ.nodes := by
  refine ⟨h.only σ, ?_⟩
  rintro (hσ | ⟨τ, hτ, hσ⟩)
  · exact hr.holds_mono h.interned h.le hσ
  · exact h.all τ hτ σ hσ

theorem trans (h : Adds r s τs) (k : Adds s t υs) : Adds r t (τs ++ υs) where
  le := le_trans h.le k.le
  interned := k.interned
  only := by
    intro σ hσ
    rcases k.only σ hσ with hσ | ⟨τ, hτ, hσ⟩
    · exact (h.only σ hσ).imp_right fun ⟨τ, hτ, hσ⟩ => ⟨τ, List.mem_append_left _ hτ, hσ⟩
    · exact .inr ⟨τ, List.mem_append_right _ hτ, hσ⟩
  all := by
    intro τ hτ σ hσ
    rcases List.mem_append.mp hτ with hτ | hτ
    · exact h.interned.holds_mono k.interned k.le (h.all τ hτ σ hσ)
    · exact k.all τ hτ σ hσ

end Adds

theorem Makes.adds {made : TypeId × Registry} (h : Makes r made τ) : Adds r made.2 [τ] where
  le := h.le
  interned := h.interned
  only σ hσ := (h.only σ hσ).imp_right fun hσ => ⟨τ, List.mem_singleton_self τ, hσ⟩
  all := by
    intro υ hυ σ hσ
    rw [List.mem_singleton.mp hυ, ← h.tree] at hσ
    exact h.interned.holds_of_mem_nodes h.covers hσ

/-- What the steps of a loop add, the loop adds. -/
theorem adds_mapThrough {α β : Type} {f : α → Registry → β × Registry} {g : α → List TypeTree}
    (as : List α) (h : r.Interned)
    (hstep : ∀ a ∈ as, ∀ s, r ≤ s → s.Interned → Adds s (f a s).2 (g a)) :
    Adds r (mapThrough f as r).2 (as.flatMap g) := by
  induction as generalizing r with
  | nil => exact .refl h
  | cons a as ih =>
    have hfirst := hstep a List.mem_cons_self r (le_refl r) h
    exact hfirst.trans (ih hfirst.interned fun b hb s hs =>
      hstep b (List.mem_cons_of_mem _ hb) s (le_trans hfirst.le hs))

theorem adds_foldl {α : Type} {f : Registry → α → Registry} {g : α → List TypeTree}
    (as : List α) (h : r.Interned)
    (hstep : ∀ a ∈ as, ∀ s, r ≤ s → s.Interned → Adds s (f s a) (g a)) :
    Adds r (as.foldl f r) (as.flatMap g) := by
  induction as generalizing r with
  | nil => exact .refl h
  | cons a as ih =>
    have hfirst := hstep a List.mem_cons_self r (le_refl r) h
    exact hfirst.trans (ih hfirst.interned fun b hb s hs =>
      hstep b (List.mem_cons_of_mem _ hb) s (le_trans hfirst.le hs))

/-- A tree all of whose nodes are held is the tree of a type. -/
theorem exists_tree_eq (h : ∀ σ ∈ τ.nodes, r.Holds σ) : ∃ x, r.Covers x ∧ r.tree x = τ := by
  have hself : τ ∈ τ.nodes → ∃ x, r.Covers x ∧ r.tree x = τ := by
    intro hτ
    obtain ⟨n, hn, htree⟩ := h τ hτ
    exact ⟨.id n, hn, htree⟩
  cases τ with
  | unknown => exact ⟨.unknown, trivial, tree_unknown r⟩
  | unresolved => exact ⟨.unresolved, trivial, tree_unresolved r⟩
  | _ => exact hself (by simp [TypeTree.nodes])

theorem Interned.exists_tree_eq_iff (h : r.Interned) :
    (∃ x, r.Covers x ∧ r.tree x = τ) ↔ ∀ σ ∈ τ.nodes, r.Holds σ := by
  refine ⟨?_, exists_tree_eq⟩
  rintro ⟨x, hx, rfl⟩ σ hσ
  exact h.holds_of_mem_nodes hx hσ

/-- The types that every analysis starts with, but for the set of objects. -/
theorem adds_withoutObjectSet : Adds ⟨#[]⟩ withoutObjectSet
    (initialKeys.flatMap fun key => [key.treeBy fun _ => .unknown]) := by
  rw [withoutObjectSet, registerAll]
  refine adds_foldl initialKeys interned_empty fun key hkey s _ hs => ?_
  have hparts := parts_of_mem_initialKeys hkey
  have hmake := hs.makes_register key (by simp [hparts])
  rw [TypeKey.treeBy_congr (g := fun _ => .unknown) (by simp [hparts])] at hmake
  exact hmake.adds

theorem root_of_holds_withoutObjectSet (h : withoutObjectSet.Holds σ) :
    (∃ p, σ = .primitive p) ∨ ∃ name, σ = .named name := by
  rcases adds_withoutObjectSet.only σ h with ⟨n, hn, -⟩ | ⟨τ, hτ, hσ⟩
  · exact absurd hn (Nat.not_lt_zero n)
  · obtain ⟨key, hkey, hτ⟩ := List.mem_flatMap.mp hτ
    rw [List.mem_singleton.mp hτ] at hσ
    rcases List.mem_append.mp hkey with hkey | hkey
    · obtain ⟨p, -, rfl⟩ := List.mem_map.mp hkey
      exact .inl ⟨p, List.mem_singleton.mp hσ⟩
    · obtain ⟨name, -, rfl⟩ := List.mem_map.mp hkey
      exact .inr ⟨name, List.mem_singleton.mp hσ⟩

theorem adds_initial : Adds withoutObjectSet initial [objectSetKey.treeBy withoutObjectSet.tree] := by
  rw [initial, registerAll, List.foldl_cons, List.foldl_nil]
  exact (interned_withoutObjectSet.makes_register objectSetKey
    fun part hpart => (knows_parts_objectSetKey hpart).covers).adds

/-- The types that every analysis starts with have no declared class and no array in them. -/
theorem root_of_holds_initial (h : initial.Holds σ) :
    (∃ p, σ = .primitive p) ∨ (∃ name, σ = .named name) ∨ ∃ τs, σ = .compound τs := by
  have hleaf : withoutObjectSet.Holds σ → (∃ p, σ = .primitive p) ∨ (∃ name, σ = .named name) ∨
      ∃ τs, σ = .compound τs :=
    fun hσ => (root_of_holds_withoutObjectSet hσ).imp_right .inl
  rcases adds_initial.only σ h with hσ | ⟨τ, hτ, hσ⟩
  · exact hleaf hσ
  · rw [List.mem_singleton.mp hτ, TypeKey.mem_nodes_treeBy_iff] at hσ
    rcases hσ with hσ | ⟨part, hpart, hσ⟩
    · exact .inr (.inr ⟨_, by rw [hσ, objectSetKey, TypeKey.treeBy]⟩)
    · exact hleaf (interned_withoutObjectSet.holds_of_mem_nodes
        (knows_parts_objectSetKey hpart).covers hσ)

end Registry

end Interlock.Types
