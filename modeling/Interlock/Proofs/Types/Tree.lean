import Interlock.Proofs.Types.Interning

/-! Type trees. An identity stands for the tree that unfolding its key gives, and the registry is a
store in which every tree is kept once: two types are the same exactly when their trees are equal,
and a tree never changes. Whatever a registry says about a type it says about the tree. -/

namespace Interlock.Types

/-- A type written out in full. -/
inductive TypeTree where
  | primitive (p : Primitive)
  | named (name : String)
  | declared (c : ClassId)
  | compound (parts : List TypeTree)
  | param (owner : ClassId) (index : Nat)
  | array (element : TypeTree)
  | unknown
  | unresolved

namespace TypeTree

mutual

/-- The type is not followed, by its own name or by a part. -/
def isUntracked : TypeTree → Bool
  | unknown => true
  | named name => untrackedNames.contains name
  | compound parts => anyUntracked parts
  | array element => element.isUntracked
  | _ => false

def anyUntracked : List TypeTree → Bool
  | [] => false
  | t :: ts => t.isUntracked || anyUntracked ts

end

mutual

/-- What the type is known to do. -/
def kind : TypeTree → TypeKind
  | primitive .lock => .lock
  | primitive .script => .script
  | primitive .string => .string
  | named name => if builtinNames.contains name then kindNamed name else .none
  | compound parts => lastKind parts
  | _ => .none

def lastKind : List TypeTree → TypeKind
  | [] => .none
  | t :: ts => if ts.isEmpty then t.kind else lastKind ts

end

mutual

def describe (className : ClassId → String) : TypeTree → String
  | primitive p => p.name
  | named name => name
  | declared c => className c
  | compound parts =>
    let texts := describeAll className parts
    (texts.getLast?).getD TypeId.unknown.label ++ "<" ++ ", ".intercalate texts.dropLast ++ ">"
  | param c index => className c ++ "#T" ++ toString index
  | array element => element.describe className ++ "[]"
  | unknown => TypeId.unknown.label
  | unresolved => TypeId.unresolved.label

def describeAll (className : ClassId → String) : List TypeTree → List String
  | [] => []
  | t :: ts => t.describe className :: describeAll className ts

end

mutual

/-- All that a registry needs to hold the type: it and its parts at any depth. -/
def nodes : TypeTree → List TypeTree
  | primitive p => [primitive p]
  | named name => [named name]
  | declared c => [declared c]
  | compound parts => compound parts :: nodesAll parts
  | param owner index => [param owner index]
  | array element => array element :: element.nodes
  | unknown => []
  | unresolved => []

def nodesAll : List TypeTree → List TypeTree
  | [] => []
  | t :: ts => t.nodes ++ nodesAll ts

end

mutual

/-- Two types are written out in the same way. -/
def same : TypeTree → TypeTree → Bool
  | primitive p, primitive q => p == q
  | named name, named name' => name == name'
  | declared c, declared d => c == d
  | compound parts, compound parts' => sameAll parts parts'
  | param c i, param d j => c == d && i == j
  | array element, array element' => element.same element'
  | unknown, unknown => true
  | unresolved, unresolved => true
  | _, _ => false

def sameAll : List TypeTree → List TypeTree → Bool
  | [], [] => true
  | t :: ts, u :: us => t.same u && sameAll ts us
  | _, _ => false

end

mutual

theorem same_iff (t u : TypeTree) : t.same u = true ↔ t = u := by
  cases t with
  | compound parts => cases u <;> simp [same, sameAll_iff parts]
  | array element => cases u <;> simp [same, same_iff element]
  | _ => cases u <;> simp [same]

theorem sameAll_iff (ts us : List TypeTree) : sameAll ts us = true ↔ ts = us := by
  cases ts with
  | nil => cases us <;> simp [sameAll]
  | cons t ts => cases us <;> simp [sameAll, same_iff t, sameAll_iff ts]

end

instance : DecidableEq TypeTree := fun t u => decidable_of_iff _ (same_iff t u)

theorem anyUntracked_eq_any (ts : List TypeTree) : anyUntracked ts = ts.any isUntracked := by
  induction ts with
  | nil => rfl
  | cons t ts ih => rw [anyUntracked, List.any_cons, ih]

theorem lastKind_eq (ts : List TypeTree) :
    lastKind ts = (ts.getLast?.map kind).getD .none := by
  induction ts with
  | nil => rfl
  | cons t ts ih =>
    rw [lastKind, ih]
    cases ts with
    | nil => rfl
    | cons u ts => simp

theorem describeAll_eq_map (className : ClassId → String) (ts : List TypeTree) :
    describeAll className ts = ts.map (describe className) := by
  induction ts with
  | nil => rfl
  | cons t ts ih => rw [describeAll, List.map_cons, ih]

theorem nodesAll_eq_flatMap (ts : List TypeTree) : nodesAll ts = ts.flatMap nodes := by
  induction ts with
  | nil => rfl
  | cons t ts ih => rw [nodesAll, List.flatMap_cons, ih]

end TypeTree

/-- The tree of a key, by the trees of the types that it mentions. -/
def TypeKey.treeBy (f : TypeId → TypeTree) : TypeKey → TypeTree
  | .primitive p => .primitive p
  | .named name => .named name
  | .declared c => .declared c
  | .compound components => .compound (components.map f)
  | .param owner index => .param owner index
  | .array element => .array (f element)

theorem TypeKey.treeBy_congr {key : TypeKey} {f g : TypeId → TypeTree}
    (h : ∀ part ∈ key.parts, f part = g part) : key.treeBy f = key.treeBy g := by
  cases key with
  | compound components => exact congrArg TypeTree.compound (List.map_inj_left.mpr h)
  | array element => exact congrArg TypeTree.array (h element (by simp [parts]))
  | _ => rfl

/-- Keys are told apart by their trees if their parts are. -/
theorem TypeKey.eq_of_treeBy_eq {key key' : TypeKey} {f : TypeId → TypeTree}
    (h : ∀ part ∈ key.parts, ∀ part' ∈ key'.parts, f part = f part' → part = part')
    (heq : key.treeBy f = key'.treeBy f) : key = key' := by
  have hlists : ∀ {as bs : List TypeId}, (∀ a ∈ as, ∀ b ∈ bs, f a = f b → a = b) →
      as.map f = bs.map f → as = bs := by
    intro as
    induction as with
    | nil =>
      intro bs _ hmap
      exact (List.map_eq_nil_iff.mp hmap.symm).symm
    | cons a as ih =>
      intro bs hinj hmap
      cases bs with
      | nil => simp at hmap
      | cons b bs =>
        rw [List.map_cons, List.map_cons, List.cons.injEq] at hmap
        rw [hinj a List.mem_cons_self b List.mem_cons_self hmap.1,
          ih (fun x hx y hy => hinj x (List.mem_cons_of_mem _ hx) y (List.mem_cons_of_mem _ hy))
            hmap.2]
  cases key with
  | compound components =>
    cases key' with
    | compound components' =>
      rw [treeBy, treeBy, TypeTree.compound.injEq] at heq
      exact congrArg TypeKey.compound (hlists h heq)
    | _ => cases heq
  | array element =>
    cases key' with
    | array element' =>
      rw [treeBy, treeBy, TypeTree.array.injEq] at heq
      rw [h element (by simp [parts]) element' (by simp [parts]) heq]
    | _ => cases heq
  | _ =>
    cases key' <;> cases heq
    all_goals rfl

theorem TypeKey.treeBy_ne_unknown (key : TypeKey) (f : TypeId → TypeTree) :
    key.treeBy f ≠ .unknown := by
  cases key <;> intro h <;> cases h

theorem TypeKey.treeBy_ne_unresolved (key : TypeKey) (f : TypeId → TypeTree) :
    key.treeBy f ≠ .unresolved := by
  cases key <;> intro h <;> cases h

namespace Registry

variable {r t : Registry} {ty a b : TypeId} {key : TypeKey}

/-- The tree of a type. A key mentions earlier types only, so `size` bounds the depth. -/
def treeAt (r : Registry) : Nat → TypeId → TypeTree
  | _, .unknown => .unknown
  | _, .unresolved => .unresolved
  | 0, .id _ => .unresolved
  | fuel + 1, .id n =>
    match r.key? (.id n) with
    | some key => key.treeBy (r.treeAt fuel)
    | none => .unresolved

def tree (r : Registry) (ty : TypeId) : TypeTree := r.treeAt r.size ty

theorem treeAt_unknown (r : Registry) (fuel : Nat) : r.treeAt fuel .unknown = .unknown := by
  cases fuel <;> rfl

theorem treeAt_unresolved (r : Registry) (fuel : Nat) :
    r.treeAt fuel .unresolved = .unresolved := by
  cases fuel <;> rfl

@[simp] theorem tree_unknown (r : Registry) : r.tree .unknown = .unknown := treeAt_unknown r _

@[simp] theorem tree_unresolved (r : Registry) : r.tree .unresolved = .unresolved :=
  treeAt_unresolved r _

/-- A registered type is never reached without fuel. -/
theorem exists_succ_of_below {n fuel : Nat} (h : (TypeId.id n).Below fuel) :
    ∃ k, fuel = k + 1 ∧ n ≤ k := by
  have hlt : n < fuel := h
  exact ⟨fuel - 1, by omega, by omega⟩

theorem treeAt_eq_treeAt (h : r.Interned) (hty : r.Covers ty) :
    ∀ fuel fuel', ty.Below fuel → ty.Below fuel' → r.treeAt fuel ty = r.treeAt fuel' ty := by
  refine h.induction (P := fun ty => ∀ fuel fuel', ty.Below fuel → ty.Below fuel' →
    r.treeAt fuel ty = r.treeAt fuel' ty) ?_ ?_ ?_ hty
  · intro fuel fuel' _ _
    rw [treeAt_unknown, treeAt_unknown]
  · intro fuel fuel' _ _
    rw [treeAt_unresolved, treeAt_unresolved]
  · intro n key hkey hbelow ih fuel fuel' hfuel hfuel'
    obtain ⟨k, rfl, hk⟩ := exists_succ_of_below hfuel
    obtain ⟨k', rfl, hk'⟩ := exists_succ_of_below hfuel'
    rw [treeAt, treeAt, hkey]
    refine TypeKey.treeBy_congr fun part hpart => ?_
    exact ih part hpart k k' ((hbelow part hpart).mono hk) ((hbelow part hpart).mono hk')

/-- Unfolding a type is unfolding what its key mentions. -/
theorem Interned.tree_eq (h : r.Interned) (hkey : r.key? ty = some key) :
    r.tree ty = key.treeBy r.tree := by
  cases ty with
  | id n =>
    have hcovers := covers_of_key? hkey
    rw [tree, treeAt_eq_treeAt h hcovers r.size (r.size + 1) hcovers
      (hcovers.mono (Nat.le_succ _)), treeAt, hkey]
    rfl
  | unknown => simp [key?] at hkey
  | unresolved => simp [key?] at hkey

/-- A type keeps its tree while the registry grows. -/
theorem Interned.tree_mono (h : r.Interned) (ht : t.Interned) (hle : r ≤ t)
    (hty : r.Covers ty) : t.tree ty = r.tree ty := by
  refine h.induction (P := fun ty => t.tree ty = r.tree ty) ?_ ?_ ?_ hty
  · rw [tree_unknown, tree_unknown]
  · rw [tree_unresolved, tree_unresolved]
  · intro n key hkey _ ih
    rw [h.tree_eq hkey, ht.tree_eq (key?_mono hkey hle)]
    exact TypeKey.treeBy_congr ih

theorem Interned.tree_id_ne (h : r.Interned) {n : Nat} (hn : r.Covers (.id n)) :
    r.tree (.id n) ≠ .unknown ∧ r.tree (.id n) ≠ .unresolved := by
  obtain ⟨key, hkey⟩ := exists_key?_of_covers hn
  rw [h.tree_eq hkey]
  exact ⟨key.treeBy_ne_unknown _, key.treeBy_ne_unresolved _⟩

/-- A tree is kept once. -/
theorem Interned.tree_injective (h : r.Interned) (ha : r.Covers a) (hb : r.Covers b)
    (heq : r.tree a = r.tree b) : a = b := by
  refine h.induction (P := fun a => ∀ b, r.Covers b → r.tree a = r.tree b → a = b)
    ?_ ?_ ?_ ha b hb heq
  · intro b hb heq
    cases b with
    | id n => exact absurd (heq.symm.trans (tree_unknown r)) (h.tree_id_ne hb).1
    | unknown => rfl
    | unresolved => simp at heq
  · intro b hb heq
    cases b with
    | id n => exact absurd (heq.symm.trans (tree_unresolved r)) (h.tree_id_ne hb).2
    | unknown => simp at heq
    | unresolved => rfl
  · intro n key hkey _ ih b hb heq
    cases b with
    | id k =>
      obtain ⟨key', hkey'⟩ := exists_key?_of_covers hb
      rw [h.tree_eq hkey, h.tree_eq hkey'] at heq
      have hsame : key = key' := TypeKey.eq_of_treeBy_eq
        (fun part hpart part' hpart' => ih part hpart part' (h.covers_parts hkey' part' hpart'))
        heq
      rw [h.eq_of_key? hkey (hsame ▸ hkey')]
    | unknown => exact absurd (heq.trans (tree_unknown r)) (h.tree_id_ne (covers_of_key? hkey)).1
    | unresolved =>
      exact absurd (heq.trans (tree_unresolved r)) (h.tree_id_ne (covers_of_key? hkey)).2

/-! ## What a registry says about a type -/

theorem Interned.isUntracked_eq (h : r.Interned) (hty : r.Covers ty) :
    r.isUntracked ty = (r.tree ty).isUntracked := by
  have hat : ∀ fuel, ty.Below fuel → r.isUntrackedAt fuel ty = (r.tree ty).isUntracked := by
    refine h.induction (P := fun ty => ∀ fuel, ty.Below fuel →
      r.isUntrackedAt fuel ty = (r.tree ty).isUntracked) ?_ ?_ ?_ hty
    · intro fuel _
      rw [tree_unknown]
      cases fuel <;> rfl
    · intro fuel _
      rw [tree_unresolved]
      cases fuel <;> rfl
    · intro n key hkey hbelow ih fuel hfuel
      obtain ⟨k, rfl, hk⟩ := exists_succ_of_below hfuel
      have hparts : ∀ part ∈ key.parts, r.isUntrackedAt k part = (r.tree part).isUntracked :=
        fun part hpart => ih part hpart k ((hbelow part hpart).mono hk)
      rw [h.tree_eq hkey]
      cases key with
      | compound components =>
        have hmap : components.map (r.isUntrackedAt k) =
            (components.map r.tree).map TypeTree.isUntracked := by
          rw [List.map_map]
          exact List.map_inj_left.mpr hparts
        simp only [isUntrackedAt, hkey, TypeKey.treeBy, TypeTree.isUntracked,
          TypeTree.anyUntracked_eq_any]
        calc components.any (r.isUntrackedAt k)
          _ = (components.map (r.isUntrackedAt k)).any id := by rw [List.any_map, Function.id_comp]
          _ = (components.map r.tree).any TypeTree.isUntracked := by
            rw [hmap, List.any_map, Function.id_comp]
      | array element =>
        simp only [isUntrackedAt, hkey, TypeKey.treeBy, TypeTree.isUntracked]
        exact hparts element (by simp [TypeKey.parts])
      | _ => simp only [isUntrackedAt, hkey, TypeKey.treeBy, TypeTree.isUntracked]
  exact hat _ (hty.mono (Nat.le_succ _))

theorem Interned.kindOf_eq (h : r.Interned) (hty : r.Covers ty) :
    r.kindOf ty = (r.tree ty).kind := by
  refine h.induction (P := fun ty => r.kindOf ty = (r.tree ty).kind) ?_ ?_ ?_ hty
  · rw [tree_unknown]
    rfl
  · rw [tree_unresolved]
    rfl
  · intro n key hkey _ ih
    rw [h.kind hkey, h.tree_eq hkey]
    cases key with
    | compound components =>
      rw [TypeKey.treeBy, TypeTree.kind, TypeTree.lastKind_eq, List.getLast?_map, kindFor]
      cases hbase : components.getLast? with
      | none => rfl
      | some base => exact ih base (List.mem_of_getLast? hbase)
    | primitive p => cases p <;> rfl
    | _ => rfl

theorem Interned.describe_eq (h : r.Interned) (hty : r.Covers ty) (className : ClassId → String) :
    r.describe className ty = (r.tree ty).describe className := by
  have hat : ∀ fuel, ty.Below fuel →
      r.describeAt className fuel ty = (r.tree ty).describe className := by
    refine h.induction (P := fun ty => ∀ fuel, ty.Below fuel →
      r.describeAt className fuel ty = (r.tree ty).describe className) ?_ ?_ ?_ hty
    · intro fuel _
      rw [tree_unknown]
      cases fuel <;> rfl
    · intro fuel _
      rw [tree_unresolved]
      cases fuel <;> rfl
    · intro n key hkey hbelow ih fuel hfuel
      obtain ⟨k, rfl, hk⟩ := exists_succ_of_below hfuel
      have hparts : ∀ part ∈ key.parts,
          r.describeAt className k part = (r.tree part).describe className :=
        fun part hpart => ih part hpart k ((hbelow part hpart).mono hk)
      rw [h.tree_eq hkey]
      cases key with
      | compound components =>
        have htexts : TypeTree.describeAll className (components.map r.tree) =
            components.map (r.describeAt className k) := by
          rw [TypeTree.describeAll_eq_map, List.map_map]
          exact List.map_inj_left.mpr fun part hpart => (hparts part hpart).symm
        have hbase :
            (components.getLast?.map (r.describeAt className k)).getD TypeId.unknown.label =
              r.describeAt className k (components.getLast?.getD .unknown) := by
          cases components.getLast? with
          | some base => rfl
          | none => cases k <;> rfl
        simp only [describeAt, hkey, TypeKey.treeBy, TypeTree.describe, htexts,
          List.getLast?_map, hbase, List.map_dropLast]
      | array element =>
        simp only [describeAt, hkey, TypeKey.treeBy, TypeTree.describe]
        rw [hparts element (by simp [TypeKey.parts])]
      | _ => simp only [describeAt, hkey, TypeKey.treeBy, TypeTree.describe]
  exact hat _ (hty.mono (Nat.le_succ _))

end Registry

end Interlock.Types
