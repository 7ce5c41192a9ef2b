import Interlock.Proofs.Types.Tree

/-! The leaves of type trees. A tree is what its parts and its leaves make of it: a statement about
all trees is one step from the parts, and a tree that is not followed has a leaf that is not. -/

namespace Interlock.Types.TypeTree

variable {σ τ : TypeTree}

/-- What a type is directly made of. -/
def parts : TypeTree → List TypeTree
  | compound parts => parts
  | array element => [element]
  | _ => []

theorem sizeOf_lt_of_mem_parts (h : σ ∈ τ.parts) : sizeOf σ < sizeOf τ := by
  cases τ with
  | compound parts =>
    have := List.sizeOf_lt_of_mem (show σ ∈ parts from h)
    simp only [compound.sizeOf_spec]
    omega
  | array element =>
    obtain rfl : σ = element := List.mem_singleton.mp h
    simp only [array.sizeOf_spec]
    omega
  | _ => simp [parts] at h

/-- What holds of a tree if it holds of its parts holds of every tree. -/
@[elab_as_elim]
theorem partsInduction {P : TypeTree → Prop} (step : ∀ τ, (∀ σ ∈ τ.parts, P σ) → P τ)
    (τ : TypeTree) : P τ :=
  step τ fun σ _ => partsInduction step σ
termination_by sizeOf τ
decreasing_by exact sizeOf_lt_of_mem_parts ‹_›

theorem mem_nodes_of_mem_parts {ρ : TypeTree} (hρ : ρ ∈ τ.parts) (h : σ ∈ ρ.nodes) :
    σ ∈ τ.nodes := by
  cases τ with
  | compound parts =>
    rw [nodes, nodesAll_eq_flatMap]
    exact List.mem_cons_of_mem _ (List.mem_flatMap.mpr ⟨ρ, hρ, h⟩)
  | array element =>
    rw [nodes, ← List.mem_singleton.mp hρ]
    exact List.mem_cons_of_mem _ h
  | _ => simp [parts] at hρ

mutual

/-- The leaves of a type, from left to right. -/
def leaves : TypeTree → List TypeTree
  | compound parts => leavesAll parts
  | array element => element.leaves
  | τ => [τ]

def leavesAll : List TypeTree → List TypeTree
  | [] => []
  | τ :: τs => τ.leaves ++ leavesAll τs

end

theorem leavesAll_eq_flatMap (τs : List TypeTree) : leavesAll τs = τs.flatMap leaves := by
  induction τs with
  | nil => rfl
  | cons τ τs ih => rw [leavesAll, List.flatMap_cons, ih]

/-- The leaves of a tree are those of its parts, or the tree has no parts and is a leaf. -/
theorem leaves_eq (τ : TypeTree) :
    τ.leaves = τ.parts.flatMap leaves ∨ τ.parts = [] ∧ τ.leaves = [τ] := by
  cases τ with
  | compound parts => exact .inl (by rw [leaves, leavesAll_eq_flatMap, TypeTree.parts])
  | array element => exact .inl (by rw [leaves, parts, List.flatMap_singleton])
  | _ => exact .inr ⟨rfl, rfl⟩

theorem mem_leaves_of_mem_parts {ρ : TypeTree} (hρ : ρ ∈ τ.parts) (h : σ ∈ ρ.leaves) :
    σ ∈ τ.leaves := by
  rcases leaves_eq τ with hbelow | ⟨hparts, -⟩
  · rw [hbelow]
    exact List.mem_flatMap.mpr ⟨ρ, hρ, h⟩
  · simp [hparts] at hρ

theorem parts_of_mem_leaves (h : σ ∈ τ.leaves) : σ.parts = [] := by
  induction τ using partsInduction with
  | step τ ih =>
    rcases leaves_eq τ with hbelow | ⟨hparts, hself⟩
    · rw [hbelow] at h
      obtain ⟨ρ, hρ, h⟩ := List.mem_flatMap.mp h
      exact ih ρ hρ h
    · rw [hself, List.mem_singleton] at h
      rw [h, hparts]

/-- What a leaf needs, the type needs. -/
theorem mem_nodes_of_mem_leaves {ρ : TypeTree} (hρ : ρ ∈ τ.leaves) (h : σ ∈ ρ.nodes) :
    σ ∈ τ.nodes := by
  induction τ using partsInduction with
  | step τ ih =>
    rcases leaves_eq τ with hbelow | ⟨-, hself⟩
    · rw [hbelow] at hρ
      obtain ⟨υ, hυ, hρ⟩ := List.mem_flatMap.mp hρ
      exact mem_nodes_of_mem_parts hυ (ih υ hυ hρ)
    · rw [hself, List.mem_singleton] at hρ
      rwa [← hρ]

/-- A type is not followed exactly if one of its leaves is not. -/
theorem isUntracked_iff : τ.isUntracked = true ↔ ∃ σ ∈ τ.leaves, σ.isUntracked = true := by
  induction τ using partsInduction with
  | step τ ih =>
    cases τ with
    | compound parts =>
      simp only [isUntracked, anyUntracked_eq_any, leaves, leavesAll_eq_flatMap, List.any_eq_true,
        List.mem_flatMap]
      constructor
      · rintro ⟨ρ, hρ, h⟩
        obtain ⟨σ, hσ, h⟩ := (ih ρ hρ).mp h
        exact ⟨σ, ⟨ρ, hρ, hσ⟩, h⟩
      · rintro ⟨σ, ⟨ρ, hρ, hσ⟩, h⟩
        exact ⟨ρ, hρ, (ih ρ hρ).mpr ⟨σ, hσ, h⟩⟩
    | array element =>
      simp only [isUntracked, leaves]
      exact ih element (by simp [parts])
    | _ => simp [leaves]

end Interlock.Types.TypeTree
