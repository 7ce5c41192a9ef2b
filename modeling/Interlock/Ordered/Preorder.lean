/-! Depth-first walks over a finite relation. -/

namespace Interlock.Ordered

variable {α : Type} [DecidableEq α]

/-- The elements reached by a depth-first walk from a stack of elements, in the order of their
first visit. An element is visited only while it is fresh, so the walk ends on every relation. -/
def preorder (next : α → List α) (fresh : List α) : List α → List α
  | [] => []
  | a :: stack =>
    if a ∈ fresh then a :: preorder next (fresh.erase a) (next a ++ stack)
    else preorder next fresh stack
  termination_by stack => (fresh.length, stack.length)
  decreasing_by
    · rename_i h
      left
      have := List.length_pos_of_mem h
      rw [List.length_erase_of_mem h]
      omega
    · right
      simp

/-- A walk visits fresh elements only. -/
theorem mem_fresh_of_mem_preorder {next : α → List α} {fresh stack : List α} {a : α}
    (h : a ∈ preorder next fresh stack) : a ∈ fresh := by
  fun_induction preorder next fresh stack with
  | case1 => simp at h
  | case2 fresh b stack hb ih =>
    rcases List.mem_cons.mp h with rfl | h
    · exact hb
    · exact List.mem_of_mem_erase (ih h)
  | case3 fresh b stack hb ih => exact ih h

/-- A walk over fresh elements without repetition visits none twice. -/
theorem nodup_preorder {next : α → List α} {fresh : List α} (stack : List α)
    (h : fresh.Nodup) : (preorder next fresh stack).Nodup := by
  fun_induction preorder next fresh stack with
  | case1 => exact List.nodup_nil
  | case2 fresh b stack hb ih =>
    refine List.nodup_cons.mpr ⟨fun hm => ?_, ih (h.erase b)⟩
    exact h.not_mem_erase (mem_fresh_of_mem_preorder hm)
  | case3 fresh b stack hb ih => exact ih h

end Interlock.Ordered
