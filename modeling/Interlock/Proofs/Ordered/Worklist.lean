import Interlock.Proofs.Ordered.Reachable

/-! The loop of a depth-first walk. It keeps a stack and what it has seen, and no bound: that some
elements are fresh yet, and fewer at every visit, is what shows that it ends. -/

namespace Interlock.Ordered

variable {α : Type} {next : α → List α} {seen stack visits : List α}

/-- A run of the loop up to its end, by what it has seen, its stack and its visits. The element on
top of the stack is passed over if it was seen; otherwise it is visited, and its successors are put
in its place. -/
inductive Worklist (next : α → List α) : List α → List α → List α → Prop
  | done {seen : List α} : Worklist next seen [] []
  | pass {seen stack visits : List α} {a : α} :
      a ∈ seen → Worklist next seen stack visits → Worklist next seen (a :: stack) visits
  | visit {seen stack visits : List α} {a : α} :
      a ∉ seen → Worklist next (a :: seen) (next a ++ stack) visits →
      Worklist next seen (a :: stack) (a :: visits)

/-- The loop is deterministic. -/
theorem Worklist.unique {visits' : List α} (h : Worklist next seen stack visits)
    (h' : Worklist next seen stack visits') : visits = visits' := by
  induction h generalizing visits' with
  | done =>
    cases h'
    rfl
  | pass ha _ ih =>
    cases h' with
    | pass _ h' => exact ih h'
    | visit hnew _ => exact absurd ha hnew
  | visit hnew _ ih =>
    cases h' with
    | pass ha _ => exact absurd ha hnew
    | visit _ h' => rw [ih h']

/-- Where nothing comes to the stack but fresh elements and such that were seen, the loop ends with
the walk through the fresh elements. -/
theorem worklist_preorder [DecidableEq α] {fresh : List α} (hnodup : fresh.Nodup)
    (hseen : ∀ a ∈ seen, a ∉ fresh) (hstack : ∀ a ∈ stack, a ∉ fresh → a ∈ seen)
    (hnext : ∀ a, ∀ b ∈ next a, b ∉ fresh → b ∈ seen) :
    Worklist next seen stack (preorder next fresh stack) := by
  fun_induction preorder next fresh stack generalizing seen with
  | case1 fresh => exact .done
  | case2 fresh b stack hb ih =>
    -- what is no longer fresh is now among what was seen
    have hmoved : ∀ a, (a ∉ fresh → a ∈ seen) → a ∉ fresh.erase b → a ∈ b :: seen := by
      intro a ha hnot
      by_cases hab : a = b
      · exact List.mem_cons.mpr (.inl hab)
      · exact List.mem_cons_of_mem _ (ha fun hf => hnot ((List.mem_erase_of_ne hab).mpr hf))
    refine .visit (fun hmem => hseen b hmem hb) (ih (hnodup.erase b) ?_ ?_ ?_)
    · intro a ha
      rcases List.mem_cons.mp ha with rfl | ha
      · exact hnodup.not_mem_erase
      · exact fun hf => hseen a ha (List.mem_of_mem_erase hf)
    · intro a ha
      rcases List.mem_append.mp ha with ha | ha
      · exact hmoved a (hnext b a ha)
      · exact hmoved a (hstack a (List.mem_cons_of_mem _ ha))
    · exact fun a c hc => hmoved c (hnext a c hc)
  | case3 fresh b stack hb ih =>
    refine .pass (hstack b List.mem_cons_self hb) (ih hnodup hseen (fun a ha => ?_) hnext)
    exact hstack a (List.mem_cons_of_mem _ ha)

end Interlock.Ordered
