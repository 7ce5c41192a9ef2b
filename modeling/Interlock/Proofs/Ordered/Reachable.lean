import Mathlib.Logic.Relation
import Interlock.Ordered.Preorder

/-! A depth-first walk visits exactly what can be reached. Three facts about the visited list are
enough: it holds the fresh elements of the stack, it is closed under fresh successors, and nothing
is visited without a way to it. -/

namespace Interlock.Ordered

variable {α : Type} [DecidableEq α] {next : α → List α} {fresh stack : List α}

/-- The relation that a walk follows. -/
def Follows (next : α → List α) (a b : α) : Prop := b ∈ next a

/-- The relation that walks follow inside a region. -/
def FollowsIn (next : α → List α) (region : List α) (a b : α) : Prop := b ∈ next a ∧ b ∈ region

omit [DecidableEq α] in
theorem FollowsIn.mono {region region' : List α} (h : region ⊆ region') {a b : α}
    (hab : FollowsIn next region a b) : FollowsIn next region' a b :=
  ⟨hab.1, h hab.2⟩

theorem mem_preorder_of_mem_stack {a : α} (hs : a ∈ stack) (hf : a ∈ fresh) :
    a ∈ preorder next fresh stack := by
  fun_induction preorder next fresh stack with
  | case1 => simp at hs
  | case2 fresh b stack hb ih =>
    by_cases h : a = b
    · exact List.mem_cons.mpr (Or.inl h)
    · refine List.mem_cons_of_mem _ (ih ?_ ((List.mem_erase_of_ne h).mpr hf))
      exact List.mem_append_right _ (List.mem_of_ne_of_mem h hs)
  | case3 fresh b stack hb ih =>
    have h : a ≠ b := fun h => hb (h ▸ hf)
    exact ih (List.mem_of_ne_of_mem h hs) hf

theorem mem_preorder_of_mem_next {a b : α} (ha : a ∈ preorder next fresh stack)
    (hn : b ∈ next a) (hf : b ∈ fresh) : b ∈ preorder next fresh stack := by
  fun_induction preorder next fresh stack with
  | case1 => simp at ha
  | case2 fresh c stack hc ih =>
    by_cases h : b = c
    · exact List.mem_cons.mpr (Or.inl h)
    have hf' : b ∈ fresh.erase c := (List.mem_erase_of_ne h).mpr hf
    rcases List.mem_cons.mp ha with rfl | ha
    -- the successors of the element that is visited now are put on the stack
    · exact List.mem_cons_of_mem _
        (mem_preorder_of_mem_stack (List.mem_append_left _ hn) hf')
    · exact List.mem_cons_of_mem _ (ih ha hf')
  | case3 fresh c stack hc ih => exact ih ha hf

theorem reaches_of_mem_preorder {b : α} (h : b ∈ preorder next fresh stack) :
    ∃ a ∈ stack, a ∈ fresh ∧ Relation.ReflTransGen (FollowsIn next fresh) a b := by
  fun_induction preorder next fresh stack with
  | case1 => simp at h
  | case2 fresh c stack hc ih =>
    rcases List.mem_cons.mp h with rfl | h
    · exact ⟨b, List.mem_cons_self, hc, .refl⟩
    obtain ⟨a, ha, hfresh, hab⟩ := ih h
    have hfresh' : a ∈ fresh := List.mem_of_mem_erase hfresh
    have hab' : Relation.ReflTransGen (FollowsIn next fresh) a b :=
      Relation.ReflTransGen.mono (fun _ _ => FollowsIn.mono List.erase_subset) _ _ hab
    rcases List.mem_append.mp ha with ha | ha
    · exact ⟨c, List.mem_cons_self, hc, hab'.head ⟨ha, hfresh'⟩⟩
    · exact ⟨a, List.mem_cons_of_mem _ ha, hfresh', hab'⟩
  | case3 fresh c stack hc ih =>
    obtain ⟨a, ha, hfresh, hab⟩ := ih h
    exact ⟨a, List.mem_cons_of_mem _ ha, hfresh, hab⟩

/-- A walk that starts at the successors of `a` visits exactly what `a` reaches in at least one
step through fresh elements. -/
theorem mem_preorder_next_iff_transGen {a b : α} :
    b ∈ preorder next fresh (next a) ↔ Relation.TransGen (FollowsIn next fresh) a b := by
  constructor
  · intro h
    obtain ⟨c, hc, hfresh, hcb⟩ := reaches_of_mem_preorder h
    exact Relation.TransGen.head' ⟨hc, hfresh⟩ hcb
  · intro h
    induction h with
    | single h => exact mem_preorder_of_mem_stack h.1 h.2
    | tail _ h ih => exact mem_preorder_of_mem_next ih h.1 h.2

/-- With everything that `a` reaches fresh, all steps count. -/
theorem mem_preorder_next_iff_of_fresh {a b : α}
    (hf : ∀ d, Relation.TransGen (Follows next) a d → d ∈ fresh) :
    b ∈ preorder next fresh (next a) ↔ Relation.TransGen (Follows next) a b := by
  rw [mem_preorder_next_iff_transGen]
  refine ⟨Relation.TransGen.mono (fun _ _ hcd => hcd.1) a b, fun h => ?_⟩
  induction h with
  | single h => exact .single ⟨h, hf _ (.single h)⟩
  | tail hab h ih => exact ih.tail ⟨h, hf _ (hab.tail h)⟩

/-- It is enough that everything with a predecessor is fresh. -/
theorem mem_preorder_next_iff {a b : α} (hf : ∀ c d, d ∈ next c → d ∈ fresh) :
    b ∈ preorder next fresh (next a) ↔ Relation.TransGen (Follows next) a b := by
  refine mem_preorder_next_iff_of_fresh fun d hd => ?_
  obtain ⟨c, -, hcd⟩ := Relation.TransGen.tail'_iff.mp hd
  exact hf c d hcd

/-- With everything fresh but `a` itself, what `a` reaches is visited, `a` apart: a way that comes
back to `a` has a shorter way to where it ends. -/
theorem mem_preorder_erase_iff {region : List α} (hnodup : region.Nodup) {a b : α}
    (hregion : ∀ c d, d ∈ next c → d ∈ region) :
    b ∈ preorder next (region.erase a) (next a) ↔
      b ≠ a ∧ Relation.TransGen (Follows next) a b := by
  rw [mem_preorder_next_iff_transGen]
  constructor
  · intro h
    obtain ⟨c, -, hcb⟩ := Relation.TransGen.tail'_iff.mp h
    refine ⟨fun hba => hnodup.not_mem_erase (hba ▸ hcb.2), ?_⟩
    exact Relation.TransGen.mono (fun _ _ hcd => hcd.1) a b h
  · rintro ⟨hne, h⟩
    have hfresh : ∀ {c d}, Follows next c d → d ≠ a → FollowsIn next (region.erase a) c d :=
      fun hcd hda => ⟨hcd, (List.mem_erase_of_ne hda).mpr (hregion _ _ hcd)⟩
    induction h with
    | single hab => exact .single (hfresh hab hne)
    | @tail c d _ hcd ih =>
      by_cases hca : c = a
      · exact .single (hfresh (hca ▸ hcd) hne)
      · exact (ih hca).tail (hfresh hcd hne)

end Interlock.Ordered
