import Interlock.Proofs.Ordered.Reachable

/-! The order of a depth-first walk. A recursive walk that forgets where it has been visits an
element, then what its successors lead to, one after the other, and comes to some elements many
times; without cycles it ends. A walk that keeps to fresh elements lists the first visits of it. -/

namespace Interlock.Ordered

variable {α : Type} {next : α → List α} {region stack : List α}

/-- All visits of the recursive walk from a stack of elements, in their order. Elements outside of
the region are passed over. -/
inductive Tour (next : α → List α) (region : List α) : List α → List α → Prop
  | nil : Tour next region [] []
  | visit {a : α} {stack above rest : List α} :
      a ∈ region → Tour next region (next a) above → Tour next region stack rest →
      Tour next region (a :: stack) (a :: above ++ rest)
  | pass {a : α} {stack rest : List α} :
      a ∉ region → Tour next region stack rest → Tour next region (a :: stack) rest

namespace Tour

variable {visits : List α} {a b : α}

theorem mem_of_mem_stack (h : Tour next region stack visits) (ha : a ∈ stack)
    (hr : a ∈ region) : a ∈ visits := by
  induction h with
  | nil => exact ha
  | visit _ _ _ _ ih =>
    rcases List.mem_cons.mp ha with rfl | ha
    · exact List.mem_cons_self
    · exact List.mem_append_right _ (ih ha)
  | pass hb _ ih =>
    rcases List.mem_cons.mp ha with rfl | ha
    · exact absurd hr hb
    · exact ih ha

/-- What is visited is visited with all its successors. -/
theorem mem_of_mem_next (h : Tour next region stack visits) (ha : a ∈ visits)
    (hab : FollowsIn next region a b) : b ∈ visits := by
  induction h with
  | nil => exact absurd ha List.not_mem_nil
  | visit _ habove _ ihAbove ih =>
    rcases List.mem_append.mp ha with ha | ha
    · refine List.mem_append_left _ (List.mem_cons_of_mem _ ?_)
      rcases List.mem_cons.mp ha with rfl | ha
      · exact habove.mem_of_mem_stack hab.1 hab.2
      · exact ihAbove ha
    · exact List.mem_append_right _ (ih ha)
  | pass _ _ ih => exact ih ha

theorem mem_region (h : Tour next region stack visits) (ha : a ∈ visits) : a ∈ region := by
  induction h with
  | nil => exact absurd ha List.not_mem_nil
  | visit hr _ _ ihAbove ih =>
    rcases List.mem_append.mp ha with ha | ha
    · rcases List.mem_cons.mp ha with rfl | ha
      · exact hr
      · exact ihAbove ha
    · exact ih ha
  | pass _ _ ih => exact ih ha

/-- What is visited is reached from the stack. -/
theorem reaches (h : Tour next region stack visits) (hb : b ∈ visits) :
    ∃ a ∈ stack, a ∈ region ∧ Relation.ReflTransGen (FollowsIn next region) a b := by
  induction h with
  | nil => exact absurd hb List.not_mem_nil
  | @visit a _ _ _ ha _ _ ihAbove ih =>
    rcases List.mem_append.mp hb with hb | hb
    · refine ⟨a, List.mem_cons_self, ha, ?_⟩
      rcases List.mem_cons.mp hb with rfl | hb
      · exact .refl
      · obtain ⟨c, hc, hcr, hcb⟩ := ihAbove hb
        exact hcb.head ⟨hc, hcr⟩
    · obtain ⟨c, hc, hcb⟩ := ih hb
      exact ⟨c, List.mem_cons_of_mem _ hc, hcb⟩
  | pass _ _ ih =>
    obtain ⟨c, hc, hcb⟩ := ih hb
    exact ⟨c, List.mem_cons_of_mem _ hc, hcb⟩

/-- Without cycles the recursive walk ends. -/
theorem exists_of_wellFounded (hwf : WellFounded fun b a => FollowsIn next region a b)
    (stack : List α) : ∃ visits, Tour next region stack visits := by
  have hlist : ∀ stack : List α,
      (∀ a ∈ stack, a ∈ region → ∃ above, Tour next region (next a) above) →
      ∃ visits, Tour next region stack visits := by
    intro stack
    induction stack with
    | nil => exact fun _ => ⟨[], .nil⟩
    | cons a stack ih =>
      intro hall
      obtain ⟨rest, hrest⟩ := ih fun b hb => hall b (List.mem_cons_of_mem _ hb)
      by_cases ha : a ∈ region
      · obtain ⟨above, habove⟩ := hall a List.mem_cons_self ha
        exact ⟨_, .visit ha habove hrest⟩
      · exact ⟨rest, .pass ha hrest⟩
  have hsuccessors : ∀ a, ∃ above, Tour next region (next a) above := fun a =>
    hwf.induction a fun a ih => hlist (next a) fun b hb hr => ih b ⟨hb, hr⟩
  exact hlist stack fun a _ _ => hsuccessors a

end Tour

/-! ## First visits -/

/-- Whatever was visited before was visited with its successors, as far as `visits` goes. -/
def Settled (next : α → List α) (fresh visits : List α) : Prop :=
  ∀ a ∈ visits, a ∉ fresh → ∀ b ∈ next a, b ∉ fresh

namespace Settled

variable {fresh visits rest : List α} {a : α}

theorem left (h : Settled next fresh (visits ++ rest)) : Settled next fresh visits :=
  fun b hb => h b (List.mem_append_left _ hb)

theorem right (h : Settled next fresh (visits ++ rest)) : Settled next fresh rest :=
  fun b hb => h b (List.mem_append_right _ hb)

theorem tail (h : Settled next fresh (a :: visits)) : Settled next fresh visits :=
  fun b hb => h b (List.mem_cons_of_mem _ hb)

/-- Where the stack has been visited, so has everything that the recursive walk comes to. -/
theorem not_mem_fresh (hsettled : Settled next fresh visits)
    (h : Tour next region stack visits) (hstack : ∀ a ∈ stack, a ∉ fresh) :
    ∀ a ∈ visits, a ∉ fresh := by
  induction h with
  | nil => exact fun a ha => absurd ha List.not_mem_nil
  | @visit a stack above rest _ _ _ ihAbove ih =>
    have ha : a ∉ fresh := hstack a List.mem_cons_self
    have habove : ∀ b ∈ above, b ∉ fresh :=
      ihAbove hsettled.left.tail (hsettled.left a List.mem_cons_self ha)
    have hrest : ∀ b ∈ rest, b ∉ fresh :=
      ih hsettled.right fun b hb => hstack b (List.mem_cons_of_mem _ hb)
    intro b hb
    rcases List.mem_append.mp hb with hb | hb
    · rcases List.mem_cons.mp hb with rfl | hb
      · exact ha
      · exact habove b hb
    · exact hrest b hb
  | pass _ _ ih => exact ih hsettled fun b hb => hstack b (List.mem_cons_of_mem _ hb)

/-- After the visits of a recursive walk. -/
theorem after [DecidableEq α] (h : Settled next fresh (visits ++ rest)) (hfresh : fresh ⊆ region)
    (hvisits : Tour next region stack visits) :
    Settled next (fresh.filter (· ∉ visits)) rest := by
  intro b hb hnot c hc hmem
  obtain ⟨hcf, hcv⟩ := List.mem_filter.mp hmem
  have hcv : c ∉ visits := of_decide_eq_true hcv
  by_cases hbv : b ∈ visits
  · exact hcv (hvisits.mem_of_mem_next hbv ⟨hc, hfresh hcf⟩)
  · have hbf : b ∉ fresh := fun hbf => hnot (List.mem_filter.mpr ⟨hbf, decide_eq_true hbv⟩)
    exact h.right b hb hbf c hc hcf

/-- Inside the visit of an element that does not come back to itself. -/
theorem inside [DecidableEq α] (h : Settled next fresh (a :: visits)) (ha : a ∉ visits) :
    Settled next (fresh.erase a) visits := by
  intro b hb hnot c hc hmem
  have hba : b ≠ a := fun heq => ha (heq ▸ hb)
  have hbf : b ∉ fresh := fun hbf => hnot ((List.mem_erase_of_ne hba).mpr hbf)
  exact h.tail b hb hbf c hc (List.mem_of_mem_erase hmem)

end Settled

variable [DecidableEq α] {a : α} {above fresh : List α}

theorem filter_erase (hnodup : fresh.Nodup) (a : α) (above : List α) :
    (fresh.erase a).filter (· ∉ above) = fresh.filter (· ∉ a :: above) := by
  rw [hnodup.erase_eq_filter, List.filter_filter]
  refine List.filter_congr fun x _ => ?_
  rw [Bool.eq_iff_iff]
  simp [and_comm]

theorem filter_not_mem_append (visits rest fresh : List α) :
    fresh.filter (· ∉ visits ++ rest) = (fresh.filter (· ∉ visits)).filter (· ∉ rest) := by
  rw [List.filter_filter]
  refine List.filter_congr fun x _ => ?_
  rw [Bool.eq_iff_iff]
  simp [and_comm]

theorem eraseDups_filter_cons (hnodup : fresh.Nodup) (ha : a ∈ fresh) :
    ((a :: above).filter (· ∈ fresh)).eraseDups =
      a :: (above.filter (· ∈ fresh.erase a)).eraseDups := by
  rw [List.filter_cons_of_pos (by simpa using ha), List.eraseDups_cons, List.filter_filter]
  refine congrArg (fun l => a :: l.eraseDups) (List.filter_congr fun x _ => ?_)
  rw [Bool.eq_iff_iff]
  simp [hnodup.mem_erase_iff]

/-- The later visits count as first ones where the earlier ones have left elements fresh. -/
theorem eraseDups_filter_append (visits rest fresh : List α) :
    ((visits ++ rest).filter (· ∈ fresh)).eraseDups = (visits.filter (· ∈ fresh)).eraseDups ++
      (rest.filter (· ∈ fresh.filter (· ∉ visits))).eraseDups := by
  have hlater : (rest.filter (· ∈ fresh)).removeAll (visits.filter (· ∈ fresh)) =
      rest.filter (· ∈ fresh.filter (· ∉ visits)) := by
    rw [List.removeAll, List.filter_filter]
    refine List.filter_congr fun x _ => ?_
    rw [Bool.eq_iff_iff]
    by_cases hx : x ∈ fresh <;> simp [hx]
  rw [List.filter_append, List.eraseDups_append, hlater]

/-- A walk through fresh elements makes the first visits of the recursive walk that are fresh, and
then goes on with what was on the stack below. -/
theorem preorder_append_of_tour
    (hacyclic : ∀ a, ¬ Relation.TransGen (FollowsIn next region) a a) {visits : List α}
    (h : Tour next region stack visits) (hnodup : fresh.Nodup) (hfresh : fresh ⊆ region)
    (hsettled : Settled next fresh visits) (below : List α) :
    preorder next fresh (stack ++ below) =
      (visits.filter (· ∈ fresh)).eraseDups ++
        preorder next (fresh.filter (· ∉ visits)) below := by
  induction h generalizing fresh below with
  | nil =>
    have hall : fresh.filter (· ∉ ([] : List α)) = fresh :=
      List.filter_eq_self.mpr fun x _ => by simp
    rw [hall]
    rfl
  | @pass a stack rest hr _ ih =>
    have ha : a ∉ fresh := fun ha => hr (hfresh ha)
    rw [List.cons_append, preorder, if_neg ha]
    exact ih hnodup hfresh hsettled below
  | @visit a stack above rest hr habove _ ihAbove ih =>
    have hvisit : Tour next region [a] (a :: above) := by
      simpa using Tour.visit hr habove .nil
    by_cases ha : a ∈ fresh
    · have hself : a ∉ above := by
        intro hmem
        obtain ⟨b, hb, hbr, hba⟩ := habove.reaches hmem
        exact hacyclic a (.head' ⟨hb, hbr⟩ hba)
      have hbelow := ihAbove (hnodup.erase a) (fun x hx => hfresh (List.mem_of_mem_erase hx))
        (hsettled.left.inside hself) (stack ++ below)
      have hrest := ih (hnodup.filter _) (fun x hx => hfresh (List.mem_filter.mp hx).1)
        (hsettled.after hfresh hvisit) below
      rw [List.cons_append, preorder, if_pos ha, hbelow, filter_erase hnodup, hrest,
        eraseDups_filter_append (a :: above), eraseDups_filter_cons hnodup ha, filter_not_mem_append,
        List.cons_append, List.cons_append, List.append_assoc]
    · have hnone : ∀ b ∈ a :: above, b ∉ fresh :=
        hsettled.left.not_mem_fresh hvisit fun b hb => List.mem_singleton.mp hb ▸ ha
      have hvisits : (a :: above).filter (· ∈ fresh) = [] :=
        List.filter_eq_nil_iff.mpr fun b hb => by simpa using hnone b hb
      have hleft : fresh.filter (· ∉ a :: above) = fresh :=
        List.filter_eq_self.mpr fun x hx => decide_eq_true fun hmem => hnone x hmem hx
      rw [List.cons_append, preorder, if_neg ha, List.filter_append, hvisits, List.nil_append,
        filter_not_mem_append, hleft]
      exact ih hnodup hfresh hsettled.right below

/-- Without cycles, a walk through all of the region lists the first visits of the recursive walk. -/
theorem preorder_eq_eraseDups (hacyclic : ∀ a, ¬ Relation.TransGen (FollowsIn next region) a a)
    (hnodup : region.Nodup) {visits : List α} (h : Tour next region stack visits) :
    preorder next region stack = visits.eraseDups := by
  have hin : ∀ a ∈ visits, a ∈ region := fun a ha => h.mem_region ha
  have hsettled : Settled next region visits := fun a ha hnot => absurd (hin a ha) hnot
  have hwalk := preorder_append_of_tour hacyclic h hnodup (List.Subset.refl _) hsettled []
  rw [List.append_nil, preorder, List.append_nil] at hwalk
  rw [hwalk, List.filter_eq_self.mpr fun a ha => by simpa using hin a ha]

end Interlock.Ordered
