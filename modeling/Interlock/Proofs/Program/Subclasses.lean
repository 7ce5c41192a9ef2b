import Interlock.Proofs.Ordered.Worklist
import Interlock.Proofs.Program.Ancestors

/-! Subclasses of arbitrary supertype lists. The classes below a class are found through the
inverted lists, those above it through the lists themselves. The two searches agree on every input:
a class is below another exactly if it has the other one above it, cycles or not, except that no
class is listed below itself. -/

namespace Interlock.Program.Supertypes

open Interlock.Ordered (Follows Worklist)

variable {supers : Supertypes} {c d : ClassId}

/-- The lists of subclasses invert those of supertypes, as far as classes exist. -/
theorem mem_subclasses_iff_extends : d ∈ supers.subclasses c ↔ supers.Extends d c :=
  mem_subclasses_iff

theorem follows_subclasses : Follows supers.subclasses = Function.swap supers.Extends := by
  funext a b
  exact propext mem_subclasses_iff_extends

theorem mem_range_of_mem_subclasses (h : d ∈ supers.subclasses c) : d ∈ List.range supers.size :=
  List.mem_range.mpr (mem_subclasses_iff_extends.mp h).1.lt_size

theorem mem_transitiveSubclasses_iff_extends :
    d ∈ supers.transitiveSubclasses c ↔ d ≠ c ∧ Relation.TransGen supers.Extends d c := by
  rw [transitiveSubclasses, Ordered.mem_preorder_erase_iff List.nodup_range
    fun _ _ h => mem_range_of_mem_subclasses h, follows_subclasses, Relation.transGen_swap]

/-- What is found through the inverted lists is what finds its way back. -/
theorem mem_transitiveSubclasses_iff_mem_ancestorsOf :
    d ∈ supers.transitiveSubclasses c ↔ d ≠ c ∧ c ∈ supers.ancestorsOf d := by
  rw [mem_transitiveSubclasses_iff_extends, mem_ancestorsOf_iff_extends]

/-- Without cycles, the classes below a class are those that have it as an ancestor. -/
theorem mem_transitiveSubclasses (hwf : WellFounded fun s c => supers.Names c s) :
    d ∈ supers.transitiveSubclasses c ↔ c ∈ supers.ancestorsOf d := by
  rw [mem_transitiveSubclasses_iff_mem_ancestorsOf]
  refine and_iff_right_of_imp fun h => ?_
  rintro rfl
  exact not_transGen_extends hwf d (mem_ancestorsOf_iff_extends.mp h)

/-- The loop that only remembers what it has seen ends, on cycles too, and it ends with the list. -/
theorem worklist_iff_eq_transitiveSubclasses {visits : List ClassId} :
    Worklist supers.subclasses [c] (supers.subclasses c) visits ↔
      visits = supers.transitiveSubclasses c := by
  have hstart : ∀ {a}, a ∈ List.range supers.size → a ∉ (List.range supers.size).erase c →
      a ∈ [c] := by
    intro a ha hnot
    by_contra hac
    exact hnot ((List.mem_erase_of_ne fun heq => hac (List.mem_singleton.mpr heq)).mpr ha)
  have hends : Worklist supers.subclasses [c] (supers.subclasses c)
      (supers.transitiveSubclasses c) := by
    refine Ordered.worklist_preorder (List.nodup_range.erase c) (fun a ha => ?_)
      (fun a ha => hstart (mem_range_of_mem_subclasses ha))
      fun _ b hb => hstart (mem_range_of_mem_subclasses hb)
    rw [List.mem_singleton.mp ha]
    exact List.nodup_range.not_mem_erase
  exact ⟨fun h => h.unique hends, fun h => h ▸ hends⟩

/-- What the list of the classes below `c` is. -/
structure ListsBelow (supers : Supertypes) (c : ClassId) (below : List ClassId) : Prop where
  /-- The classes directly below it, in the order of declaration. -/
  direct : ∀ d, d ∈ supers.subclasses c ↔ supers.Names d c
  ascending : (supers.subclasses c).Pairwise (· < ·)
  nodup : below.Nodup
  not_mem : c ∉ below
  mem_iff : ∀ d, d ∈ below ↔ d ≠ c ∧ Relation.TransGen supers.Names d c
  ends_iff : ∀ visits, Worklist supers.subclasses [c] (supers.subclasses c) visits ↔ visits = below

theorem listsBelow_transitiveSubclasses (hc : c < supers.size) :
    supers.ListsBelow c (supers.transitiveSubclasses c) where
  direct _ := mem_subclasses_iff_extends.trans (and_iff_left hc)
  ascending := subclasses_ascending supers c
  nodup := Ordered.nodup_preorder _ (List.nodup_range.erase c)
  not_mem h := (mem_transitiveSubclasses_iff_extends.mp h).1 rfl
  mem_iff _ := by
    rw [mem_transitiveSubclasses_iff_extends, transGen_extends_iff, and_iff_right hc]
  ends_iff _ := worklist_iff_eq_transitiveSubclasses

/-- For every list of supertype lists, the classes below a class are found in a walk that ends, and
are the other classes from which supertypes lead to it; where the ancestors of all classes are
known, they are the classes that have it among their ancestors. -/
theorem transitiveSubclasses_inverts (supers : Supertypes) (hc : c < supers.size) :
    supers.ListsBelow c (supers.transitiveSubclasses c) ∧
    ∀ lists, supers.flatten = .ok lists → ∀ d < supers.size, ∃ above, lists[d]? = some above ∧
      (d ∈ supers.transitiveSubclasses c ↔ c ∈ above) := by
  refine ⟨listsBelow_transitiveSubclasses hc, fun lists h d hd => ?_⟩
  obtain ⟨hwf, rfl⟩ := flatten_eq_ok h
  refine ⟨supers.ancestorsOf d, ?_, mem_transitiveSubclasses hwf⟩
  rw [List.getElem?_map, List.getElem?_range hd, Option.map_some]

/-- Below the top of the diamond are all other classes, each once; in the cycle, either class is
below the other one. -/
theorem diamond_inverts :
    (diamond.flatten = .ok [[], [0], [0], [1, 0, 2]] ∧ diamond.ListsBelow 0 [1, 3, 2] ∧
      ∃ above, [[], [0], [0], [1, 0, 2]][3]? = some above ∧ (3 ∈ [1, 3, 2] ↔ 0 ∈ above)) ∧
    looped.ListsBelow 2 [1, 3] ∧ looped.ListsBelow 3 [2, 1] := by
  have hok : diamond.flatten = .ok [[], [0], [0], [1, 0, 2]] := by cbv
  have hdiamond : diamond.transitiveSubclasses 0 = [1, 3, 2] := by cbv
  have hlooped : looped.transitiveSubclasses 2 = [1, 3] ∧
      looped.transitiveSubclasses 3 = [2, 1] := by constructor <;> cbv
  obtain ⟨hbelow, habove⟩ := transitiveSubclasses_inverts (c := 0) diamond (by decide)
  have h2 := (transitiveSubclasses_inverts (c := 2) looped (by decide)).1
  have h3 := (transitiveSubclasses_inverts (c := 3) looped (by decide)).1
  rw [hdiamond] at hbelow habove
  rw [hlooped.1] at h2
  rw [hlooped.2] at h3
  exact ⟨⟨hok, hbelow, habove _ hok 3 (by decide)⟩, h2, h3⟩

end Interlock.Program.Supertypes
