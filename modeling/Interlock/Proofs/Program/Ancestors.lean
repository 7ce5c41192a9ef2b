import Mathlib.Data.List.Chain
import Interlock.Proofs.Ordered.FirstVisits
import Interlock.Proofs.Program.Hierarchy

/-! Ancestors of arbitrary supertype lists. The search for cycles is a recursion that ends without
its bound; what it answers is a cycle exactly if there is one, and a cycle that it tells of is a way
along supertypes. Without cycles, the ancestors of a class are the first visits of the recursive
walk through its supertypes. -/

namespace Interlock.Program.Supertypes

open Interlock.Ordered (FollowsIn Tour)

variable {supers : Supertypes} {c d : ClassId}

/-- `c` names `s` as a supertype, and `s` exists. A class that names anything exists itself. -/
def Extends (supers : Supertypes) (c s : ClassId) : Prop := supers.Names c s ∧ s < supers.size

/-- The supertypes of a class that exist, in the order of declaration. -/
def known (supers : Supertypes) (c : ClassId) : List ClassId :=
  (supers.of c).filter (· < supers.size)

theorem mem_known : d ∈ supers.known c ↔ supers.Extends c d := by
  rw [known, List.mem_filter, decide_eq_true_iff]
  rfl

theorem extends_eq_followsIn : supers.Extends = FollowsIn supers.of (List.range supers.size) := by
  funext c s
  exact propext (and_congr_right fun _ => List.mem_range.symm)

/-- A class that is reached and exists is reached through classes that exist. -/
theorem transGen_extends_iff :
    Relation.TransGen supers.Extends c d ↔ d < supers.size ∧ Relation.TransGen supers.Names c d := by
  constructor
  · intro h
    obtain ⟨b, -, hbd⟩ := Relation.TransGen.tail'_iff.mp h
    exact ⟨hbd.2, Relation.TransGen.mono (fun _ _ hcd => hcd.1) c d h⟩
  · rintro ⟨hd, h⟩
    induction h with
    | single h => exact .single ⟨h, hd⟩
    | tail _ h ih => exact (ih h.lt_size).tail ⟨h, hd⟩

/-! ## The search as a recursion -/

/-- What the search answers at classes that are looked at one after the other, as a recursion
without a bound. -/
inductive Search (supers : Supertypes) : List ClassId → List ClassId → List ClassId →
    Except (List ClassId) (List ClassId) → Prop
  | done {path done : List ClassId} : Search supers path done [] (.ok done)
  | pass {path done cs : List ClassId} {c : ClassId} {found : Except _ _} :
      c ∈ done → Search supers path done cs found → Search supers path done (c :: cs) found
  | meet {path done cs : List ClassId} {c : ClassId} :
      c ∉ done → c ∈ path →
      Search supers path done (c :: cs) (.error (path.dropWhile (· != c) ++ [c]))
  | fail {path done cs : List ClassId} {c : ClassId} {cycle : List ClassId} :
      c ∉ done → c ∉ path → Search supers (path ++ [c]) done (supers.known c) (.error cycle) →
      Search supers path done (c :: cs) (.error cycle)
  | visit {path done between cs : List ClassId} {c : ClassId} {found : Except _ _} :
      c ∉ done → c ∉ path → Search supers (path ++ [c]) done (supers.known c) (.ok between) →
      Search supers path (c :: between) cs found → Search supers path done (c :: cs) found

theorem searchCycle_of_not_mem {fuel : Nat} {path done : List ClassId} (hdone : c ∉ done)
    (hmem : c ∉ path) : supers.searchCycle (fuel + 1) path done c =
      ((supers.known c).foldlM (supers.searchCycle fuel (path ++ [c])) done).map (c :: ·) := by
  rw [searchCycle, if_neg hdone, if_neg hmem]
  rfl

/-- The bound is never met: the search is the recursion without it. -/
theorem search_foldlM {fuel : Nat} {path : List ClassId} (hpath : supers.SearchPath fuel path)
    (done : List ClassId) {cs : List ClassId} (hcs : ∀ c ∈ cs, c < supers.size) :
    supers.Search path done cs (cs.foldlM (supers.searchCycle fuel path) done) := by
  induction fuel generalizing path done cs with
  | zero => exact absurd hpath.fuel_pos (Nat.lt_irrefl 0)
  | succ fuel ihFuel =>
    induction cs generalizing done with
    | nil => exact .done
    | cons c cs ih =>
      have hrest := fun done => ih done fun d hd => hcs d (List.mem_cons_of_mem _ hd)
      rw [List.foldlM_cons]
      by_cases hdone : c ∈ done
      · rw [searchCycle, if_pos hdone]
        exact .pass hdone (hrest done)
      by_cases hmem : c ∈ path
      · rw [searchCycle, if_neg hdone, if_pos hmem]
        exact .meet hdone hmem
      have hbelow := ihFuel (hpath.extend (hcs c List.mem_cons_self) hmem) done
        fun s (hs : s ∈ supers.known c) => (mem_known.mp hs).2
      rw [searchCycle_of_not_mem hdone hmem]
      cases hfold : (supers.known c).foldlM (supers.searchCycle fuel (path ++ [c])) done with
      | error cycle => exact .fail hdone hmem (hfold ▸ hbelow)
      | ok between => exact .visit hdone hmem (hfold ▸ hbelow) (hrest (c :: between))

/-- The hierarchy is accepted or rejected by the recursion, started at all classes. -/
theorem search_flatten (supers : Supertypes) :
    ∃ found, supers.Search [] [] (List.range supers.size) found ∧
      supers.flatten = found.map fun _ => (List.range supers.size).map supers.ancestorsOf := by
  refine ⟨_, search_foldlM (SearchPath.start supers) [] fun c hc => List.mem_range.mp hc, ?_⟩
  rw [flatten]
  cases (List.range supers.size).foldlM (supers.searchCycle (supers.size + 1) []) [] <;> rfl

/-! ## Cycles -/

/-- A cycle as it is told: a way along supertypes from a class to itself. -/
structure IsCycle (supers : Supertypes) (first : ClassId) (cycle : List ClassId) : Prop where
  head : cycle.head? = some first
  last : cycle.getLast? = some first
  length : 1 < cycle.length
  chain : cycle.IsChain supers.Extends

theorem IsCycle.transGen {cycle : List ClassId} (h : supers.IsCycle c cycle) :
    Relation.TransGen supers.Extends c c := by
  obtain ⟨hhead, hlast, hlength, hchain⟩ := h
  match cycle with
  | [] | [_] => simp at hlength
  | a :: b :: rest =>
    cases hhead
    obtain ⟨hcb, hrest⟩ := List.isChain_cons_cons.mp hchain
    rw [List.getLast?_cons_cons, List.getLast?_eq_getLast_of_ne_nil (List.cons_ne_nil _ _)] at hlast
    exact .head' hcb (List.relationReflTransGen_of_exists_isChain_cons rest hrest
      (Option.some.inj hlast))

/-- A path that meets itself is a cycle from there on. -/
theorem isCycle_of_mem_path {path : List ClassId} (hmem : c ∈ path)
    (hchain : (path ++ [c]).IsChain supers.Extends) :
    supers.IsCycle c (path.dropWhile (· != c) ++ [c]) := by
  obtain ⟨before, after, rfl, hbefore⟩ := List.eq_append_cons_of_mem hmem
  have hother : ∀ a ∈ before, (a != c) = true := fun a ha =>
    bne_iff_ne.mpr fun hac => hbefore (hac ▸ ha)
  have hdrop : (before ++ c :: after).dropWhile (· != c) = c :: after := by
    rw [List.dropWhile_append_of_pos hother, List.dropWhile_cons_of_neg (by simp)]
  rw [List.append_assoc] at hchain
  rw [hdrop]
  exact ⟨rfl, List.getLast?_concat, by simp, hchain.right_of_append⟩

/-- Where the path leads to every class that is looked at, what the search tells is a cycle. -/
theorem Search.isCycle {path done cs cycle : List ClassId}
    (h : supers.Search path done cs (.error cycle))
    (hpath : ∀ c ∈ cs, (path ++ [c]).IsChain supers.Extends) :
    ∃ first, supers.IsCycle first cycle := by
  generalize hfound : Except.error cycle = found at h
  induction h with
  | done => cases hfound
  | pass _ _ ih => exact ih (fun c hc => hpath c (List.mem_cons_of_mem _ hc)) hfound
  | meet _ hmem =>
    cases hfound
    exact ⟨_, isCycle_of_mem_path hmem (hpath _ List.mem_cons_self)⟩
  | @fail path _ _ c _ _ _ _ ih =>
    refine ih (fun s hs => ?_) hfound
    refine List.isChain_append.mpr ⟨hpath c List.mem_cons_self, List.isChain_singleton s, ?_⟩
    simpa using mem_known.mp hs
  | visit _ _ _ _ _ ih => exact ih (fun c hc => hpath c (List.mem_cons_of_mem _ hc)) hfound

theorem isCycle_of_flatten_eq_error {cycle : List ClassId} (h : supers.flatten = .error cycle) :
    ∃ first, supers.IsCycle first cycle := by
  obtain ⟨found, hsearch, hflatten⟩ := search_flatten supers
  rw [hflatten] at h
  cases found with
  | ok done => cases h
  | error found =>
    cases h
    exact hsearch.isCycle fun c _ => List.isChain_singleton c

theorem not_transGen_extends (hwf : WellFounded fun s c => supers.Names c s) (c : ClassId) :
    ¬ Relation.TransGen supers.Extends c c := fun hc =>
  not_transGen_self hwf c (transGen_extends_iff.mp hc).2

/-! ## Ancestors -/

/-- What the list of the classes above `c` is. The recursive walk ends, and the list has its first
visits in their order. -/
structure ListsAbove (supers : Supertypes) (c : ClassId) (above : List ClassId) : Prop where
  nodup : above.Nodup
  not_mem : c ∉ above
  mem_iff : ∀ d, d ∈ above ↔ d < supers.size ∧ Relation.TransGen supers.Names c d
  walk : ∃ visits, Tour supers.of (List.range supers.size) (supers.of c) visits
  firstVisits : ∀ visits, Tour supers.of (List.range supers.size) (supers.of c) visits →
    above = visits.eraseDups

/-- With cycles or without, the list has what is reached through classes that exist. -/
theorem mem_ancestorsOf_iff_extends :
    d ∈ supers.ancestorsOf c ↔ Relation.TransGen supers.Extends c d := by
  rw [extends_eq_followsIn]
  exact Ordered.mem_preorder_next_iff_transGen

theorem listsAbove_ancestorsOf (hwf : WellFounded fun s c => supers.Names c s) (c : ClassId) :
    supers.ListsAbove c (supers.ancestorsOf c) where
  nodup := Ordered.nodup_preorder _ List.nodup_range
  not_mem h := not_transGen_extends hwf c (mem_ancestorsOf_iff_extends.mp h)
  mem_iff _ := mem_ancestorsOf_iff_extends.trans transGen_extends_iff
  walk := Tour.exists_of_wellFounded (hwf.mono fun _ _ h => h.1) _
  firstVisits visits hvisits := by
    have hacyclic := not_transGen_extends hwf
    rw [extends_eq_followsIn] at hacyclic
    exact Ordered.preorder_eq_eraseDups hacyclic List.nodup_range hvisits

/-- Every list of supertype lists is decided by a recursion that ends. It is rejected if and only
if the classes that exist have a cycle of supertypes, with a message that tells such a cycle by
name; otherwise every class gets the classes above it in the order of the recursive walk. -/
theorem flatten_decides (supers : Supertypes) (className : ClassId → String) :
    (∃ found, supers.Search [] [] (List.range supers.size) found ∧
      supers.flatten = found.map fun _ => (List.range supers.size).map supers.ancestorsOf) ∧
    ((∃ cycle, supers.flatten = .error cycle) ↔ ∃ c, Relation.TransGen supers.Extends c c) ∧
    (∀ cycle, supers.flatten = .error cycle → ∃ first, supers.IsCycle first cycle ∧
      cycleFault className cycle =
        .cyclicInheritance (className first) (" -> ".intercalate (cycle.map className))) ∧
    (∀ lists, supers.flatten = .ok lists → lists.length = supers.size ∧
      ∀ c above, lists[c]? = some above → supers.ListsAbove c above) := by
  refine ⟨search_flatten supers, ⟨?_, ?_⟩, fun cycle h => ?_, fun lists h => ?_⟩
  · rintro ⟨cycle, h⟩
    obtain ⟨first, hcycle⟩ := isCycle_of_flatten_eq_error h
    exact ⟨first, hcycle.transGen⟩
  · rintro ⟨c, hc⟩
    cases h : supers.flatten with
    | error cycle => exact ⟨cycle, rfl⟩
    | ok lists => exact absurd hc (not_transGen_extends (flatten_eq_ok h).1 c)
  · obtain ⟨first, hcycle⟩ := isCycle_of_flatten_eq_error h
    refine ⟨first, hcycle, ?_⟩
    rw [cycleFault, hcycle.head]
    rfl
  · obtain ⟨hwf, rfl⟩ := flatten_eq_ok h
    refine ⟨by simp, fun c above hc => ?_⟩
    obtain ⟨d, hd, rfl⟩ := Option.map_eq_some_iff.mp (List.getElem?_map.symm.trans hc)
    obtain ⟨hlt, rfl⟩ := List.getElem?_eq_some_iff.mp hd
    rw [List.getElem_range]
    exact listsAbove_ancestorsOf hwf c

/-- A class with two supertypes that share theirs, and with one more that does not exist. -/
def diamond : Supertypes := #[[], [0], [0], [1, 2, 9]]

/-- Two classes that are above each other, below a class that names one of them twice. -/
def looped : Supertypes := #[[], [0, 2, 2], [7, 3], [0, 2]]

theorem diamond_decides :
    (diamond.flatten = .ok [[], [0], [0], [1, 0, 2]] ∧ diamond.ListsAbove 3 [1, 0, 2]) ∧
    looped.flatten = .error [2, 3, 2] ∧ looped.IsCycle 2 [2, 3, 2] ∧
    cycleFault toString [2, 3, 2] = .cyclicInheritance "2" "2 -> 3 -> 2" := by
  have hok : diamond.flatten = .ok [[], [0], [0], [1, 0, 2]] := by cbv
  have hlooped : looped.flatten = .error [2, 3, 2] := by cbv
  obtain ⟨-, -, -, haccepted⟩ := flatten_decides diamond toString
  obtain ⟨-, -, hrejected, -⟩ := flatten_decides looped toString
  obtain ⟨first, hcycle, -⟩ := hrejected _ hlooped
  obtain rfl : 2 = first := Option.some.inj hcycle.head
  exact ⟨⟨hok, (haccepted _ hok).2 3 _ rfl⟩, hlooped, hcycle, by decide⟩

end Interlock.Program.Supertypes
