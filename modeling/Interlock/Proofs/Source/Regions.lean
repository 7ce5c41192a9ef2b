import Mathlib.Data.List.Perm.Basic
import Mathlib.Data.List.Perm.Subperm
import Interlock.Proofs.Text.Occurrence
import Interlock.Source.Script

/-! Guarded regions among the call sites of a method. Whatever waits, and wherever it becomes due, a
script leaves its call sites with properly nested pairs of calls: one pair for each of its regions,
with a number of its own, and between the two calls all that the region encloses. -/

namespace Interlock.Program.Expr

open Interlock.Text

/-- A guard and a number are read back from the field that stands for them. -/
theorem monitorField_inj {guard guard' : String} {number number' : Nat}
    (h : monitorField guard number = monitorField guard' number') :
    guard = guard' ∧ number = number' := by
  have hfree : ∀ n : Nat, ¬ ['_'] <:+: (toString n).toList.reverse := by
    intro n hmem
    rw [List.singleton_infix_iff, List.mem_reverse] at hmem
    exact absurd (isDigit_of_mem_toString hmem) (by decide)
  have hlist := congrArg String.toList h
  simp only [monitorField, String.toList_append, List.append_assoc, List.append_cancel_left_eq]
    at hlist
  -- digits have no separator, so that the last one stands before them
  have hreversed := congrArg List.reverse hlist
  simp only [List.reverse_append, List.append_assoc] at hreversed
  obtain ⟨hdigits, hguard⟩ := eq_of_append_mark_eq List.not_mem_nil (hfree number)
    (hfree number') (by simpa using hreversed)
  have hnumber := congrArg (fun ds => Nat.ofDigitChars 10 ds 0) (List.reverse_injective hdigits)
  exact ⟨String.toList_injective (List.reverse_injective hguard), by
    simpa [Nat.toString_eq_ofList_toDigits] using hnumber⟩

theorem monitorCall_inj {guard guard' : String} {number number' : Nat} {acquire acquire' : Bool}
    (h : monitorCall guard number acquire = monitorCall guard' number' acquire') :
    guard = guard' ∧ number = number' ∧ acquire = acquire' := by
  simp only [monitorCall, callOn.injEq, ident.injEq, and_true] at h
  obtain ⟨hguard, hnumber⟩ := monitorField_inj h.1
  refine ⟨hguard, hnumber, ?_⟩
  cases acquire <;> cases acquire' <;> simp at h ⊢

/-- The call enters or leaves a region. -/
def IsMonitorCall (e : Expr) : Prop := ∃ guard number acquire, e = monitorCall guard number acquire

end Interlock.Program.Expr

namespace Interlock.Source

open Interlock.Program

/-! ## Nested pairs -/

/-- The calls that enter and leave a region, with what stands between them. -/
structure Pair where
  guard : String
  number : Nat
  within : List Expr

namespace Pair

def enter (p : Pair) : Expr := .monitorCall p.guard p.number true

def leave (p : Pair) : Expr := .monitorCall p.guard p.number false

end Pair

/-- Call sites with nested pairs of calls that enter and leave regions; `sites` are the other call
sites. -/
inductive Nested : List Expr → List Pair → List Expr → Prop
  | nil : Nested [] [] []
  | site {e : Expr} {calls sites : List Expr} {pairs : List Pair} :
      ¬ e.IsMonitorCall → Nested calls pairs sites → Nested (e :: calls) pairs (e :: sites)
  | pair (p : Pair) {rest sites sites' : List Expr} {pairs pairs' : List Pair} :
      Nested p.within pairs sites → Nested rest pairs' sites' →
      Nested (p.enter :: (p.within ++ p.leave :: rest)) (p :: (pairs ++ pairs')) (sites ++ sites')

namespace Nested

variable {calls calls' sites sites' : List Expr} {pairs pairs' : List Pair}

theorem append (h : Nested calls pairs sites) (h' : Nested calls' pairs' sites') :
    Nested (calls ++ calls') (pairs ++ pairs') (sites ++ sites') := by
  induction h with
  | nil => exact h'
  | site he _ ih => exact .site he ih
  | pair p hinside _ _ ih =>
    simp only [List.cons_append, List.append_assoc]
    exact .pair p hinside ih

/-- The other call sites keep their order. -/
theorem sublist (h : Nested calls pairs sites) : sites.Sublist calls := by
  induction h with
  | nil => exact .slnil
  | site _ _ ih => exact ih.cons_cons _
  | pair p _ _ ih ih' => exact (ih.append (ih'.cons _)).cons _

/-- Every call that enters or leaves a region belongs to a pair. -/
theorem exists_pair (h : Nested calls pairs sites) {guard : String} {number : Nat} {acquire : Bool}
    (hmem : .monitorCall guard number acquire ∈ calls) :
    ∃ p ∈ pairs, p.guard = guard ∧ p.number = number := by
  induction h with
  | nil => cases hmem
  | site he _ ih =>
    rcases List.mem_cons.mp hmem with rfl | hmem
    · exact absurd ⟨_, _, _, rfl⟩ he
    · exact ih hmem
  | pair p _ _ ih ih' =>
    simp only [List.mem_cons, List.mem_append] at hmem
    rcases hmem with heq | hmem | heq | hmem
    · obtain ⟨rfl, rfl, -⟩ := Expr.monitorCall_inj heq
      exact ⟨p, List.mem_cons_self, rfl, rfl⟩
    · obtain ⟨q, hq, hnumber⟩ := ih hmem
      exact ⟨q, List.mem_cons_of_mem _ (List.mem_append_left _ hq), hnumber⟩
    · obtain ⟨rfl, rfl, -⟩ := Expr.monitorCall_inj heq
      exact ⟨p, List.mem_cons_self, rfl, rfl⟩
    · obtain ⟨q, hq, hnumber⟩ := ih' hmem
      exact ⟨q, List.mem_cons_of_mem _ (List.mem_append_right _ hq), hnumber⟩

/-- A number that no pair has. -/
theorem not_mem_of_number (h : Nested calls pairs sites) {number : Nat}
    (hnumber : number ∉ pairs.map (·.number)) (guard : String) (acquire : Bool) :
    .monitorCall guard number acquire ∉ calls := by
  intro hmem
  obtain ⟨p, hp, -, rfl⟩ := h.exists_pair hmem
  exact hnumber (List.mem_map_of_mem hp)

end Nested

/-- The pair stands among the call sites, properly nested itself, and no other call there enters or
leaves a region by its number. -/
structure Pair.ClosedIn (p : Pair) (calls : List Expr) : Prop where
  split : ∃ before after, calls = before ++ p.enter :: (p.within ++ p.leave :: after) ∧
    ∀ guard acquire, .monitorCall guard p.number acquire ∉ before ++ p.within ++ after
  nested : ∃ pairs sites, Nested p.within pairs sites

namespace Pair.ClosedIn

variable {p : Pair} {calls : List Expr}

theorem append (h : p.ClosedIn calls) (first last : List Expr)
    (hfirst : ∀ guard acquire, .monitorCall guard p.number acquire ∉ first)
    (hlast : ∀ guard acquire, .monitorCall guard p.number acquire ∉ last) :
    p.ClosedIn (first ++ calls ++ last) := by
  obtain ⟨⟨before, after, rfl, hfree⟩, hnested⟩ := h
  refine ⟨⟨first ++ before, after ++ last, by simp, fun guard acquire => ?_⟩, hnested⟩
  have := hfree guard acquire
  have := hfirst guard acquire
  have := hlast guard acquire
  simp_all

end Pair.ClosedIn

/-- With a number of its own, every pair is closed once. -/
theorem Nested.closedIn {calls sites : List Expr} {pairs : List Pair} (h : Nested calls pairs sites)
    (hnodup : (pairs.map (·.number)).Nodup) {p : Pair} (hp : p ∈ pairs) : p.ClosedIn calls := by
  induction h with
  | nil => cases hp
  | @site e calls sites pairs he _ ih =>
    have hfirst : ∀ guard acquire, .monitorCall guard p.number acquire ∉ [e] := by
      intro guard acquire hmem
      exact he ⟨guard, p.number, acquire, (List.mem_singleton.mp hmem).symm⟩
    simpa using (ih hnodup hp).append [e] [] hfirst (by simp)
  | @pair q rest sites sites' pairs pairs' hinside hrest ih ih' =>
    simp only [List.map_cons, List.map_append, List.nodup_cons, List.mem_append, not_or] at hnodup
    obtain ⟨⟨hq, hq'⟩, hnodup⟩ := hnodup
    obtain ⟨hnodup, hnodup', hdisjoint⟩ := List.nodup_append.mp hnodup
    -- the calls of `q` itself do not have the number of another pair
    have hother : ∀ {number : Nat}, number ≠ q.number → ∀ guard acquire,
        Expr.monitorCall guard number acquire ≠ q.enter ∧
          Expr.monitorCall guard number acquire ≠ q.leave := by
      intro number hne guard acquire
      exact ⟨fun heq => hne (Expr.monitorCall_inj heq).2.1,
        fun heq => hne (Expr.monitorCall_inj heq).2.1⟩
    rcases List.mem_cons.mp hp with rfl | hp
    · refine ⟨⟨[], rest, rfl, fun guard acquire => ?_⟩, _, _, hinside⟩
      rw [List.nil_append, List.mem_append, not_or]
      exact ⟨hinside.not_mem_of_number hq guard acquire, hrest.not_mem_of_number hq' guard acquire⟩
    rcases List.mem_append.mp hp with hp | hp
    · have hmem := List.mem_map_of_mem (f := (·.number)) hp
      have hne : p.number ≠ q.number := fun heq => hq (heq ▸ hmem)
      have := (ih hnodup hp).append [q.enter] (q.leave :: rest)
        (fun guard acquire => by simpa using (hother hne guard acquire).1)
        (fun guard acquire => by
          have hfree := hrest.not_mem_of_number (fun h => hdisjoint _ hmem _ h rfl) guard acquire
          simpa [hfree] using (hother hne guard acquire).2)
      simpa using this
    · have hmem := List.mem_map_of_mem (f := (·.number)) hp
      have hne : p.number ≠ q.number := fun heq => hq' (heq ▸ hmem)
      have := (ih' hnodup' hp).append (q.enter :: (q.within ++ [q.leave])) []
        (fun guard acquire => by
          have hfree := hinside.not_mem_of_number (fun h => hdisjoint _ h _ hmem rfl) guard acquire
          simpa [hfree] using hother hne guard acquire)
        (by simp)
      simpa using this

/-! ## Steps -/

namespace Script

mutual

def stepDeep : Step → List Step
  | .declaration inside => .declaration inside :: deep inside
  | .region guard inside => .region guard inside :: deep inside
  | .record value bodies => .record value bodies :: deepAll bodies
  | .bind v => [.bind v]
  | .declare v => [.declare v]
  | .method head body => [.method head body]

/-- The steps of a script at any depth. A method has a script of its own. -/
def deep : List Step → List Step
  | [] => []
  | step :: s => stepDeep step ++ deep s

def deepAll : List (List Step) → List Step
  | [] => []
  | s :: waiting => deep s ++ deepAll waiting

end

theorem deep_eq_flatMap (s : Script) : deep s = s.flatMap stepDeep := by
  induction s with
  | nil => rfl
  | cons step s ih => rw [deep, ih, List.flatMap_cons]

theorem deepAll_eq_flatMap (q : List Script) : deepAll q = q.flatMap deep := by
  induction q with
  | nil => rfl
  | cons s q ih => rw [deepAll, ih, List.flatMap_cons]

theorem deep_append (s s' : Script) : deep (s ++ s') = deep s ++ deep s' := by
  simp only [deep_eq_flatMap, List.flatMap_append]

theorem deepAll_append (q q' : List Script) : deepAll (q ++ q') = deepAll q ++ deepAll q' := by
  simp only [deepAll_eq_flatMap, List.flatMap_append]

theorem deep_flatMap {α : Type} (f : α → Script) (as : List α) :
    deep (as.flatMap f) = as.flatMap fun a => deep (f a) := by
  simp only [deep_eq_flatMap, List.flatMap_assoc]

/-- The call site that a step leaves, if its expression does not depend on numbers of regions. -/
def site? : Step → Option Expr
  | .record value _ => if (value 0).1.invokes then some (value 0).1 else none
  | _ => none

/-- The call sites that steps leave, regions apart. -/
def sites (steps : List Step) : List Expr := steps.filterMap site?

theorem sites_append (xs ys : List Step) : sites (xs ++ ys) = sites xs ++ sites ys :=
  List.filterMap_append

/-- An expression that is recorded is no call that enters or leaves a region. -/
def Quiet : Step → Prop
  | .record value _ => ¬ (value 0).1.IsMonitorCall ∧ ∀ number, value number = ((value 0).1, number)
  | _ => True

end Script

namespace Script

def region? : Step → Option (String × Script)
  | .region guard inside => some (guard, inside)
  | _ => none

/-- The regions among steps: their guards, and what they enclose. -/
def regions (steps : List Step) : List (String × Script) := steps.filterMap region?

end Script

/-- The pair stands for the region: between the two calls are, with others perhaps, the call sites
of all that the region encloses. -/
def Pair.Encloses (region : String × Script) (p : Pair) : Prop :=
  p.guard = region.1 ∧ (Script.sites (Script.deep region.2)).Subperm p.within

/-- Every region has its own pair, and every pair its region. -/
def Paired (regions : List (String × Script)) (pairs : List Pair) : Prop :=
  ∃ own, List.Forall₂ (fun region p => Pair.Encloses region p) regions own ∧ own.Perm pairs

namespace Paired

variable {regions regions' : List (String × Script)} {pairs pairs' : List Pair}

theorem nil : Paired [] [] := ⟨[], .nil, .nil⟩

theorem cons {region : String × Script} {p : Pair} (hfirst : p.Encloses region)
    (h : Paired regions pairs) : Paired (region :: regions) (p :: pairs) := by
  obtain ⟨own, hown, hperm⟩ := h
  exact ⟨p :: own, .cons hfirst hown, hperm.cons p⟩

theorem append (h : Paired regions pairs) (h' : Paired regions' pairs') :
    Paired (regions ++ regions') (pairs ++ pairs') := by
  obtain ⟨own, hown, hperm⟩ := h
  obtain ⟨own', hown', hperm'⟩ := h'
  exact ⟨own ++ own', List.rel_append hown hown', hperm.append hperm'⟩

theorem perm (h : Paired regions pairs) (hregions : regions.Perm regions') :
    Paired regions' pairs := by
  obtain ⟨own, hown, hperm⟩ := h
  obtain ⟨own', hown', hperm'⟩ := List.perm_comp_forall₂ hregions.symm hown
  exact ⟨own', hown', hperm'.trans hperm⟩

theorem exists_of_mem (h : Paired regions pairs) {region : String × Script}
    (hmem : region ∈ regions) : ∃ p ∈ pairs, p.Encloses region := by
  obtain ⟨own, hown, hperm⟩ := h
  have hexists : ∃ p ∈ own, p.Encloses region := by
    clear hperm
    induction hown with
    | nil => cases hmem
    | cons hfirst _ ih =>
      rcases List.mem_cons.mp hmem with rfl | hmem
      · exact ⟨_, List.mem_cons_self, hfirst⟩
      · obtain ⟨p, hp, hencloses⟩ := ih hmem
        exact ⟨p, List.mem_cons_of_mem _ hp, hencloses⟩
  obtain ⟨p, hp, hencloses⟩ := hexists
  exact ⟨p, hperm.mem_iff.mp hp, hencloses⟩

end Paired

/-! ## What a script adds -/

open Script

/-- `b'` is `b` after some steps were taken, in this order or another. -/
structure Adds (b b' : Body) (steps : List Step) : Prop where
  calls : ∃ added pairs found, b'.calls = b.calls ++ added ∧ Nested added pairs found ∧
    found.Perm (sites steps) ∧ Paired (regions steps) pairs ∧ (pairs.map (·.number)).Nodup ∧
    ∀ p ∈ pairs, b.nextRegion ≤ p.number ∧ p.number < b'.nextRegion
  nextRegion : b.nextRegion ≤ b'.nextRegion
  nested : ∃ more, b'.nested = b.nested ++ more ∧
    ∀ d ∈ more, ∃ head body, .method head body ∈ steps ∧ d = (run body [] {}).into head

namespace Adds

variable {b b' b'' : Body} {steps steps' : List Step}

/-- Steps that leave no call site. -/
theorem of_calls_eq (hcalls : b'.calls = b.calls) (hregion : b'.nextRegion = b.nextRegion)
    (hsites : sites steps = []) (hregions : regions steps = [])
    (hnested : ∃ more, b'.nested = b.nested ++ more ∧
      ∀ d ∈ more, ∃ head body, .method head body ∈ steps ∧ d = (run body [] {}).into head) :
    Adds b b' steps where
  calls := ⟨[], [], [], by simp [hcalls], .nil, by simp [hsites], hregions ▸ .nil,
    List.nodup_nil, by simp⟩
  nextRegion := Nat.le_of_eq hregion.symm
  nested := hnested

theorem refl (b : Body) : Adds b b [] :=
  of_calls_eq rfl rfl rfl rfl ⟨[], by simp, by simp⟩

theorem trans (h : Adds b b' steps) (h' : Adds b' b'' steps') : Adds b b'' (steps ++ steps') := by
  obtain ⟨added, pairs, found, hcalls, hnested, hfound, hpaired, hnodup, hrange⟩ := h.calls
  obtain ⟨added', pairs', found', hcalls', hnested', hfound', hpaired', hnodup', hrange'⟩ :=
    h'.calls
  obtain ⟨more, hmore, hmethods⟩ := h.nested
  obtain ⟨more', hmore', hmethods'⟩ := h'.nested
  refine ⟨⟨added ++ added', pairs ++ pairs', found ++ found', ?_, hnested.append hnested', ?_, ?_,
    ?_, fun p hp => ?_⟩, Nat.le_trans h.nextRegion h'.nextRegion, more ++ more', ?_, fun d hd => ?_⟩
  · rw [hcalls', hcalls, List.append_assoc]
  · rw [sites_append]
    exact hfound.append hfound'
  · rw [regions, List.filterMap_append]
    exact hpaired.append hpaired'
  · -- the numbers of the later pairs are above those of the earlier ones
    rw [List.map_append]
    refine List.nodup_append.mpr ⟨hnodup, hnodup', fun k hk k' hk' heq => ?_⟩
    obtain ⟨p, hp, rfl⟩ := List.mem_map.mp hk
    obtain ⟨p', hp', rfl⟩ := List.mem_map.mp hk'
    have hbelow := (hrange p hp).2
    have habove := (hrange' p' hp').1
    omega
  · rcases List.mem_append.mp hp with hp | hp
    · exact ⟨(hrange p hp).1, Nat.lt_of_lt_of_le (hrange p hp).2 h'.nextRegion⟩
    · exact ⟨Nat.le_trans h.nextRegion (hrange' p hp).1, (hrange' p hp).2⟩
  · rw [hmore', hmore, List.append_assoc]
  · rcases List.mem_append.mp hd with hd | hd
    · obtain ⟨head, body, hmem, rfl⟩ := hmethods d hd
      exact ⟨head, body, List.mem_append_left _ hmem, rfl⟩
    · obtain ⟨head, body, hmem, rfl⟩ := hmethods' d hd
      exact ⟨head, body, List.mem_append_right _ hmem, rfl⟩

/-- It does not matter in which order the steps are listed. -/
theorem perm (h : Adds b b' steps) (hperm : steps.Perm steps') : Adds b b' steps' := by
  obtain ⟨added, pairs, found, hcalls, hnested, hfound, hpaired, hnumbers⟩ := h.calls
  obtain ⟨more, hmore, hmethods⟩ := h.nested
  refine ⟨⟨added, pairs, found, hcalls, hnested, hfound.trans (hperm.filterMap _),
    hpaired.perm (hperm.filterMap _), hnumbers⟩, h.nextRegion, more, hmore, fun d hd => ?_⟩
  obtain ⟨head, body, hmem, hd⟩ := hmethods d hd
  exact ⟨head, body, hperm.mem_iff.mp hmem, hd⟩

/-- A recorded expression is a call site of its own, if it is one at all. -/
theorem record {value : Nat → Expr × Nat} {bodies : List Script}
    (h : Quiet (.record value bodies)) (b : Body) :
    Adds b (b.record (value 0).1) [.record value bodies] := by
  unfold Body.record
  split
  · next hinvokes =>
    refine ⟨⟨[(value 0).1], [], [(value 0).1], rfl, .site h.1 .nil, ?_, .nil, List.nodup_nil,
      by simp⟩, Nat.le_refl _, [], by simp, by simp⟩
    simp [sites, site?, hinvokes]
  · next hinvokes =>
    exact of_calls_eq rfl rfl (by simp [sites, site?, hinvokes]) rfl ⟨[], by simp, by simp⟩

theorem declaration {inside : Script} {f : Body → Body} (h : ∀ b, Adds b (f b) steps) (b : Body) :
    Adds b (b.declaration f) (.declaration inside :: steps) := by
  obtain ⟨hcalls, hregion, hnested⟩ := h { b with declared := [] }
  have hfirst : Adds b b [.declaration inside] :=
    of_calls_eq rfl rfl rfl rfl ⟨[], by simp, by simp⟩
  exact hfirst.trans ⟨hcalls, hregion, hnested⟩

/-- What a region encloses is left between the calls that enter and leave it. -/
theorem guarded {guard : String} {inside : Script} {f : Body → Body}
    (h : ∀ b, Adds b (f b) steps) (hinside : (deep inside).Sublist steps) (b : Body) :
    Adds b (b.guarded guard f) (.region guard inside :: steps) := by
  obtain ⟨⟨added, pairs, found, hcalls, hnested, hfound, hpaired, hnodup, hrange⟩, hregion,
    hmethods⟩ := h (({ b with nextRegion := b.nextRegion + 1 } : Body).addCall
      (.monitorCall guard b.nextRegion true))
  let pair : Pair := ⟨guard, b.nextRegion, added⟩
  refine ⟨⟨pair.enter :: (added ++ [pair.leave]), pair :: (pairs ++ []), found ++ [], ?_,
    .pair pair hnested .nil, ?_, ?_, ?_, fun p hp => ?_⟩, ?_, ?_⟩
  · show (f _).calls ++ [_] = _
    rw [hcalls]
    simp [Body.addCall, pair, Pair.enter, Pair.leave]
  · rw [List.append_nil]
    exact hfound
  · rw [List.append_nil]
    have hsites : (sites (deep inside)).Subperm found :=
      (hinside.filterMap site?).subperm.trans hfound.symm.subperm
    exact .cons ⟨rfl, hsites.trans hnested.sublist.subperm⟩ hpaired
  · rw [List.append_nil, List.map_cons, List.nodup_cons]
    refine ⟨fun hk => ?_, hnodup⟩
    obtain ⟨p, hp, heq⟩ := List.mem_map.mp hk
    have habove := (hrange p hp).1
    rw [heq] at habove
    exact Nat.lt_irrefl _ habove
  · rw [List.append_nil, List.mem_cons] at hp
    rcases hp with rfl | hp
    · exact ⟨Nat.le_refl _, hregion⟩
    · exact ⟨Nat.le_of_lt (hrange p hp).1, (hrange p hp).2⟩
  · exact Nat.le_trans (Nat.le_succ _) hregion
  · obtain ⟨more, hmore, hmethods⟩ := hmethods
    refine ⟨more, hmore, fun d hd => ?_⟩
    obtain ⟨head, body, hmem, hd⟩ := hmethods d hd
    exact ⟨head, body, List.mem_cons_of_mem _ hmem, hd⟩

end Adds

/-! ## Runs -/

namespace Script

/-- What becomes due during a script: all that waits, once an expression is recorded. -/
def due (s : Script) (waiting : List Script) : List Script := if records s then waiting else []

theorem deepAll_due (s : Script) (waiting : List Script) :
    deepAll (due s waiting) ++ deepAll (left s waiting) = deepAll waiting := by
  unfold due left
  cases records s <;> simp [deepAll]

/-- What becomes due during a whole becomes due during its first part or after it. -/
theorem deepAll_due_of_records {s s' whole : Script} (h : records whole = (records s || records s'))
    (waiting : List Script) :
    deepAll (due s waiting) ++ deepAll (due s' (left s waiting)) = deepAll (due whole waiting) := by
  unfold due left
  rw [h]
  cases records s <;> cases records s' <;> simp [deepAll]

/-- A script adds its own steps and those of what becomes due. -/
def RunAdds (s : Script) (waiting : List Script) (b : Body) : Prop :=
  (∀ step ∈ deep s ++ deepAll (due s waiting), Quiet step) →
    Adds b (run s waiting b) (deep s ++ deepAll (due s waiting))

/-- A first step, and the rest of the script after it. -/
theorem RunAdds.cons {step : Step} {s : Script} {waiting waiting' : List Script} {b b' : Body}
    (first : List Step) (hrun : run (step :: s) waiting b = run s waiting' b')
    (hfirst : (∀ x ∈ first, Quiet x) → Adds b b' first) (hrest : RunAdds s waiting' b')
    (hperm : (first ++ (deep s ++ deepAll (due s waiting'))).Perm
      (deep (step :: s) ++ deepAll (due (step :: s) waiting))) :
    RunAdds (step :: s) waiting b := by
  intro h
  rw [hrun]
  have hquiet : ∀ x ∈ first ++ (deep s ++ deepAll (due s waiting')), Quiet x :=
    fun x hx => h x (hperm.mem_iff.mp hx)
  refine ((hfirst fun x hx => ?_).trans (hrest fun x hx => ?_)).perm hperm
  · exact hquiet x (List.mem_append_left _ hx)
  · exact hquiet x (List.mem_append_right _ hx)

/-- A step that records nothing and encloses nothing. -/
theorem RunAdds.plain {step : Step} {s : Script} {waiting : List Script} {b b' : Body}
    (hrun : run (step :: s) waiting b = run s waiting b') (hdeep : stepDeep step = [step])
    (hrecords : stepRecords step = false) (hstep : Adds b b' [step])
    (hrest : RunAdds s waiting b') : RunAdds (step :: s) waiting b := by
  refine .cons [step] hrun (fun _ => hstep) hrest (List.Perm.of_eq ?_)
  rw [deep, hdeep, due, due, records, hrecords, Bool.false_or, List.append_assoc]

/-- What two parts of a script make due comes after their own steps, or between them. -/
theorem perm_due (xs ys due due' : List Step) :
    ((xs ++ due) ++ (ys ++ due')).Perm ((xs ++ ys) ++ (due ++ due')) := by
  simp only [List.append_assoc]
  refine List.Perm.append_left xs ?_
  rw [← List.append_assoc, ← List.append_assoc]
  exact List.perm_append_comm.append_right due'

/-- A step that encloses a script, and the rest after it. -/
theorem RunAdds.enclosing {step : Step} {inside s : Script} {waiting : List Script} {b b' : Body}
    (hrun : run (step :: s) waiting b = run s (left inside waiting) b')
    (hdeep : stepDeep step = step :: deep inside) (hrecords : stepRecords step = records inside)
    (hinside : ∀ b, RunAdds inside waiting b) (hrest : RunAdds s (left inside waiting) b')
    (hstep : (∀ b, Adds b (run inside waiting b) (deep inside ++ deepAll (due inside waiting))) →
      Adds b b' (step :: (deep inside ++ deepAll (due inside waiting)))) :
    RunAdds (step :: s) waiting b := by
  refine .cons _ hrun (fun hquiet => hstep fun b => hinside b fun x hx => ?_) hrest ?_
  · exact hquiet x (List.mem_cons_of_mem _ hx)
  · have hwhole : records (step :: s) = (records inside || records s) := by
      rw [records, hrecords]
    rw [deep, hdeep, ← deepAll_due_of_records hwhole waiting]
    exact (perm_due (deep inside) (deep s) _ _).cons step

theorem runAdds (s : Script) (waiting : List Script) (b : Body) : RunAdds s waiting b := by
  refine (run.mutual_induct RunAdds
    (fun waiting b => (∀ step ∈ deepAll waiting, Quiet step) →
      Adds b (drain waiting b) (deepAll waiting))
    ?nil ?bind ?declare ?declaration ?method ?record ?region ?empty ?drain).1 s waiting b
  case nil =>
    intro waiting b _
    rw [run]
    exact .refl b
  case bind =>
    intro v s waiting b ih
    refine .plain (by rw [run]) rfl rfl ?_ ih
    exact .of_calls_eq rfl rfl rfl rfl ⟨[], by simp [Body.addLocal], by simp⟩
  case declare =>
    intro v s waiting b ih
    refine .plain (by rw [run]) rfl rfl ?_ ih
    exact .of_calls_eq rfl rfl rfl rfl ⟨[], by simp [Body.declare], by simp⟩
  case declaration =>
    intro inside s waiting b hinside hrest
    exact .enclosing (by rw [run]) rfl rfl hinside hrest fun h => .declaration h b
  case method =>
    intro head body s waiting b _ ih
    refine .plain (by rw [run]) rfl rfl ?_ ih
    exact .of_calls_eq rfl rfl rfl rfl
      ⟨[_], rfl, fun d hd => ⟨head, body, List.mem_singleton_self _, List.mem_singleton.mp hd⟩⟩
  case record =>
    intro value bodies s waiting b e next hvalue hdrain hrest
    refine .cons (.record value bodies :: deepAll (waiting ++ bodies)) (by rw [run, hvalue])
      (fun hquiet => ?_) hrest ?_
    · have hrecord := hquiet (.record value bodies) List.mem_cons_self
      obtain ⟨rfl, rfl⟩ := Prod.mk.inj (hvalue.symm.trans (hrecord.2 b.nextRegion))
      exact (Adds.record hrecord b).trans (hdrain fun x hx => hquiet x (List.mem_cons_of_mem _ hx))
    · have hnone : due s [] = [] := by simp [due]
      rw [hnone, deepAll, List.append_nil, deepAll_append, deep, stepDeep, due, records,
        stepRecords]
      simp only [Bool.true_or, if_true, List.cons_append, List.append_assoc]
      refine List.Perm.cons _ ?_
      rw [← List.append_assoc (deepAll bodies)]
      exact List.perm_append_comm
  case region =>
    intro guard inside s waiting b hinside hrest
    exact .enclosing (by rw [run]) rfl rfl hinside hrest fun h =>
      .guarded h (List.sublist_append_left _ _) b
  case empty =>
    intro b _
    rw [drain]
    exact .refl b
  case drain =>
    intro s waiting b hrun hdrain h
    rw [drain]
    rw [deepAll, ← deepAll_due s waiting, ← List.append_assoc] at h ⊢
    exact (hrun fun x hx => h x (List.mem_append_left _ hx)).trans
      (hdrain fun x hx => h x (List.mem_append_right _ hx))

end Script

end Interlock.Source
