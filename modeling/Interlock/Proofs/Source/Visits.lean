import Interlock.Proofs.Source.Lowering

/-! Which nodes the lowering of a method comes to. Every statement that it comes to and that is
lowered as a region has a pair of calls among the call sites of the method, with the call sites of
its body between them. -/

namespace Interlock.Source

open Interlock.Program Script

/-- A node is lowered as an expression or as a statement. -/
inductive Role where
  | expression
  | statement

def Grammar.lowered (g : Grammar) : Role → Node → Script
  | .expression, n => (g.expr n).record
  | .statement, n => g.statement n

section Node

variable {n : Node}

/-- What is lowered with an expression. The body of a lambda is lowered with it, whenever it becomes
due. -/
def Form.visits (isBlock : Node → Bool) (f : Form n) : List (Role × n.Below) :=
  f.parts.map (Role.expression, ·) ++
    (f.body.map fun m => (if isBlock m.toNode then Role.statement else .expression, m)).toList

def Task.visits : Task n → List (Role × n.Below)
  | .statement m => [(.statement, m)]
  | .record m | .assign _ m => [(.expression, m)]
  | .recordAll ms => ms.map (Role.expression, ·)
  | .declare vs => vs.filterMap fun d => d.2.map (Role.expression, ·)
  | .region _ inside => inside.map (Role.statement, ·)
  | .bind _ | .method _ => []

def MethodPlan.visits (p : MethodPlan n) : List (Role × n.Below) :=
  (p.initializer.map (Role.expression, ·)).toList ++ (p.body.map (Role.statement, ·)).toList

end Node

/-- The lowering of a method comes to a node. Methods that are declared in it have a lowering of
their own. -/
inductive Grammar.Visits (g : Grammar) {n : Node} (p : MethodPlan n) : Role → Node → Prop
  | start {role : Role} {m : n.Below} : (role, m) ∈ p.visits → Visits g p role m.toNode
  | part {k : Node} {f : Form k} {role : Role} {m : k.Below} : Visits g p .expression k →
      g.shape k = .form f → (role, m) ∈ f.visits g.isBlock → Visits g p role m.toNode
  | task {k : Node} {ts : List (Task k)} {t : Task k} {role : Role} {m : k.Below} :
      Visits g p .statement k → g.tasks k = some ts → t ∈ ts → (role, m) ∈ t.visits →
      Visits g p role m.toNode
  | expression {k : Node} : Visits g p .statement k → g.tasks k = none → Visits g p .expression k

/-! ## Regions of scripts -/

namespace Script

/-- The regions of a script, at any depth. -/
def allRegions (s : Script) : List (String × Script) := regions (deep s)

theorem allRegions_append (s s' : Script) :
    allRegions (s ++ s') = allRegions s ++ allRegions s' := by
  rw [allRegions, deep_append, regions, List.filterMap_append]
  rfl

variable {region : String × Script}

theorem mem_regions_flatMap {α : Type} {f : α → List Step} {as : List α} :
    region ∈ regions (as.flatMap f) ↔ ∃ a ∈ as, region ∈ regions (f a) := by
  simp only [regions, List.filterMap_flatMap, List.mem_flatMap]

theorem mem_allRegions_flatMap {α : Type} {f : α → Script} {as : List α} :
    region ∈ allRegions (as.flatMap f) ↔ ∃ a ∈ as, region ∈ allRegions (f a) := by
  rw [allRegions, deep_flatMap]
  exact mem_regions_flatMap

theorem mem_regions_deepAll {bodies : List Script} :
    region ∈ regions (deepAll bodies) ↔ ∃ s ∈ bodies, region ∈ allRegions s := by
  rw [deepAll_eq_flatMap]
  exact mem_regions_flatMap

theorem mem_allRegions_record {e : Lowered} :
    region ∈ allRegions e.record ↔
      region ∈ allRegions e.steps ∨ ∃ s ∈ e.bodies, region ∈ allRegions s := by
  rw [Lowered.record, allRegions_append, List.mem_append, ← mem_regions_deepAll]
  simp [allRegions, deep, stepDeep, regions, region?]

/-- The regions of the parts of an expression. -/
theorem mem_allRegions_join {make : List Expr → Expr} {parts : List Lowered} {e : Lowered}
    (he : e ∈ parts) (h : region ∈ allRegions e.record) :
    region ∈ allRegions (Lowered.join make parts).record := by
  rw [mem_allRegions_record] at h ⊢
  rcases h with h | ⟨s, hs, h⟩
  · exact .inl (mem_allRegions_flatMap.mpr ⟨e, he, h⟩)
  · exact .inr ⟨s, List.mem_flatMap.mpr ⟨e, he, hs⟩, h⟩

/-- Other steps before the expression is recorded do not matter. -/
theorem mem_allRegions_record_after {e : Lowered} (h : region ∈ allRegions e.record) (s : Script) :
    region ∈ allRegions (e.steps ++ (s ++ [.record e.value e.bodies])) := by
  rw [Lowered.record, allRegions_append, List.mem_append] at h
  simp only [allRegions_append, List.mem_append]
  exact h.imp id .inr

/-- The regions of what a step encloses. -/
theorem mem_allRegions_enclosing {step : Step} {inside : Script}
    (hdeep : stepDeep step = step :: deep inside) (h : region ∈ allRegions inside) :
    region ∈ allRegions [step] := by
  rw [allRegions, deep, deep, List.append_nil, hdeep]
  exact (List.sublist_cons_self step _).filterMap region? |>.subset h

end Script

/-! ## Visits -/

section Node

variable {n : Node} {expr : n.Below → Lowered} {statement : n.Below → Script}
variable {region : String × Script} {v : Role × n.Below}

/-- The script that a node below another one is lowered to. -/
def lowerAs (expr : n.Below → Lowered) (statement : n.Below → Script) : Role × n.Below → Script
  | (.expression, m) => (expr m).record
  | (.statement, m) => statement m

theorem Form.mem_allRegions {isBlock : Node → Bool} {f : Form n} (hv : v ∈ f.visits isBlock)
    (h : region ∈ allRegions (lowerAs expr statement v)) :
    region ∈ allRegions (f.lower expr statement isBlock).record := by
  rcases List.mem_append.mp hv with hv | hv
  · obtain ⟨m, hm, rfl⟩ := List.mem_map.mp hv
    have hjoin : region ∈ allRegions (Lowered.join f.make (f.parts.map expr)).record :=
      mem_allRegions_join (List.mem_map_of_mem hm) h
    rw [mem_allRegions_record] at hjoin ⊢
    rcases hjoin with hsteps | ⟨s, hs, hbody⟩
    · rw [Form.lower, allRegions_append, allRegions_append]
      exact .inl (List.mem_append_left _ (List.mem_append_left _ hsteps))
    · exact .inr ⟨s, List.mem_append_left _ hs, hbody⟩
  · rw [mem_allRegions_record]
    refine .inr ⟨lowerAs expr statement v, List.mem_append_right _ ?_, h⟩
    obtain ⟨m, hm, rfl⟩ := Option.map_eq_some_iff.mp (Option.mem_toList.mp hv)
    rw [hm]
    cases hblock : isBlock m.toNode <;> simp [lowerAs, hblock]

theorem Task.mem_allRegions {t : Task n} (hv : v ∈ t.visits)
    (h : region ∈ allRegions (lowerAs expr statement v)) :
    region ∈ allRegions (t.script expr statement) := by
  cases t with
  | statement m =>
    obtain rfl := List.mem_singleton.mp hv
    exact h
  | record m =>
    obtain rfl := List.mem_singleton.mp hv
    exact h
  | recordAll ms =>
    obtain ⟨m, hm, rfl⟩ := List.mem_map.mp hv
    exact mem_allRegions_join (List.mem_map_of_mem hm) h
  | bind _ => cases hv
  | assign w m =>
    obtain rfl := List.mem_singleton.mp hv
    exact mem_allRegions_record_after h [_]
  | declare vs =>
    obtain ⟨d, hd, hvalue⟩ := List.mem_filterMap.mp hv
    obtain ⟨m, hm, rfl⟩ := Option.map_eq_some_iff.mp hvalue
    refine mem_allRegions_enclosing rfl (mem_allRegions_flatMap.mpr ⟨d, hd, ?_⟩)
    rw [declarator, hm]
    exact mem_allRegions_record_after h [_]
  | region guard inside =>
    obtain ⟨m, hm, rfl⟩ := List.mem_map.mp hv
    exact mem_allRegions_enclosing rfl (mem_allRegions_flatMap.mpr ⟨m, hm, h⟩)
  | method _ => cases hv

theorem MethodPlan.mem_allRegions {p : MethodPlan n} (hv : v ∈ p.visits)
    (h : region ∈ allRegions (lowerAs expr statement v)) :
    region ∈ allRegions (p.script expr statement) := by
  rw [MethodPlan.script, allRegions_append, List.mem_append]
  rcases List.mem_append.mp hv with hv | hv
  · obtain ⟨m, hm, rfl⟩ := Option.map_eq_some_iff.mp (Option.mem_toList.mp hv)
    rw [hm]
    exact .inl h
  · obtain ⟨m, hm, rfl⟩ := Option.map_eq_some_iff.mp (Option.mem_toList.mp hv)
    rw [hm]
    refine .inr ?_
    split
    · exact mem_allRegions_enclosing rfl h
    · exact h

end Node

namespace Grammar

variable {g : Grammar} {n : Node} {p : MethodPlan n} {role : Role} {m : Node}

theorem lowered_eq_lowerAs (g : Grammar) (role : Role) (m : n.Below) :
    g.lowered role m.toNode =
      lowerAs (fun m => g.expr m.toNode) (fun m => g.statement m.toNode) (role, m) := by
  cases role <;> rfl

/-- The regions of what the lowering comes to are regions of the method. -/
theorem Visits.mem_allRegions (hvisits : g.Visits p role m) {region : String × Script}
    (h : region ∈ allRegions (g.lowered role m)) : region ∈ allRegions (g.script p) := by
  induction hvisits with
  | start hv =>
    rw [lowered_eq_lowerAs] at h
    exact MethodPlan.mem_allRegions hv h
  | part _ hshape hv ih =>
    rw [lowered_eq_lowerAs] at h
    apply ih
    rw [lowered, expr]
    simp only [hshape]
    exact Form.mem_allRegions hv h
  | task _ htasks ht hv ih =>
    rw [lowered_eq_lowerAs] at h
    apply ih
    rw [lowered, statement]
    simp only [htasks]
    exact mem_allRegions_flatMap.mpr ⟨_, ht, Task.mem_allRegions hv h⟩
  | expression _ htasks ih =>
    apply ih
    rw [lowered, statement]
    simp only [htasks]
    exact h

/-- A statement that is lowered as a region is one of the regions of the method. -/
theorem Visits.region_mem (hvisits : g.Visits p .statement m) {ts : List (Task m)}
    (htasks : g.tasks m = some ts) {guard : String} {inside : List m.Below}
    (hregion : .region guard inside ∈ ts) :
    (guard, inside.flatMap fun k => g.statement k.toNode) ∈ allRegions (g.script p) := by
  refine hvisits.mem_allRegions ?_
  rw [lowered, statement]
  simp only [htasks]
  refine mem_allRegions_flatMap.mpr ⟨_, hregion, ?_⟩
  simp [Task.script, allRegions, deep, stepDeep, regions, region?]

/-! ## Methods -/

/-- The call sites of a method stand in properly nested pairs of calls, one for each of its regions
and each with a number of its own. -/
structure Balances (g : Grammar) {n : Node} (p : MethodPlan n) (calls : List Expr)
    (pairs : List Pair) : Prop where
  nested : ∃ others, Nested calls pairs others ∧ others.Perm (sites (deep (g.script p)))
  numbers : (pairs.map (·.number)).Nodup
  paired : Paired (allRegions (g.script p)) pairs

namespace Balances

variable {calls : List Expr} {pairs : List Pair}

theorem closedIn (h : g.Balances p calls pairs) {q : Pair} (hq : q ∈ pairs) : q.ClosedIn calls := by
  obtain ⟨others, hnested, -⟩ := h.nested
  exact hnested.closedIn h.numbers hq

/-- No call enters or leaves a region on its own. -/
theorem exists_pair (h : g.Balances p calls pairs) {guard : String} {number : Nat} {acquire : Bool}
    (hmem : .monitorCall guard number acquire ∈ calls) :
    ∃ q ∈ pairs, q.guard = guard ∧ q.number = number := by
  obtain ⟨others, hnested, -⟩ := h.nested
  exact hnested.exists_pair hmem

theorem exists_encloses (h : g.Balances p calls pairs) (hvisits : g.Visits p .statement m)
    {ts : List (Task m)} (htasks : g.tasks m = some ts) {guard : String} {inside : List m.Below}
    (hregion : .region guard inside ∈ ts) :
    ∃ q ∈ pairs, q.Encloses (guard, inside.flatMap fun k => g.statement k.toNode) :=
  h.paired.exists_of_mem (hvisits.region_mem htasks hregion)

end Balances

variable {root : Node}

/-- What a script adds to an empty body, for a method. -/
theorem adds_script (h : ∀ n, root.Contains n → (g.shape n).Unmarked) (hn : root.Contains n)
    (p : MethodPlan n) :
    g.KnowsAll root (deep (g.script p)) ∧ Adds {} (run (g.script p) [] {}) (deep (g.script p)) := by
  have hbelow (k : n.Below) := knows_lowered h k.toNode (hn.below k)
  have hknows : g.KnowsAll root (deep (g.script p)) :=
    knowsAll_script (fun k => (hbelow k).1) (fun k => (hbelow k).2) p
  have hdue : deep (g.script p) ++ deepAll (due (g.script p) []) = deep (g.script p) := by
    simp [due, deepAll]
  have hadds := runAdds (g.script p) [] {}
  rw [RunAdds, hdue] at hadds
  exact ⟨hknows, hadds fun step hstep => (hknows step hstep).quiet⟩

theorem exists_balances (h : ∀ n, root.Contains n → (g.shape n).Unmarked) (hn : root.Contains n)
    (p : MethodPlan n) : ∃ pairs, g.Balances p (g.method p).calls pairs := by
  obtain ⟨added, pairs, found, hcalls, hnested, hfound, hpaired, hnumbers, -⟩ :=
    (adds_script h hn p).2.calls
  refine ⟨pairs, ⟨found, ?_, hfound⟩, hnumbers, hpaired⟩
  have hmethod : (g.method p).calls = added := by
    simp [method, Body.into, p.bare.1, hcalls]
  rw [hmethod]
  exact hnested

variable (g root) in
/-- The declaration is that of a method of the tree. -/
def IsMethod (d : MethodDecl) : Prop :=
  ∃ n, root.Contains n ∧ ∃ p ∈ g.plans n, d = g.method p

/-- The methods that are declared in a method. -/
theorem IsMethod.nested (h : ∀ n, root.Contains n → (g.shape n).Unmarked) {d e : MethodDecl}
    (hd : g.IsMethod root d) (he : e ∈ d.nested) : g.IsMethod root e := by
  obtain ⟨n, hn, p, -, rfl⟩ := hd
  obtain ⟨hknows, hadds⟩ := adds_script h hn p
  obtain ⟨more, hmore, hmethods⟩ := hadds.nested
  have hmem : e ∈ more := by
    simpa [method, Body.into, p.bare.2, hmore] using he
  obtain ⟨head, body, hstep, rfl⟩ := hmethods e hmem
  obtain ⟨k, hk, q, hq, rfl, rfl⟩ := hknows _ hstep
  exact ⟨k, hk, q, hq, rfl⟩

end Grammar

end Interlock.Source
