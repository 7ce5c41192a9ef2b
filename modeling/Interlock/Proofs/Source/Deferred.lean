import Interlock.Proofs.Source.Regions
import Interlock.Source.Java

/-! The order of call sites when an expression with lambdas is recorded. Its own call site comes
first. The bodies of the lambdas follow in turn as long as in each but the last nothing comes after
the first expression that it records, for there the bodies become due that wait behind it. -/

namespace Interlock.Source

open Interlock.Program

namespace Script

/-! ## Call sites -/

/-- The call sites of a body, and the number of the next region. -/
def flow (b : Body) : List Expr × Nat := (b.calls, b.nextRegion)

/-- `c` has the call sites of `b` and more, the same as `c'` has beyond `b'`. -/
def SameCalls (b c b' c' : Body) : Prop :=
  c.nextRegion = c'.nextRegion ∧
    ∃ added, c.calls = b.calls ++ added ∧ c'.calls = b'.calls ++ added

namespace SameCalls

variable {a b c a' b' c' : Body}

theorem refl (h : b.nextRegion = b'.nextRegion) : SameCalls b b b' b' :=
  ⟨h, [], by simp, by simp⟩

theorem trans (h : SameCalls a b a' b') (h' : SameCalls b c b' c') : SameCalls a c a' c' := by
  obtain ⟨-, added, hb, hb'⟩ := h
  obtain ⟨hregion, more, hc, hc'⟩ := h'
  exact ⟨hregion, added ++ more, by rw [hc, hb, List.append_assoc],
    by rw [hc', hb', List.append_assoc]⟩

theorem record (b b' : Body) (e : Expr) (next : Nat) :
    SameCalls b (({ b with nextRegion := next } : Body).record e) b'
      (({ b' with nextRegion := next } : Body).record e) := by
  unfold Body.record
  split
  · exact ⟨rfl, [e], rfl, rfl⟩
  · exact ⟨rfl, [], by simp, by simp⟩

theorem addCall (h : SameCalls a b a' b') (e : Expr) :
    SameCalls a (b.addCall e) a' (b'.addCall e) := by
  obtain ⟨hregion, added, hb, hb'⟩ := h
  exact ⟨hregion, added ++ [e], by simp [Body.addCall, hb], by simp [Body.addCall, hb']⟩

theorem guarded {f : Body → Body} (guard : String)
    (h : ∀ b b', b.nextRegion = b'.nextRegion → SameCalls b (f b) b' (f b'))
    (hregion : b.nextRegion = b'.nextRegion) :
    SameCalls b (b.guarded guard f) b' (b'.guarded guard f) := by
  unfold Body.guarded
  dsimp only
  rw [hregion]
  have hnext : SameCalls b { b with nextRegion := b'.nextRegion + 1 } b'
      { b' with nextRegion := b'.nextRegion + 1 } := ⟨rfl, [], by simp, by simp⟩
  have hinside := (hnext.addCall (.monitorCall guard b'.nextRegion true)).trans (h _ _ rfl)
  exact hinside.addCall _

end SameCalls

/-- What a script adds to the call sites depends on the number of the next region only. -/
theorem sameCalls_run_drain :
    (∀ (s : Script) (waiting : List Script) (b b' : Body), b.nextRegion = b'.nextRegion →
      SameCalls b (run s waiting b) b' (run s waiting b')) ∧
    ∀ (waiting : List Script) (b b' : Body), b.nextRegion = b'.nextRegion →
      SameCalls b (drain waiting b) b' (drain waiting b') := by
  refine run.mutual_induct _ _ ?nil ?bind ?declare ?declaration ?method ?record ?region ?empty
    ?drain
  case nil =>
    intro waiting b b' h
    rw [run, run]
    exact .refl h
  case bind =>
    intro v s waiting b ih b' h
    rw [run, run]
    exact ih _ h
  case declare =>
    intro v s waiting b ih b' h
    rw [run, run]
    exact ih _ h
  case declaration =>
    intro inside s waiting b hinside hrest b' h
    rw [run, run]
    have hfirst := hinside { b with declared := [] } { b' with declared := [] } h
    exact hfirst.trans (hrest _ hfirst.1)
  case method =>
    intro head body s waiting b _ ih b' h
    rw [run, run]
    exact ih _ h
  case record =>
    intro value bodies s waiting b e next hvalue hdrain hrest b' h
    rw [run, run, ← h, hvalue]
    have hown := SameCalls.record b b' e next
    have hdue := hdrain _ hown.1
    exact (hown.trans hdue).trans (hrest _ hdue.1)
  case region =>
    intro guard inside s waiting b hinside hrest b' h
    rw [run, run]
    have hfirst := SameCalls.guarded guard hinside h
    exact hfirst.trans (hrest _ hfirst.1)
  case empty =>
    intro b b' h
    rw [drain, drain]
    exact .refl h
  case drain =>
    intro s waiting b hrun hdrain b' h
    rw [drain, drain]
    have hfirst := hrun b' h
    exact hfirst.trans (hdrain _ hfirst.1)

theorem flow_run {s : Script} {waiting : List Script} {b b' : Body} (h : flow b = flow b') :
    flow (run s waiting b) = flow (run s waiting b') := by
  obtain ⟨hcalls, hregion⟩ := Prod.mk.inj h
  obtain ⟨hnext, added, hb, hb'⟩ := sameCalls_run_drain.1 s waiting b b' hregion
  simp only [flow, hb, hb', hcalls, hnext]

theorem flow_drain {waiting : List Script} {b b' : Body} (h : flow b = flow b') :
    flow (drain waiting b) = flow (drain waiting b') := by
  obtain ⟨hcalls, hregion⟩ := Prod.mk.inj h
  obtain ⟨hnext, added, hb, hb'⟩ := sameCalls_run_drain.2 waiting b b' hregion
  simp only [flow, hb, hb', hcalls, hnext]

/-! ## Bodies in turn -/

/-- The call sites that a script leaves on its own, and the number of the next region then. -/
def callsFrom (s : Script) (number : Nat) : List Expr × Nat :=
  flow (run s [] { nextRegion := number })

/-- The call sites of bodies, one body after the other. -/
def inTurn : List Script → Nat → List Expr
  | [], _ => []
  | s :: waiting, number => (callsFrom s number).1 ++ inTurn waiting (callsFrom s number).2

theorem flow_run_eq (s : Script) (b : Body) :
    flow (run s [] b) =
      (b.calls ++ (callsFrom s b.nextRegion).1, (callsFrom s b.nextRegion).2) := by
  obtain ⟨hnext, added, hb, halone⟩ :=
    sameCalls_run_drain.1 s [] b { nextRegion := b.nextRegion } rfl
  simp only [callsFrom, flow, hb, hnext, halone, List.nil_append]

mutual

def stepBrief : Step → Bool
  | .record _ bodies => bodies.isEmpty
  | .declaration inside => brief inside
  | _ => false

/-- Nothing comes after the first expression that is recorded, and it has no lambdas. -/
def brief : List Step → Bool
  | [] => true
  | step :: s => if stepRecords step then stepBrief step && s.isEmpty else brief s

end

theorem brief_of_not_records {s : Script} (h : records s = false) : brief s = true := by
  induction s with
  | nil => rfl
  | cons step s ih =>
    obtain ⟨hstep, hrest⟩ := Bool.or_eq_false_iff.mp h
    simpa [brief, hstep] using ih hrest

theorem flow_declaration {f f' : Body → Body} (h : ∀ b, flow (f b) = flow (f' b)) (b : Body) :
    flow (b.declaration f) = flow (b.declaration f') := h _

theorem flow_guarded {f f' : Body → Body} (h : ∀ b, flow (f b) = flow (f' b)) (b : Body)
    (guard : String) : flow (b.guarded guard f) = flow (b.guarded guard f') := by
  let entered := ({ b with nextRegion := b.nextRegion + 1 } : Body).addCall
    (.monitorCall guard b.nextRegion true)
  obtain ⟨hcalls, hregion⟩ := Prod.mk.inj (h entered)
  show ((f entered).calls ++ [_], (f entered).nextRegion) = ((f' entered).calls ++ [_], _)
  rw [hcalls, hregion]
  rfl

/-- What waits comes after the script. -/
def WaitsAfter (s : Script) (waiting : List Script) (b : Body) : Prop :=
  flow (run s waiting b) = flow (drain (due s waiting) (run s [] b))

/-- A first step that encloses a script which records nothing, and the rest after it. -/
theorem WaitsAfter.cons {step : Step} {inside s : Script} {waiting : List Script} {b c c' : Body}
    (hrun : run (step :: s) waiting b = run s (left inside waiting) c)
    (halone : run (step :: s) [] b = run s (left inside []) c')
    (hstep : stepRecords step = records inside) (hrecords : records inside = false)
    (hinside : ∀ b, WaitsAfter inside waiting b)
    (hflow : (∀ b, flow (run inside waiting b) = flow (run inside [] b)) → flow c = flow c')
    (hrest : WaitsAfter s (left inside waiting) c) : WaitsAfter (step :: s) waiting b := by
  have hleft : ∀ q, left inside q = q := by
    intro q
    simp [left, hrecords]
  have hdue : due (step :: s) waiting = due s waiting := by
    simp [due, records, hstep, hrecords]
  have hsame : ∀ b, flow (run inside waiting b) = flow (run inside [] b) := by
    intro b
    simpa [WaitsAfter, due, hrecords, drain] using hinside b
  unfold WaitsAfter at hrest ⊢
  rw [hleft] at hrun halone hrest
  rw [hrun, halone, hdue, hrest]
  exact flow_drain (flow_run (hflow hsame))

theorem waitsAfter_of_brief {s : Script} (waiting : List Script) (b : Body)
    (h : brief s = true) : WaitsAfter s waiting b := by
  revert h
  refine (run.mutual_induct (fun s waiting b => brief s = true → WaitsAfter s waiting b)
    (fun _ _ => True) ?nil ?bind ?declare ?declaration ?method ?record ?region (fun _ => trivial)
    fun _ _ _ _ _ => trivial).1 s waiting b
  case nil =>
    intro waiting b _
    simp [WaitsAfter, run, due, records, drain]
  case bind =>
    intro v s waiting b ih h
    rw [WaitsAfter, run, run]
    exact ih h
  case declare =>
    intro v s waiting b ih h
    rw [WaitsAfter, run, run]
    exact ih h
  case declaration =>
    intro inside s waiting b hinside hrest h
    cases hrecords : records inside with
    | false =>
      have hs : brief s = true := by simpa [brief, stepRecords, hrecords] using h
      exact .cons (by rw [run]) (by rw [run]) rfl hrecords
        (fun b => hinside b (brief_of_not_records hrecords))
        (fun hsame => flow_declaration hsame b) (hrest hs)
    | true =>
      obtain ⟨hbrief, rfl⟩ : brief inside = true ∧ s = [] := by
        simpa [brief, stepRecords, stepBrief, hrecords] using h
      have hinside := hinside { b with declared := [] } hbrief
      simp only [WaitsAfter, due, records, stepRecords, hrecords, Bool.true_or, if_true, run]
        at hinside ⊢
      exact hinside.trans (flow_drain rfl)
  case method =>
    intro head body s waiting b _ ih h
    rw [WaitsAfter, run, run]
    exact ih h
  case record =>
    intro value bodies s waiting b e next hvalue hdrain hrest h
    obtain ⟨rfl, rfl⟩ : bodies = [] ∧ s = [] := by
      simpa [brief, stepRecords, stepBrief] using h
    simp [WaitsAfter, run, due, records, stepRecords, drain]
  case region =>
    intro guard inside s waiting b hinside hrest h
    cases hrecords : records inside with
    | false =>
      have hs : brief s = true := by simpa [brief, stepRecords, hrecords] using h
      exact .cons (by rw [run]) (by rw [run]) rfl hrecords
        (fun b => hinside b (brief_of_not_records hrecords))
        (fun hsame => flow_guarded hsame b guard) (hrest hs)
    | true => simp [brief, stepRecords, stepBrief, hrecords] at h

theorem flow_drain_cons {s : Script} (h : brief s = true) (waiting : List Script) (b : Body) :
    flow (drain (s :: waiting) b) = flow (drain waiting (run s [] b)) := by
  rw [drain]
  have hrun := waitsAfter_of_brief waiting b h
  unfold WaitsAfter due at hrun
  unfold left
  cases hrecords : records s with
  | false =>
    rw [hrecords] at hrun
    exact flow_drain (by simpa [drain] using hrun)
  | true => simpa [drain, hrecords] using hrun

/-- Bodies are lowered in turn if each but the last is brief. -/
theorem calls_drain {bodies : List Script} (h : ∀ s ∈ bodies.dropLast, brief s = true) (b : Body) :
    (drain bodies b).calls = b.calls ++ inTurn bodies b.nextRegion := by
  induction bodies generalizing b with
  | nil => simp [drain, inTurn]
  | cons s rest ih =>
    obtain ⟨hcalls, hnext⟩ := Prod.mk.inj (flow_run_eq s b)
    cases rest with
    | nil =>
      have hleft : left s [] = [] := by simp [left]
      rw [drain, hleft, drain, hcalls, inTurn, inTurn, List.append_nil]
    | cons s' rest =>
      obtain ⟨hbrief, hrest⟩ := List.forall_mem_cons.mp h
      have hfirst : (drain (s :: s' :: rest) b).calls = (drain (s' :: rest) (run s [] b)).calls :=
        congrArg Prod.fst (flow_drain_cons hbrief (s' :: rest) b)
      rw [hfirst, ih hrest, hcalls, hnext, List.append_assoc]
      rfl

end Script

/-! ## Expressions -/

/-- The call site that an expression itself is, if it invokes anything. -/
def Lowered.site (e : Lowered) (number : Nat) : List Expr :=
  if (e.value number).1.invokes then [(e.value number).1] else []

open Script

/-- Steps that only bind variables and declare methods. -/
def OnlyDeclares (s : Script) : Prop :=
  ∀ step ∈ s, (∃ v, step = .bind v) ∨ ∃ head body, step = .method head body

theorem OnlyDeclares.flow_run_append {s : Script} (h : OnlyDeclares s) (rest : Script)
    (waiting : List Script) (b : Body) :
    flow (run (s ++ rest) waiting b) = flow (run rest waiting b) := by
  induction s generalizing b with
  | nil => rfl
  | cons step s ih =>
    obtain ⟨hstep, hs⟩ := List.forall_mem_cons.mp h
    rw [List.cons_append]
    rcases hstep with ⟨v, rfl⟩ | ⟨head, body, rfl⟩
    · rw [run, ih hs]
      exact flow_run rfl
    · rw [run, ih hs]
      exact flow_run rfl

theorem Grammar.onlyDeclares_steps (g : Grammar) (n : Node) : OnlyDeclares (g.expr n).steps := by
  induction hcount : n.count using Nat.strong_induction_on generalizing n with
  | _ count ih =>
    subst hcount
    rw [expr]
    split
    · next f _ =>
      intro step hstep
      simp only [Form.lower, Lowered.join, List.mem_append, List.mem_flatMap, List.mem_map] at hstep
      rcases hstep with (⟨e, ⟨m, -, rfl⟩, hstep⟩ | ⟨v, -, rfl⟩) | ⟨p, -, rfl⟩
      · exact ih m.toNode.count m.count_lt m.toNode rfl step hstep
      · exact .inl ⟨v, rfl⟩
      · exact .inr ⟨_, _, rfl⟩
    · exact fun _ h => absurd h List.not_mem_nil

/-- When an expression is recorded, its own call site comes first. The call sites of its lambdas
follow, one lambda after the other if in each but the last nothing comes after the first expression
that it records. -/
theorem calls_run_record (g : Grammar) (n : Node) (b : Body) :
    ∃ after, (run (g.expr n).record [] b).calls =
        b.calls ++ (g.expr n).site b.nextRegion ++ after ∧
      ((∀ s ∈ (g.expr n).bodies.dropLast, brief s = true) →
        after = inTurn (g.expr n).bodies ((g.expr n).value b.nextRegion).2) := by
  let own := ({ b with nextRegion := ((g.expr n).value b.nextRegion).2 } : Body).record
    ((g.expr n).value b.nextRegion).1
  have hown : own.calls = b.calls ++ (g.expr n).site b.nextRegion ∧
      own.nextRegion = ((g.expr n).value b.nextRegion).2 := by
    unfold own Body.record Lowered.site
    split
    · exact ⟨rfl, rfl⟩
    · exact ⟨(List.append_nil _).symm, rfl⟩
  have hcalls : (run (g.expr n).record [] b).calls = (drain (g.expr n).bodies own).calls := by
    have hflow := congrArg Prod.fst ((g.onlyDeclares_steps n).flow_run_append
      [.record (g.expr n).value (g.expr n).bodies] [] b)
    simp only [run, flow, List.nil_append] at hflow
    exact hflow
  obtain ⟨-, added, hadded, -⟩ := sameCalls_run_drain.2 (g.expr n).bodies own own rfl
  refine ⟨added, by rw [hcalls, hadded, hown.1], fun hbrief => ?_⟩
  have hturn := calls_drain hbrief own
  rw [hadded, hown.2] at hturn
  exact List.append_cancel_left hturn

/-! Lambdas that make calls on locks, passed to a call of `f`. -/

def lockCall (lock method : String) : Node where
  kind := "method_invocation"
  children :=
    [{ kind := "identifier", field := "object", text := lock },
      { kind := "identifier", field := "name", text := method },
      { kind := "argument_list", field := "arguments" }]

def lambdaOf (calls : List (String × String)) : Node where
  kind := "lambda_expression"
  children :=
    [{ kind := "formal_parameters", field := "parameters" },
      { kind := "block"
        field := "body"
        children := calls.map fun (lock, method) =>
          { kind := "expression_statement", children := [lockCall lock method] } }]

def callWith (lambdas : List (List (String × String))) : Node where
  kind := "method_invocation"
  children :=
    [{ kind := "identifier", field := "name", text := "f" },
      { kind := "argument_list", field := "arguments", children := lambdas.map lambdaOf }]

/-- The first lambda makes one call only. -/
theorem callWith_in_turn :
    let e := Java.grammar.expr (callWith [[("p", "lock")], [("q", "lock"), ("q", "unlock")]])
    (∀ s ∈ e.bodies.dropLast, brief s = true) ∧
      (run e.record [] {}).calls = e.site 0 ++ inTurn e.bodies (e.value 0).2 ∧
      (run e.record [] {}).calls.map Expr.render =
        ["f(<expr>, <expr>)", "p.lock()", "q.lock()", "q.unlock()"] := by
  intro e
  have hbrief : ∀ s ∈ e.bodies.dropLast, brief s = true := by decide +kernel
  obtain ⟨after, hcalls, hafter⟩ := calls_run_record Java.grammar
    (callWith [[("p", "lock")], [("q", "lock"), ("q", "unlock")]]) {}
  refine ⟨hbrief, ?_, by decide +kernel⟩
  rw [hcalls, hafter hbrief]
  rfl

/-- A second call in the first lambda comes after all of the second lambda, whose lock is then
taken and released while that of the first one is held. -/
theorem callWith_not_in_turn :
    (run (Java.grammar.expr (callWith
        [[("p", "lock"), ("p", "unlock")], [("q", "lock"), ("q", "unlock")]])).record [] {}
      ).calls.map Expr.render =
      ["f(<expr>, <expr>)", "p.lock()", "q.lock()", "q.unlock()", "p.unlock()"] ∧
    ¬ ∀ (n : Node) (b : Body), (run (Java.grammar.expr n).record [] b).calls =
      b.calls ++ (Java.grammar.expr n).site b.nextRegion ++
        inTurn (Java.grammar.expr n).bodies ((Java.grammar.expr n).value b.nextRegion).2 := by
  refine ⟨by decide +kernel, fun h => ?_⟩
  have hcalls := congrArg (List.map Expr.render) (h (callWith
    [[("p", "lock"), ("p", "unlock")], [("q", "lock"), ("q", "unlock")]]) {})
  revert hcalls
  decide +kernel

end Interlock.Source
