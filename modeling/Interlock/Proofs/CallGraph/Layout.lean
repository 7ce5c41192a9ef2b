import Interlock.CallGraph.Resolve

/-! How an expression resolves from its parts. The value of an expression and what it leaves itself
depend on the values of its parts only, and what it leaves stands after what its parts leave. So
every statement about whole expressions comes down to one step: a call or an object creation leaves
one entry, nothing else leaves any, and a diagnostic comes only with an entry that calls nothing. -/

namespace Interlock.Program.Expr

theorem sizeOf_lt_of_mem_children {e c : Expr} (h : c ∈ e.children) : sizeOf c < sizeOf e := by
  cases e with
  | literal _ | ident _ | this | super | classLiteral _ => simp [children] at h
  | new _ parts | newArray _ parts | call _ parts | operation _ parts | other parts =>
    have := List.sizeOf_lt_of_mem (show c ∈ parts from h)
    simp only [new.sizeOf_spec, newArray.sizeOf_spec, call.sizeOf_spec, operation.sizeOf_spec,
      other.sizeOf_spec]
    omega
  | cast _ part | paren part | member part _ =>
    obtain rfl : c = part := by simpa [children] using h
    simp only [cast.sizeOf_spec, paren.sizeOf_spec, member.sizeOf_spec]
    omega
  | index target parts | callOn target _ parts =>
    simp only [index.sizeOf_spec, callOn.sizeOf_spec]
    rcases List.mem_cons.mp (show c ∈ target :: parts from h) with rfl | h
    · omega
    · have := List.sizeOf_lt_of_mem h
      omega

/-- What holds of an expression if it holds of its parts holds of every expression. -/
@[elab_as_elim]
theorem partsInduction {P : Expr → Prop} (step : ∀ e, (∀ c ∈ e.children, P c) → P e) (e : Expr) :
    P e :=
  step e fun c _ => partsInduction step c
termination_by sizeOf e
decreasing_by exact sizeOf_lt_of_mem_children ‹_›

end Interlock.Program.Expr

namespace Interlock.CallGraph

open Interlock.Types Interlock.Program

namespace Draft

/-- What several expressions leave, one after the other. -/
def join (ds : List Draft) : Draft := ds.foldr (· ++ ·) {}

@[simp] theorem entries_append (a b : Draft) : (a ++ b).entries = a.entries ++ b.entries := rfl

@[simp] theorem diagnostics_append (a b : Draft) :
    (a ++ b).diagnostics = a.diagnostics ++ b.diagnostics := rfl

theorem eq_of_parts {a b : Draft} (hentries : a.entries = b.entries)
    (hdiagnostics : a.diagnostics = b.diagnostics) : a = b := by
  cases a
  cases b
  simp_all

@[simp] theorem append_empty (d : Draft) : d ++ ({} : Draft) = d := by
  apply eq_of_parts <;> simp

theorem append_assoc (a b c : Draft) : a ++ b ++ c = a ++ (b ++ c) := by
  apply eq_of_parts <;> simp

@[simp] theorem join_nil : join [] = {} := rfl

@[simp] theorem join_cons (d : Draft) (ds : List Draft) : join (d :: ds) = d ++ join ds := rfl

@[simp] theorem entries_join (ds : List Draft) : (join ds).entries = ds.flatMap (·.entries) := by
  induction ds with
  | nil => rfl
  | cons d ds ih => simp [ih]

/-- What some call sites of a function leave: one entry each, and no more diagnostics than entries
that call nothing. -/
structure Accounts (f : FunctionId) (sites : Nat) (d : Draft) : Prop where
  length_entries : d.entries.length = sites
  length_diagnostics : d.diagnostics.length ≤ d.entries.count (.calls [])
  function : ∀ x ∈ d.diagnostics, x.function = f

namespace Accounts

variable {f : FunctionId} {j k : Nat} {a b : Draft}

theorem empty (f : FunctionId) : Accounts f 0 {} := ⟨rfl, Nat.le_refl 0, by simp⟩

theorem entry (f : FunctionId) (e : DraftEntry) : Accounts f 1 (.entry e) :=
  ⟨rfl, Nat.zero_le _, by simp [Draft.entry]⟩

/-- A call that could not be resolved counts as a call of nothing. -/
theorem missed {x : Diagnostic} (h : x.function = f) :
    Accounts f 1 (Site.external ++ { diagnostics := [x] }) := by
  refine ⟨rfl, by simp [Site.external, Draft.entry], ?_⟩
  simpa [Site.external, Draft.entry] using h

theorem append (ha : Accounts f j a) (hb : Accounts f k b) : Accounts f (j + k) (a ++ b) where
  length_entries := by simp [ha.length_entries, hb.length_entries]
  length_diagnostics := by
    have hle := Nat.add_le_add ha.length_diagnostics hb.length_diagnostics
    simpa using hle
  function x hx := by
    rcases List.mem_append.mp hx with hx | hx
    · exact ha.function x hx
    · exact hb.function x hx

theorem join {α : Type} {as : List α} {g : α → Draft} {count : α → Nat}
    (h : ∀ a ∈ as, Accounts f (count a) (g a)) :
    Accounts f (as.foldr (fun a n => count a + n) 0) (.join (as.map g)) := by
  induction as with
  | nil => exact empty f
  | cons a as ih =>
    have hfirst := h a List.mem_cons_self
    exact hfirst.append (ih fun b hb => h b (List.mem_cons_of_mem _ hb))

end Accounts

end Draft

namespace Site

variable (s : Site) (mo : MonitorOf)

/-- The value of an expression and what it leaves itself, from the values of its parts. -/
def own : Expr → List Resolved → Resolved × Draft
  | .literal kind, _ => (.of (Registry.primitive kind.primitive), {})
  | .ident n, _ => (s.name mo n, {})
  | .this, _ => (.of (s.classType s.cls), {})
  | .super, _ =>
    (match ((s.model.class? s.cls).map (·.supertypes)).getD [] with
      | parent :: _ => .of (s.classType parent)
      | [] => .unknown, {})
  | .classLiteral _, _ => (.unknown, {})
  | .new ty _, values => s.construct ty values
  | .newArray ty _, _ => (.of (ty.resolved.getD .unknown), {})
  | .cast ty _, _ => (.of (ty.resolved.getD .unknown), {})
  | .paren _, values => (values.headD .unknown, {})
  | .index _ _, values => (s.index (values.headD .unknown), {})
  | .member _ n, values => (s.member (values.headD .unknown) n, {})
  | .call n args, values => s.plainCall (.call n args) n (values.map s.argType)
  | .callOn .super n _, values => s.superCall n (values.tail.map s.argType)
  | .callOn target n args, values =>
    s.callOn (.callOn target n args) n (values.headD .unknown) values.tail
  | .operation kind _, values => (operation kind values, {})
  | .other _, _ => (.unknown, {})

theorem exprs_eq (es : List Expr) :
    s.exprs mo es = (es.map fun e => (s.expr mo e).1, .join (es.map fun e => (s.expr mo e).2)) := by
  induction es with
  | nil => simp [exprs]
  | cons e es ih => simp [exprs, ih]

/-- An expression resolves from its parts, the parts first. -/
theorem expr_eq (e : Expr) :
    s.expr mo e =
      ((s.own mo e (e.children.map fun c => (s.expr mo c).1)).1,
        .join (e.children.map fun c => (s.expr mo c).2) ++
          (s.own mo e (e.children.map fun c => (s.expr mo c).1)).2) := by
  cases e with
  | super =>
    simp only [expr, own, Expr.children]
    split <;> simp [*]
  | callOn target n args =>
    cases target <;> simp [expr, own, Expr.children, exprs_eq, Draft.append_assoc]
  | _ => simp [expr, own, Expr.children, exprs_eq]

/-! ## One step -/

theorem accounts_fallback (call : Expr) (name : String) (receiver : Option TypeId)
    (kind : DiagnosticKind) : (s.fallback call name receiver kind).2.Accounts s.function 1 := by
  unfold fallback
  split
  · exact .entry _ _
  · split
    · exact .entry _ _
    · exact .missed rfl

theorem accounts_lockCall (call : Expr) (name : String) (lock : Option LockTarget) :
    (s.lockCall call name lock).2.Accounts s.function 1 := by
  unfold lockCall
  dsimp only
  split
  · exact .missed rfl
  · split
    · exact .entry _ _
    · exact .entry _ _

theorem accounts_superCall (name : String) (args : ArgTypes) :
    (s.superCall name args).2.Accounts s.function 1 := by
  unfold superCall
  split
  · exact .entry _ _
  · exact .entry _ _

theorem accounts_plainCall (call : Expr) (name : String) (args : ArgTypes) :
    (s.plainCall call name args).2.Accounts s.function 1 := by
  unfold plainCall
  split
  · exact .entry _ _
  · dsimp only
    split
    · exact s.accounts_fallback ..
    · exact .entry _ _

theorem accounts_typedCall (call : Expr) (name : String) (args : ArgTypes) (receiver : Resolved) :
    (s.typedCall call name args receiver).2.Accounts s.function 1 := by
  unfold typedCall
  dsimp only
  split
  · exact s.accounts_fallback ..
  · exact .entry _ _

theorem accounts_callOn (call : Expr) (name : String) (receiver : Resolved)
    (args : List Resolved) : (s.callOn call name receiver args).2.Accounts s.function 1 := by
  unfold callOn
  split
  · exact s.accounts_lockCall ..
  · split
    · exact .entry _ _
    · split
      · exact s.accounts_fallback ..
      · exact s.accounts_typedCall ..

/-- Whichever way a call resolves, it leaves one entry; other expressions leave none. -/
theorem accounts_own (e : Expr) (values : List Resolved) :
    (s.own mo e values).2.Accounts s.function (if e.isInvocation then 1 else 0) := by
  cases e with
  | new ty args => exact .entry _ _
  | call n args => exact s.accounts_plainCall ..
  | callOn target n args =>
    cases target with
    | super => exact s.accounts_superCall ..
    | _ => exact s.accounts_callOn ..
  | _ => exact .empty _

/-! ## Whole expressions -/

theorem accounts_expr (e : Expr) : (s.expr mo e).2.Accounts s.function e.invocationCount := by
  induction e using Expr.partsInduction with
  | step e ih =>
    rw [expr_eq, Expr.invocationCount_eq, Nat.add_comm]
    exact (Draft.Accounts.join ih).append (s.accounts_own mo e _)

theorem entries_resolveAll (es : List Expr) :
    (s.resolveAll es).entries = es.flatMap fun e => (s.resolve e).2.entries := by
  rw [resolveAll, exprs_eq, Draft.entries_join, List.flatMap_map]
  rfl

theorem accounts_resolveAll (es : List Expr) :
    (s.resolveAll es).Accounts s.function (Expr.invocationCounts es) := by
  rw [resolveAll, exprs_eq, Expr.invocationCounts_eq_foldr]
  exact .join fun e _ => s.accounts_expr s.monitor e

end Site

end Interlock.CallGraph
