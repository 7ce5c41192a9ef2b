import Interlock.Proofs.Source.Regions
import Interlock.Proofs.Source.Texts
import Interlock.Source.Lowering

/-! What the lowering of a tree leaves, for any grammar. Where no expression of a tree looks like
the monitor of a region, every script that is made of it leaves its regions properly nested, and
every statement that is lowered as a region has its pair of calls around what it encloses. -/

namespace Interlock.Program.Expr

open Interlock.Text

mutual

/-- No name in the expression has the mark of a monitor in it. -/
def Unmarked : Expr → Prop
  | ident name => contains monitorMark name = false
  | literal _ | this | super | classLiteral _ => True
  | new _ parts | newArray _ parts | call _ parts | operation _ parts | other parts =>
    UnmarkedAll parts
  | cast _ part | paren part | member part _ => part.Unmarked
  | index target parts | callOn target _ parts => target.Unmarked ∧ UnmarkedAll parts

def UnmarkedAll : List Expr → Prop
  | [] => True
  | e :: es => e.Unmarked ∧ UnmarkedAll es

end

@[simp]
theorem unmarkedAll_iff {es : List Expr} : UnmarkedAll es ↔ ∀ e ∈ es, e.Unmarked := by
  induction es with
  | nil => simp [UnmarkedAll]
  | cons e es ih => simp [UnmarkedAll, ih]

theorem contains_monitorField (guard : String) (number : Nat) :
    contains monitorMark (monitorField guard number) = true := by
  rw [contains_iff]
  exact ⟨[], guard.toList ++ "_".toList ++ (toString number).toList, by simp [monitorField]⟩

theorem Unmarked.not_isMonitorCall {e : Expr} (h : e.Unmarked) : ¬ e.IsMonitorCall := by
  rintro ⟨guard, number, acquire, rfl⟩
  obtain ⟨hident, -⟩ := h
  rw [Unmarked, contains_monitorField] at hident
  cases hident

end Interlock.Program.Expr

namespace Interlock.Source

open Interlock.Program Script

/-- Unmarked parts make an unmarked expression. -/
def Shape.Unmarked {n : Node} : Shape n → Prop
  | .form f => ∀ es, (∀ e ∈ es, e.Unmarked) → (f.make es).Unmarked
  | .monitor _ _ => False

namespace Grammar

variable (g : Grammar) (root : Node)

/-- The methods that a node declares: those of its class, of an anonymous class or of a local class,
or a local function. -/
def plans (n : Node) : List (MethodPlan n) :=
  (match g.shape n with
    | .form f => f.methods
    | .monitor _ _ => []) ++
  ((g.tasks n).getD []).filterMap (fun
    | .method p => some p
    | _ => none) ++
  g.classPlans n

/-- What is known of the steps of scripts of a tree: which expressions are recorded and where
methods come from. -/
def Knows : Step → Prop
  | .record value _ => ∃ e : Expr, e.Unmarked ∧ ∀ number, value number = (e, number)
  | .method head body => ∃ n, root.Contains n ∧ ∃ p ∈ g.plans n, head = p.head ∧ body = g.script p
  | _ => True

variable {g root}

theorem Knows.quiet {step : Step} (h : g.Knows root step) : Quiet step := by
  cases step with
  | record value bodies =>
    obtain ⟨e, he, hvalue⟩ := h
    simp only [Quiet, hvalue]
    exact ⟨he.not_isMonitorCall, fun _ => trivial⟩
  | _ => trivial

variable (g root) in
def KnowsAll (steps : List Step) : Prop := ∀ step ∈ steps, g.Knows root step

theorem knowsAll_append {xs ys : List Step} :
    g.KnowsAll root (xs ++ ys) ↔ g.KnowsAll root xs ∧ g.KnowsAll root ys :=
  List.forall_mem_append

theorem knowsAll_flatMap {α : Type} {f : α → Script} {as : List α}
    (h : ∀ a ∈ as, g.KnowsAll root (deep (f a))) : g.KnowsAll root (deep (as.flatMap f)) := by
  rw [deep_flatMap]
  exact List.forall_mem_flatMap.mpr h

theorem knowsAll_bodies {bodies : List Script} :
    g.KnowsAll root (deepAll bodies) ↔ ∀ s ∈ bodies, g.KnowsAll root (deep s) := by
  rw [deepAll_eq_flatMap]
  exact List.forall_mem_flatMap

theorem knowsAll_plain {s : Script} (h : ∀ step ∈ s, stepDeep step = [step] ∧ g.Knows root step) :
    g.KnowsAll root (deep s) := by
  induction s with
  | nil => exact fun _ h => absurd h List.not_mem_nil
  | cons step s ih =>
    obtain ⟨⟨hdeep, hknows⟩, hrest⟩ := List.forall_mem_cons.mp h
    rw [deep, hdeep, knowsAll_append]
    exact ⟨List.forall_mem_singleton.mpr hknows, ih hrest⟩

/-- A step that encloses a script. -/
theorem knowsAll_enclosing {step : Step} {inside : Script}
    (hdeep : stepDeep step = step :: deep inside) (hstep : g.Knows root step)
    (hinside : g.KnowsAll root (deep inside)) : g.KnowsAll root (deep [step]) := by
  rw [deep, deep, List.append_nil, hdeep]
  exact List.forall_mem_cons.mpr ⟨hstep, hinside⟩

variable (g root) in
/-- What is known of a lowered expression. -/
structure KnowsExpr (e : Lowered) : Prop where
  steps : g.KnowsAll root (deep e.steps)
  bodies : g.KnowsAll root (deepAll e.bodies)
  value : ∃ x : Expr, x.Unmarked ∧ ∀ number, e.value number = (x, number)

namespace KnowsExpr

variable {e : Lowered}

/-- Steps that record the expression after some others. -/
theorem record_after (h : g.KnowsExpr root e) {s : Script} (hs : g.KnowsAll root (deep s)) :
    g.KnowsAll root (deep (e.steps ++ (s ++ [.record e.value e.bodies]))) := by
  rw [deep_append, knowsAll_append, deep_append, knowsAll_append]
  refine ⟨h.steps, hs, ?_⟩
  rw [deep, deep, List.append_nil]
  exact List.forall_mem_cons.mpr ⟨h.value, h.bodies⟩

theorem record (h : g.KnowsExpr root e) : g.KnowsAll root (deep e.record) := by
  have hnone : g.KnowsAll root (deep []) := fun _ h => absurd h List.not_mem_nil
  exact h.record_after hnone

theorem join {make : List Expr → Expr}
    (hmake : ∀ es, (∀ x ∈ es, x.Unmarked) → (make es).Unmarked) {parts : List Lowered}
    (h : ∀ p ∈ parts, g.KnowsExpr root p) : g.KnowsExpr root (Lowered.join make parts) where
  steps := knowsAll_flatMap fun p hp => (h p hp).steps
  bodies := by
    refine knowsAll_bodies.mpr fun s hs => ?_
    obtain ⟨p, hp, hs⟩ := List.mem_flatMap.mp hs
    exact knowsAll_bodies.mp (h p hp).bodies s hs
  value := by
    have hparts : ∃ xs : List Expr, (∀ x ∈ xs, x.Unmarked) ∧
        ∀ number, mapThrough (fun (p : Lowered) => p.value) parts number = (xs, number) := by
      induction parts with
      | nil => exact ⟨[], by simp, fun _ => rfl⟩
      | cons p parts ih =>
        obtain ⟨x, hx, hvalue⟩ := (h p List.mem_cons_self).value
        obtain ⟨xs, hxs, hvalues⟩ := ih fun y hy => h y (List.mem_cons_of_mem _ hy)
        refine ⟨x :: xs, List.forall_mem_cons.mpr ⟨hx, hxs⟩, fun number => ?_⟩
        simp only [mapThrough, hvalue, hvalues]
    obtain ⟨xs, hxs, hvalues⟩ := hparts
    exact ⟨make xs, hmake xs hxs, fun number => by simp only [Lowered.join, hvalues]⟩

end KnowsExpr

/-! ## One node -/

section Node

variable {n : Node} {expr : n.Below → Lowered} {statement : n.Below → Script}

theorem knowsAll_script (hexpr : ∀ m, g.KnowsExpr root (expr m))
    (hstatement : ∀ m, g.KnowsAll root (deep (statement m))) (p : MethodPlan n) :
    g.KnowsAll root (deep (p.script expr statement)) := by
  have hnone : g.KnowsAll root (deep []) := fun _ h => absurd h List.not_mem_nil
  have hbody : g.KnowsAll root (deep ((p.body.map statement).getD [])) := by
    cases p.body with
    | none => exact hnone
    | some block => exact hstatement block
  unfold MethodPlan.script
  rw [deep_append, knowsAll_append]
  constructor
  · cases p.initializer with
    | none => exact hnone
    | some m => exact (hexpr m).record
  · split
    · split
      · exact knowsAll_enclosing rfl trivial hbody
      · exact hnone
    · exact hbody

theorem knowsAll_form (hexpr : ∀ m, g.KnowsExpr root (expr m))
    (hstatement : ∀ m, g.KnowsAll root (deep (statement m))) {f : Form n}
    (hmake : ∀ es, (∀ x ∈ es, x.Unmarked) → (f.make es).Unmarked)
    (hmethods : ∀ p ∈ f.methods, g.Knows root (p.step expr statement)) :
    g.KnowsExpr root (f.lower expr statement g.isBlock) := by
  have hparts : ∀ e ∈ f.parts.map expr, g.KnowsExpr root e := by
    simpa using fun m _ => hexpr m
  obtain ⟨hsteps, hbodies, hvalue⟩ := KnowsExpr.join hmake hparts
  refine ⟨?_, ?_, hvalue⟩
  · rw [Form.lower, deep_append, deep_append, knowsAll_append, knowsAll_append]
    refine ⟨⟨hsteps, knowsAll_plain ?_⟩, knowsAll_plain ?_⟩
    · exact List.forall_mem_map.mpr fun v _ => ⟨rfl, trivial⟩
    · exact List.forall_mem_map.mpr fun p hp => ⟨rfl, hmethods p hp⟩
  · rw [Form.lower, deepAll_append, knowsAll_append]
    refine ⟨hbodies, ?_⟩
    cases f.body with
    | none => exact fun _ h => absurd h List.not_mem_nil
    | some m =>
      rw [Option.map_some, Option.toList_some, deepAll, deepAll, List.append_nil]
      split
      · exact hstatement m
      · exact (hexpr m).record

theorem knowsAll_declarator (hexpr : ∀ m, g.KnowsExpr root (expr m))
    (d : VariableDecl × Option n.Below) : g.KnowsAll root (deep (declarator expr d)) := by
  have hdeclare : ∀ v, g.KnowsAll root (deep [.declare v]) := fun v =>
    knowsAll_plain (List.forall_mem_singleton.mpr ⟨rfl, trivial⟩)
  unfold declarator
  split
  · next value _ => exact (hexpr value).record_after (hdeclare _)
  · exact hdeclare _

theorem knowsAll_task (hexpr : ∀ m, g.KnowsExpr root (expr m))
    (hstatement : ∀ m, g.KnowsAll root (deep (statement m))) {t : Task n}
    (hmethod : ∀ p, t = .method p → g.Knows root (p.step expr statement)) :
    g.KnowsAll root (deep (t.script expr statement)) := by
  cases t with
  | statement m => exact hstatement m
  | record m => exact (hexpr m).record
  | recordAll ms =>
    refine (KnowsExpr.join (fun es hes => ?_) ?_).record
    · simpa [Expr.Unmarked] using hes
    · simpa using fun m _ => hexpr m
  | bind v => exact knowsAll_plain (List.forall_mem_singleton.mpr ⟨rfl, trivial⟩)
  | assign v value =>
    have hbind : g.KnowsAll root (deep [.bind ((expr value).initial v 0)]) :=
      knowsAll_plain (List.forall_mem_singleton.mpr ⟨rfl, trivial⟩)
    exact (hexpr value).record_after hbind
  | declare vs =>
    exact knowsAll_enclosing rfl trivial (knowsAll_flatMap fun d _ => knowsAll_declarator hexpr d)
  | region guard inside =>
    exact knowsAll_enclosing rfl trivial (knowsAll_flatMap fun m _ => hstatement m)
  | method p => exact knowsAll_plain (List.forall_mem_singleton.mpr ⟨rfl, hmethod p rfl⟩)

end Node

/-! ## Trees -/

theorem shape_eq_form {n : Node} (h : (g.shape n).Unmarked) :
    ∃ f, g.shape n = .form f ∧ ∀ es, (∀ x ∈ es, x.Unmarked) → (f.make es).Unmarked := by
  cases hshape : g.shape n with
  | form f =>
    rw [hshape] at h
    exact ⟨f, rfl, h⟩
  | monitor guard acquire =>
    rw [hshape] at h
    exact h.elim

/-- In a tree whose expressions are unmarked, what is known holds of every node. -/
theorem knows_lowered (h : ∀ n, root.Contains n → (g.shape n).Unmarked) (n : Node)
    (hn : root.Contains n) :
    g.KnowsExpr root (g.expr n) ∧ g.KnowsAll root (deep (g.statement n)) := by
  induction hcount : n.count using Nat.strong_induction_on generalizing n with
  | _ count ih =>
    subst hcount
    have hbelow : ∀ m : n.Below, g.KnowsExpr root (g.expr m.toNode) ∧
        g.KnowsAll root (deep (g.statement m.toNode)) := fun m =>
      ih m.toNode.count m.count_lt m.toNode (hn.below m) rfl
    have hplan : ∀ p ∈ g.plans n, g.Knows root
        (p.step (fun m => g.expr m.toNode) fun m => g.statement m.toNode) := fun p hp =>
      ⟨n, hn, p, hp, rfl, rfl⟩
    obtain ⟨f, hshape, hmake⟩ := shape_eq_form (h n hn)
    have hexpr : g.KnowsExpr root (g.expr n) := by
      rw [expr]
      simp only [hshape]
      refine knowsAll_form (fun m => (hbelow m).1) (fun m => (hbelow m).2) hmake fun p hp => ?_
      refine hplan p ?_
      simp [plans, hshape, hp]
    refine ⟨hexpr, ?_⟩
    rw [statement]
    split
    · next ts htasks =>
      refine knowsAll_flatMap fun t ht => ?_
      refine knowsAll_task (fun m => (hbelow m).1) (fun m => (hbelow m).2) fun p hp => hplan p ?_
      subst hp
      have hmem : Task.method p ∈ (g.tasks n).getD [] := by simpa [htasks] using ht
      exact List.mem_append_left _
        (List.mem_append_right _ (List.mem_filterMap.mpr ⟨_, hmem, rfl⟩))
    · exact hexpr.record

end Grammar

end Interlock.Source
