import Interlock.Proofs.Source.Lowering
import Interlock.Source.Reading

/-! Names in lowered expressions. Every name is the text of a node, so that expressions are unmarked
where the texts of a tree are. -/

namespace Interlock.Source

open Interlock.Program Interlock.Text

namespace Shape

variable {n : Node}

@[simp]
theorem unmarked_leaf {e : Expr} : (leaf e : Shape n).Unmarked ↔ e.Unmarked :=
  ⟨fun h => h [] (by simp), fun h _ _ => h⟩

@[simp]
theorem unmarked_node {make : List Expr → Expr} {parts : List n.Below} :
    (node make parts).Unmarked ↔ ∀ es, (∀ e ∈ es, e.Unmarked) → (make es).Unmarked :=
  Iff.rfl

@[simp]
theorem unmarked_form {f : Form n} :
    (form f).Unmarked ↔ ∀ es, (∀ e ∈ es, e.Unmarked) → (f.make es).Unmarked :=
  Iff.rfl

theorem unmarked_headed {missing : Expr} {make : Expr → List Expr → Expr} {first : Option n.Below}
    {rest : List n.Below} (hmissing : missing.Unmarked)
    (h : ∀ e es, e.Unmarked → (∀ x ∈ es, x.Unmarked) → (make e es).Unmarked) :
    (headed missing make first rest).Unmarked := by
  unfold headed
  split
  · refine unmarked_node.mpr fun es hes => h _ _ ?_ fun e he => hes e (List.mem_of_mem_tail he)
    cases es with
    | nil => exact hmissing
    | cons e es => exact hes e List.mem_cons_self
  · exact unmarked_node.mpr fun es => h missing es hmissing

end Shape

/-- The texts at and below a node are free of the mark. -/
def Node.Unmarked (n : Node) : Prop :=
  ∀ m, n.Contains m → contains Expr.monitorMark m.text = false

theorem isPlain_of_mem_monitorMark : ∀ c ∈ Expr.monitorMark.toList, IsPlain c := by
  have hall : Expr.monitorMark.toList.all (fun c => decide (IsPlain c)) = true := by
    decide +kernel
  intro c hc
  exact of_decide_eq_true (List.all_eq_true.mp hall c hc)

namespace Node.Unmarked

variable {n : Node}

theorem below (h : n.Unmarked) (m : n.Below) : m.toNode.Unmarked := by
  intro k hk
  exact h k (Node.Contains.trans (.inr m.inside) hk)

theorem text (h : n.Unmarked) : contains Expr.monitorMark n.text = false := h n (.inl rfl)

theorem textAt? (h : n.Unmarked) {field name : String} (hname : n.textAt? field = some name) :
    contains Expr.monitorMark name = false := by
  obtain ⟨m, -, rfl⟩ := Option.map_eq_some_iff.mp hname
  exact (h.below m).text

end Node.Unmarked

theorem Java.unmarked_shape {n : Node} (h : n.Unmarked) : (Java.shape n).Unmarked := by
  unfold Java.shape
  split
  all_goals try split
  all_goals try refine Shape.unmarked_headed ?_ ?_
  all_goals simp +contextual [Expr.Unmarked, h.text]

namespace CSharp

theorem unmarked_invocation {n : Node} (h : monitorCall? n = none) : (invocation n).Unmarked := by
  unfold invocation
  split
  · simp +contextual [Expr.Unmarked]
  · split
    · simp only [h]
      refine Shape.unmarked_headed ?_ ?_
      all_goals simp +contextual [Expr.Unmarked]
    all_goals try refine Shape.unmarked_headed ?_ ?_
    all_goals simp +contextual [Expr.Unmarked]

/-- An object creation whose initializer is its last part. -/
theorem unmarked_created {type : String} {es : List Expr} (h : ∀ e ∈ es, e.Unmarked) :
    (created type es.dropLast (es.getLast?.getD (.other []))).Unmarked := by
  have hparts : ∀ e ∈ es.dropLast, e.Unmarked := fun e he => h e (List.mem_of_mem_dropLast he)
  have hlast : (es.getLast?.getD (.other [])).Unmarked := by
    cases hlast : es.getLast? with
    | none => simp [Expr.Unmarked]
    | some e => exact h e (List.mem_of_getLast? hlast)
  unfold created
  dsimp only
  split
  · simpa [Expr.Unmarked] using ⟨hparts, hlast⟩
  · simpa [Expr.Unmarked] using hparts

theorem contains_simpleName {n : Node} (h : n.Unmarked) :
    contains Expr.monitorMark (simpleName n) = false := by
  fun_induction simpleName n with
  | case1 n _ =>
    cases hname : (n.child? "name").or (n.childOfKind? ["identifier"]) with
    | none => exact h.text
    | some name => exact (h.below name).text
  | case2 n _ name _ ih => exact ih (h.below name)
  | case3 => decide
  | case4 => exact h.text

theorem unmarked_shape {n : Node} (h : n.Unmarked)
    (hmonitor : n.kind = "invocation_expression" → monitorCall? n = none) :
    (shape n).Unmarked := by
  unfold shape
  split
  · next hkind => exact unmarked_invocation (hmonitor hkind)
  all_goals try split
  all_goals try refine Shape.unmarked_headed ?_ ?_
  -- a variable that is declared where it is passed
  all_goals try exact fun _ _ => h.textAt? ‹_›
  all_goals
    simp +contextual [Expr.Unmarked, h.text, contains_simpleName h, unmarked_created]

end CSharp

end Interlock.Source
