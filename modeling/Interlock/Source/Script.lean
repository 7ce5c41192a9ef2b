import Interlock.Source.Body

/-! Scripts: what the lowering of a method body does, step by step.

The bodies of the lambdas in an expression wait in a queue until the expression is recorded. Then
they are due, the oldest first, and since a body that is due may record expressions itself, its own
first expression already makes those due that wait behind it. -/

namespace Interlock.Source

open Interlock.Program

inductive Step where
  /-- Binds a local variable. -/
  | bind (v : VariableDecl)
  /-- Declares a variable of the declaration around it. Its initial value may be a call that takes
  the number of a region. -/
  | declare (v : Nat → VariableDecl)
  | declaration (inside : List Step)
  /-- A local function, or a method of an anonymous or local class. -/
  | method (head : MethodDecl) (body : List Step)
  /-- Records an expression, which may take numbers of regions. The bodies wait until then. -/
  | record (value : Nat → Expr × Nat) (bodies : List (List Step))
  | region (guard : String) (inside : List Step)

abbrev Script := List Step

namespace Script

mutual

def stepWeight : Step → Nat
  | .bind _ | .declare _ => 1
  | .declaration inside => 1 + weight inside
  | .method _ body => 1 + weight body
  | .record _ bodies => 1 + queueWeight bodies
  | .region _ inside => 1 + weight inside

/-- The number of steps, at any depth. -/
def weight : List Step → Nat
  | [] => 0
  | step :: s => stepWeight step + weight s

def queueWeight : List (List Step) → Nat
  | [] => 0
  | s :: waiting => 1 + weight s + queueWeight waiting

end

theorem queueWeight_append (q q' : List Script) :
    queueWeight (q ++ q') = queueWeight q + queueWeight q' := by
  induction q with
  | nil => simp [queueWeight]
  | cons s q ih => simp [queueWeight, ih, Nat.add_assoc]

mutual

def stepRecords : Step → Bool
  | .record _ _ => true
  | .declaration inside | .region _ inside => records inside
  | _ => false

/-- An expression is recorded. Bodies that wait only do so after one, and methods have bodies of
their own. -/
def records : List Step → Bool
  | [] => false
  | step :: s => stepRecords step || records s

end

/-- What still waits after a script: nothing if it recorded an expression. -/
def left (s : Script) (waiting : List Script) : List Script :=
  if records s then [] else waiting

theorem queueWeight_left_le (s : Script) (waiting : List Script) :
    queueWeight (left s waiting) ≤ queueWeight waiting := by
  unfold left
  split
  · exact Nat.zero_le _
  · exact Nat.le_refl _

mutual

/-- Takes the steps of a script, while some bodies wait. -/
def run : Script → List Script → Body → Body
  | [], _, b => b
  | .bind v :: s, waiting, b => run s waiting (b.addLocal v)
  | .declare v :: s, waiting, b => run s waiting (b.declare (v b.nextRegion))
  | .declaration inside :: s, waiting, b =>
    run s (left inside waiting) (b.declaration fun b => run inside waiting b)
  | .method head body :: s, waiting, b =>
    run s waiting (b.addNested ((run body [] {}).into head))
  | .record value bodies :: s, waiting, b =>
    let (e, next) := value b.nextRegion
    run s [] (drain (waiting ++ bodies) ({ b with nextRegion := next }.record e))
  | .region guard inside :: s, waiting, b =>
    run s (left inside waiting) (b.guarded guard fun b => run inside waiting b)
termination_by s waiting => weight s + queueWeight waiting
decreasing_by
  all_goals
    have hleft (s : Script) (waiting : List Script) := queueWeight_left_le s waiting
    simp only [weight, stepWeight, queueWeight, queueWeight_append]
    grind

/-- Lowers the bodies that are due, in the order in which they wait. -/
def drain : List Script → Body → Body
  | [], b => b
  | s :: waiting, b => drain (left s waiting) (run s waiting b)
termination_by waiting => queueWeight waiting
decreasing_by
  all_goals
    have hleft := queueWeight_left_le s waiting
    simp only [queueWeight]
    omega

end

end Script

end Interlock.Source
