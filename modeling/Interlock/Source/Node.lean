import Interlock.Failure

/-! Concrete syntax trees of source files.

A parser hands over the outline of a tree: labels and positions. Together with the source text
this gives nodes that carry their own text. -/

namespace Interlock.Source

open Interlock.Text

/-- A node as a parser gives it. The positions count bytes. A leading `!` in the label marks a
token that the parser supplied because it was missing, and a leading apostrophe after that a
token that has no name in the grammar. -/
inductive Outline where
  | mk (label field : String) (start stop : Nat) (children : List Outline)
  deriving Inhabited

structure Node where
  kind : String
  named : Bool := true
  missing : Bool := false
  /-- The role of the node in its parent, empty if it has none. -/
  field : String := ""
  /-- The position of its first byte. -/
  start : Nat := 0
  text : String := ""
  children : List Node := []
  deriving Inhabited

/-- The text between two byte positions. -/
def slice (source : ByteArray) (start stop : Nat) : String :=
  (String.fromUTF8? (source.extract start stop)).getD ""

namespace Outline

mutual

def toNode (source : ByteArray) : Outline → Node
  | mk label field start stop children =>
    let (missing, label) := match dropStart? "!" label with
      | some rest => (true, rest)
      | none => (false, label)
    let (named, kind) := match dropStart? "'" label with
      | some rest => (false, rest)
      | none => (true, label)
    { kind, named, missing, field, start
      text := slice source start stop
      children := toNodes source children }

def toNodes (source : ByteArray) : List Outline → List Node
  | [] => []
  | o :: os => o.toNode source :: toNodes source os

end

end Outline

namespace Node

/-- `n.Inside m` says that `m` stands somewhere below `n`. -/
inductive Inside (n : Node) : Node → Prop
  | child {m : Node} : m ∈ n.children → n.Inside m
  | deeper {m k : Node} : n.Inside m → k ∈ m.children → n.Inside k

theorem Inside.trans {n m k : Node} (h : n.Inside m) (h' : m.Inside k) : n.Inside k := by
  induction h' with
  | child hk => exact h.deeper hk
  | deeper _ hk ih => exact ih.deeper hk

/-- A node that stands somewhere below another one. What looks around in a tree returns such nodes,
so that recursion on what is found comes to an end. -/
structure Below (n : Node) extends Node where
  inside : n.Inside toNode

/-- What stands below a node, seen from a node above that. -/
def Below.lift {n : Node} (m : n.Below) (k : m.toNode.Below) : n.Below :=
  ⟨k.toNode, m.inside.trans k.inside⟩

/-- The children. -/
def parts (n : Node) : List n.Below := n.children.attach.map fun c => ⟨c.1, .child c.2⟩

/-- The first child with a role. -/
def child? (n : Node) (field : String) : Option n.Below := n.parts.find? fun c => c.field == field

/-- All children with a role. -/
def childrenIn (n : Node) (field : String) : List n.Below :=
  n.parts.filter fun c => c.field == field

/-- The children with one of some roles, by role; of each role the first one. -/
def childrenAt (n : Node) (fields : List String) : List n.Below := fields.filterMap n.child?

def namedChildren (n : Node) : List n.Below := n.parts.filter (·.named)

/-- The named children and the keywords that stand for an object. -/
def operandChildren (n : Node) : List n.Below :=
  n.parts.filter fun c => c.named || c.kind == "this" || c.kind == "base"

/-- The first child of one of some kinds. -/
def childOfKind? (n : Node) (kinds : List String) : Option n.Below :=
  n.parts.find? fun c => kinds.contains c.kind

/-- Some child is of a kind. -/
def hasToken (n : Node) (kind : String) : Bool := n.children.any fun c => c.kind == kind

/-- The text of the first child with a role. -/
def textAt? (n : Node) (field : String) : Option String := (n.child? field).map (·.text)

def isComment (n : Node) : Bool := endsWith "comment" n.kind

/-- The text without its layout: every run of blanks is one space. -/
def compactText (n : Node) : String :=
  let words := (splitChars isBlank n.text.toList).filter fun w => !w.isEmpty
  " ".intercalate (words.map String.ofList)

/-- A place where the parser could not follow the grammar. -/
def isFault (n : Node) : Bool := n.kind == "ERROR" || n.missing

mutual

/-- The first fault at or below a node, in source order. -/
def firstFault? (n : Node) : Option Node :=
  if n.isFault then some n
  else match n with
    | ⟨_, _, _, _, _, _, children⟩ => firstFaultAmong? children

def firstFaultAmong? : List Node → Option Node
  | [] => none
  | n :: ns =>
    match n.firstFault? with
    | some fault => some fault
    | none => firstFaultAmong? ns

end

mutual

/-- The number of nodes of a tree. -/
def count (n : Node) : Nat :=
  match n with
  | ⟨_, _, _, _, _, _, children⟩ => 1 + countAll children

def countAll : List Node → Nat
  | [] => 0
  | n :: ns => n.count + countAll ns

end

theorem count_le_countAll {m : Node} {ns : List Node} (h : m ∈ ns) : m.count ≤ countAll ns := by
  induction ns with
  | nil => cases h
  | cons n ns ih =>
    simp only [countAll]
    rcases List.mem_cons.mp h with rfl | h
    · exact Nat.le_add_right _ _
    · exact Nat.le_trans (ih h) (Nat.le_add_left _ _)

theorem count_eq (n : Node) : n.count = 1 + countAll n.children := by
  cases n
  rfl

theorem Inside.count_lt {n m : Node} (h : n.Inside m) : m.count < n.count := by
  have hchild : ∀ {n m : Node}, m ∈ n.children → m.count < n.count := by
    intro n m h
    have := count_le_countAll h
    rw [count_eq n]
    omega
  induction h with
  | child h => exact hchild h
  | deeper _ h ih => exact Nat.lt_trans (hchild h) ih

theorem Below.count_lt {n : Node} (m : n.Below) : m.toNode.count < n.count := m.inside.count_lt

end Node

/-- The line and the column of a byte position, both from one; columns count bytes. -/
def lineColumn (source : ByteArray) (position : Nat) : Nat × Nat :=
  let before := (source.extract 0 position).toList
  let newline := '\n'.toNat.toUInt8
  ((before.filter (· == newline)).length + 1,
    (before.reverse.takeWhile (· != newline)).length + 1)

/-- Refuses a tree with a fault. -/
def checkTree (path : String) (source : ByteArray) (root : Node) : Except Failure Unit :=
  match root.firstFault? with
  | none => .ok ()
  | some fault =>
    let (line, column) := lineColumn source fault.start
    .error (.parse path ("syntax error at line " ++ toString line ++ ", column " ++
      toString column))

end Interlock.Source
