import Interlock.Source.Node

/-! Outlines as text, which is how a parser hands them over in a file. Every line is a node: its
depth, label, field, start and end between tabs. Children follow their parent one level deeper. -/

namespace Interlock.Source

open Interlock.Text

/-- A node without its children. -/
structure OutlineRow where
  depth : Nat
  label : String
  field : String
  start : Nat
  stop : Nat
  deriving DecidableEq, Repr

namespace OutlineRow

def ofLine? (line : String) : Option OutlineRow :=
  match split '\t' line with
  | [depth, label, field, start, stop] => do
    return ⟨← depth.toNat?, label, field, ← start.toNat?, ← stop.toNat?⟩
  | _ => none

/-- The trees that start at a depth, and the rows after them. Every round uses up a row, so that
as many rounds as there are rows are enough. -/
def forest : Nat → Nat → List OutlineRow → List Outline × List OutlineRow
  | fuel + 1, depth, row :: rows =>
    if row.depth = depth then
      let (children, rows) := forest fuel (depth + 1) rows
      let (siblings, rows) := forest fuel depth rows
      (.mk row.label row.field row.start row.stop children :: siblings, rows)
    else ([], row :: rows)
  | _, _, rows => ([], rows)

end OutlineRow

/-- The outline that a text writes: a single tree, and nothing after it. -/
def Outline.ofText? (text : String) : Option Outline := do
  let lines := (split '\n' text).filter fun l => !l.isEmpty
  let rows ← lines.mapM OutlineRow.ofLine?
  match OutlineRow.forest rows.length 0 rows with
  | ([tree], []) => some tree
  | _ => none

/-- The outline of a file that no parser has read: a single fault. -/
def Outline.unread : Outline := .mk "ERROR" "" 0 0 []

end Interlock.Source
