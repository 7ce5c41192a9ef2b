/-! The vocabulary of types: primitive values, and the kinds of library types whose calls the
analysis understands without a declaration. -/

namespace Interlock.Types

/-- Values that every analysed language maps its literals and primitive types to. -/
inductive Primitive where
  | int
  | float
  | char
  | string
  | bool
  | lock
  | script
  | null
  deriving DecidableEq, Repr

namespace Primitive

/-- In the order of their type identities. -/
def all : List Primitive := [int, float, char, string, bool, lock, script, null]

def name : Primitive → String
  | int => "int"
  | float => "float"
  | char => "char"
  | string => "string"
  | bool => "bool"
  | lock => "lock"
  | script => "script"
  | null => "null"

/-- The position in `all`. -/
def index : Primitive → Nat
  | int => 0
  | float => 1
  | char => 2
  | string => 3
  | bool => 4
  | lock => 5
  | script => 6
  | null => 7

theorem all_getElem?_index (p : Primitive) : all[p.index]? = some p := by cases p <;> rfl

end Primitive

/-- What a type without a declaration is known to do. -/
inductive TypeKind where
  | none
  | set
  | list
  | map
  | stack
  | priorityQueue
  | reference
  | lock
  | script
  | string
  | other
  deriving DecidableEq, Repr

namespace TypeKind

/-- Kinds whose accessors give the component that they wrap. -/
def isContainer : TypeKind → Bool
  | set | list | map | stack | priorityQueue => true
  | _ => false

/-- The name of the kind in listings. -/
def label : TypeKind → String
  | none => "None"
  | set => "Set"
  | list => "List"
  | map => "Map"
  | stack => "Stack"
  | priorityQueue => "PriorityQueue"
  | reference => "Reference"
  | lock => "Lock"
  | script => "Script"
  | string => "String"
  | other => "Other"

end TypeKind

end Interlock.Types
