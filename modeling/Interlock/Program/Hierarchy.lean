import Interlock.Failure
import Interlock.Ids
import Interlock.Ordered.Preorder

/-! Inheritance. Every class lists its supertypes. One pass over these lists takes every class into
the rows of its supertypes, and both directions are closed by the same depth-first walk. -/

namespace Interlock.Program

open Interlock.Ordered (preorder)

/-- The supertypes of each class, by class. -/
abbrev Supertypes := Array (List ClassId)

namespace Supertypes

def of (supers : Supertypes) (c : ClassId) : List ClassId := (supers[c]?).getD []

/-- Takes a class into the row of one of its supertypes, once. A supertype without a row is
skipped. -/
def addSubclass (d : ClassId) (rows : Array (List ClassId)) (s : ClassId) : Array (List ClassId) :=
  match rows[s]? with
  | some row => if d ∈ row then rows else rows.setIfInBounds s (row ++ [d])
  | none => rows

/-- Takes a class into the rows of all its supertypes. -/
def addToRows (rows : Array (List ClassId)) (p : List ClassId × ClassId) : Array (List ClassId) :=
  p.1.foldl (addSubclass p.2) rows

/-- The immediate subclasses of each class, by class. -/
def rows (supers : Supertypes) : Array (List ClassId) :=
  supers.toList.zipIdx.foldl addToRows (Array.replicate supers.size [])

/-- The classes that stand in the row of `c`. -/
def subclasses (supers : Supertypes) (c : ClassId) : List ClassId := (supers.rows[c]?).getD []

/-- All classes below `c`, each once, depth first in the order of declaration. -/
def transitiveSubclasses (supers : Supertypes) (c : ClassId) : List ClassId :=
  preorder supers.subclasses ((List.range supers.size).erase c) (supers.subclasses c)

/-- All classes above `c`, each once, depth first in the order of declaration. Supertypes
without a class are skipped. -/
def ancestorsOf (supers : Supertypes) (c : ClassId) : List ClassId :=
  preorder supers.of (List.range supers.size) (supers.of c)

/-- Looks for a cycle at or above a class. `path` leads from the class where the search began to
the current one and holds no class twice, so its length is bounded by the number of classes;
`done` holds the classes that are known to lie on no cycle. An error gives the classes of the
cycle, its first class repeated at the end. -/
def searchCycle (supers : Supertypes) :
    Nat → List ClassId → List ClassId → ClassId → Except (List ClassId) (List ClassId)
  | 0, _, done, _ => .ok done
  | fuel + 1, path, done, c =>
    if c ∈ done then .ok done
    else if c ∈ path then .error (path.dropWhile (· != c) ++ [c])
    else do
      let inRange := (supers.of c).filter (· < supers.size)
      let done ← inRange.foldlM (supers.searchCycle fuel (path ++ [c])) done
      return c :: done

/-- The ancestors of every class, or a cycle of supertypes. -/
def flatten (supers : Supertypes) : Except (List ClassId) (List (List ClassId)) := do
  let classes := List.range supers.size
  let _ ← classes.foldlM (supers.searchCycle (supers.size + 1) []) []
  return classes.map supers.ancestorsOf

end Supertypes

/-- How a cycle of supertypes is told: by the name of its first class and of all its classes. -/
def cycleFault (className : ClassId → String) (cycle : List ClassId) : ModelFault :=
  .cyclicInheritance ((cycle.head?.map className).getD "")
    (" -> ".intercalate (cycle.map className))

end Interlock.Program
