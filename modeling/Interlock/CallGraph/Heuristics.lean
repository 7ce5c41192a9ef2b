import Interlock.Text.Pieces
import Interlock.Types.Registry

/-! What calls return that no declaration explains, judged by their names. -/

namespace Interlock.CallGraph

open Interlock.Types Interlock.Text

/-- The result that the name of a method suggests. -/
def resultByName? (name : String) (receiver : Option TypeId) : Option TypeId :=
  match name with
  | "isEmpty" | "IsEmpty" | "equals" | "Equals" | "contains" | "Contains" | "containsKey"
  | "ContainsKey" | "startsWith" | "StartsWith" | "endsWith" | "EndsWith" | "matches"
  | "equalsIgnoreCase" => some (Registry.primitive .bool)
  | "hashCode" | "GetHashCode" | "compareTo" | "CompareTo" => some (Registry.primitive .int)
  | "clone" | "Clone" => some (receiver.getD .unknown)
  | "valueOf" | "toString" | "ToString" | "trim" | "Trim" | "getKey" | "getValue" | "getClass"
  | "GetType" | "iterator" | "stream" | "add" | "addAll" | "put" | "putAll" | "remove"
  | "clear" | "Add" | "Clear" | "Remove" => some .unknown
  | _ => if endsWith "alue" name then some .unknown else none

/-- Classes of static functions; calls on names that start like these are expected. -/
def utilityRoots : List String :=
  ["System", "Arrays", "Collections", "Data", "Objects", "Console", "Convert", "Environment",
   "Thread", "Executors", "TimeUnit", "Interlocked", "Task"]

/-- The result of a call on a class of static functions. -/
def utilityResult? (root name : String) : Option TypeId :=
  if root = "Math" then
    if ["floor", "ceil", "Floor", "Ceiling", "round", "Round"].contains name then
      some (Registry.primitive .int)
    else some (Registry.primitive .float)
  else if utilityRoots.any fun u => startsWith u root then some .unknown
  else none

/-- The result of a method of a container, where it is not the element. -/
def containerResult? (objectSet : TypeId) (name : String) : Option TypeId :=
  match name with
  | "size" | "Count" | "count" | "length" | "indexOf" | "IndexOf" =>
    some (Registry.primitive .int)
  | "isEmpty" | "contains" | "containsKey" | "containsValue" | "Contains" | "ContainsKey"
  | "ContainsValue" | "TryGetValue" | "TryAdd" => some (Registry.primitive .bool)
  | "entrySet" => some objectSet
  | "add" | "addAll" | "put" | "putAll" | "clear" | "removeAll" | "retainAll" | "Add"
  | "AddRange" | "Clear" | "Insert" | "Enqueue" | "Push" | "keySet" | "Keys" | "values"
  | "Values" | "stream" | "iterator" | "forEach" => some .unknown
  | _ => none

/-- The methods that give what a reference holds. -/
def isReferenceAccess (name : String) : Bool :=
  ["get", "Value", "getValue", "join", "Result", "orElse", "GetValueOrDefault"].contains name

/-- The results of the methods that every enumeration has. -/
def enumResult? (self : TypeId) (name : String) : Option TypeId :=
  match name with
  | "values" | "GetValues" => some .unknown
  | "ordinal" => some (Registry.primitive .int)
  | "name" => some (Registry.primitive .string)
  | "equals" | "Equals" => some (Registry.primitive .bool)
  | "valueOf" => some self
  | _ => none

end Interlock.CallGraph
