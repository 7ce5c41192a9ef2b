import Interlock.Text.Pieces

/-! The analysed languages and what their standard libraries call locking. -/

namespace Interlock.Program

open Interlock.Text

inductive Language where
  | java
  | csharp
  deriving DecidableEq, Repr

/-- The effect of a call on a lock. -/
inductive LockEffect where
  | acquire
  | release
  deriving DecidableEq, Repr

namespace Language

def ofName? (name : String) : Option Language :=
  match (trim name).map Char.toLower with
  | "java" => some java
  | "c#" | "csharp" | "cs" => some csharp
  | _ => none

def name : Language → String
  | java => "Java"
  | csharp => "C#"

def extensions : Language → List String
  | java => [".java"]
  | csharp => [".cs"]

/-- What calling a method does to the lock it is called on. -/
def lockEffect? (language : Language) (method : String) : Option LockEffect :=
  match language with
  | java =>
    match method with
    | "lock" | "tryLock" | "lockInterruptibly" => some .acquire
    | "unlock" => some .release
    | _ => none
  | csharp =>
    if startsWith "Enter" method || startsWith "TryEnter" method ||
        ["WaitOne", "Wait", "WaitAsync"].contains method then some .acquire
    else if startsWith "Exit" method || ["ReleaseMutex", "Release"].contains method then
      some .release
    else none

end Language

end Interlock.Program
