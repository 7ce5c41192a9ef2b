import Interlock.Program.Language
import Interlock.Source.CSharp
import Interlock.Source.Java

/-! Reading source files and single expressions of an analysed language from their trees. -/

namespace Interlock.Source

open Interlock.Program

/-- The declarations of a source file; a tree with a fault is refused. -/
def readUnit (language : Language) (path source : String) (tree : Outline) :
    Except Failure SourceUnit := do
  let bytes := source.toUTF8
  let root := tree.toNode bytes
  checkTree path bytes root
  return match language with
    | .java => Java.unit path root
    | .csharp => CSharp.unit path root

/-- The source in which a parser meets an expression that stands alone. -/
def probeSource (language : Language) (text : String) : String :=
  match language with
  | .java => Java.probeSource text
  | .csharp => CSharp.probeSource text

/-- The expression that a text writes, given the tree of its probe. -/
def readExpr? (language : Language) (text : String) (tree : Outline) : Option Expr :=
  let root := tree.toNode (probeSource language text).toUTF8
  if root.firstFault?.isSome then none
  else match language with
    | .java => Java.probeExpr? root
    | .csharp => CSharp.probeExpr? root

end Interlock.Source
