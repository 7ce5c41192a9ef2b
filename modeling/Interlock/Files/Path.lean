import Interlock.Text.Pieces

/-! Paths of files and folders as text. Names are separated by slashes, a path that starts with a
slash is absolute, and every operation keeps the spelling of the parts that it does not touch. -/

namespace Interlock.Files

open Interlock.Text

def isAbsolute (path : String) : Bool := startsWith "/" path

/-- The most bytes of a name, and of a whole path. -/
def maxNameSize : Nat := 255

def maxPathSize : Nat := 4095

/-- Whether a path can lead anywhere: it is not empty, not too long and free of the null
character. -/
def isUsable (path : String) : Bool :=
  !path.isEmpty && path.utf8ByteSize ≤ maxPathSize && path.toList.all fun c => c.toNat != 0

/-- A path that is taken to be inside a folder; an absolute path stays as it is. -/
def join (folder path : String) : String :=
  if isAbsolute path then path
  else if folder.isEmpty || endsWith "/" folder then folder ++ path
  else folder ++ "/" ++ path

/-- What a path starts from: the root, an explicit current folder, or nothing. -/
inductive Anchor where
  | root
  | here
  | nothing
  deriving DecidableEq, Repr

def Anchor.text : Anchor → String
  | root => "/"
  | here => "."
  | nothing => ""

/-- The anchor of a path and the pieces between slashes after it. -/
def pieces (path : String) : Anchor × List String :=
  match split '/' path with
  | "" :: rest => if rest.isEmpty then (.nothing, []) else (.root, rest)
  | "." :: rest => (.here, rest)
  | all => (.nothing, all)

/-- A piece that stands for the folder it is in. -/
def isIdle (piece : String) : Bool := piece == "" || piece == "."

/-- Leaves out idle pieces at the end. -/
def dropIdleEnd (ps : List String) : List String := (ps.reverse.dropWhile isIdle).reverse

/-- The path of an anchor and pieces. -/
def assemble (anchor : Anchor) (ps : List String) : String :=
  match anchor, ps with
  | .here, [] => "."
  | .here, ps => "./" ++ "/".intercalate ps
  | anchor, ps => anchor.text ++ "/".intercalate ps

/-- The folder of a path: its last name is cut off. The root and the empty path have none. -/
def parent? (path : String) : Option String :=
  let (anchor, ps) := pieces path
  match (dropIdleEnd ps).reverse, anchor with
  | _ :: front, _ => some (assemble anchor (dropIdleEnd front.reverse))
  | [], .here => some ""
  | [], _ => none

/-- A path and the folders above it, the nearest first, and at most so many of them. -/
def ancestors (path : String) : Nat → List String
  | 0 => []
  | depth + 1 =>
    path :: match parent? path with
      | some folder => ancestors folder depth
      | none => []

/-! ## Order -/

/-- The parts by which paths are ordered: the anchor before all names. -/
def sortKey (path : String) : Nat × List (Nat × String) :=
  let (anchor, ps) := pieces path
  let rank := match anchor with
    | .root => 0
    | .here => 1
    | .nothing => 2
  (rank, (ps.filter fun p => !isIdle p).map fun p => (if p == ".." then 0 else 1, p))

/-- Whether the parts of one path come before those of another, or are the same. A path comes
before the paths that go on from it. -/
def partsLe : List (Nat × String) → List (Nat × String) → Bool
  | [], _ => true
  | _ :: _, [] => false
  | (i, a) :: as, (j, b) :: bs =>
    if i = j && a == b then partsLe as bs else i < j || (i == j && decide (a < b))

def pathLe (p q : String) : Bool :=
  let (i, as) := sortKey p
  let (j, bs) := sortKey q
  if i = j then partsLe as bs else i < j

/-! ## Standard input -/

/-- Whether a path that is searched for files means standard input and no folder. -/
def isStandardInput (path : String) : Bool := sortKey path == sortKey "-"

/-- The path under which standard input is found in a search. -/
def standardInput : String := "<stdin>"

end Interlock.Files
