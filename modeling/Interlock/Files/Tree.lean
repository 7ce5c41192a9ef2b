import Interlock.Workspace

/-! Trees of files in memory. -/

namespace Interlock.Files

open Interlock.Text Interlock.Source

/-- A file with the tree that a parser makes of its text. -/
structure StoredFile where
  text : String
  outline : Outline

/-- Files and folders under their names from the root. A folder that something is in needs no entry
of its own. -/
structure FileTree where
  folders : List (List String) := []
  files : List (List String × StoredFile) := []

namespace FileTree

variable (t : FileTree)

/-- Writes a file, in place of one of the same names. -/
def insert (names : List String) (file : StoredFile) : FileTree :=
  { t with files := t.files.filter (fun f => f.1 != names) ++ [(names, file)] }

def fileAt? (names : List String) : Option StoredFile :=
  (t.files.find? fun f => f.1 == names).map (·.2)

def isFolderAt (names : List String) : Bool :=
  names.isEmpty || t.folders.any names.isPrefixOf ||
    t.files.any fun f => f.1 != names && names.isPrefixOf f.1

/-- Follows the pieces of a path. Only a folder can be gone on from, also to itself. -/
def locate? (names : List String) : List String → Option (List String)
  | [] => if t.isFolderAt names || (t.fileAt? names).isSome then some names else none
  | piece :: rest =>
    if !t.isFolderAt names then none
    else if isIdle piece then locate? names rest
    else if piece = ".." then locate? names.dropLast rest
    else locate? (names ++ [piece]) rest

/-- The place of a path; a relative one starts from `here`. -/
def find? (here : List String) (path : String) : Option (List String) :=
  if !isUsable path then none
  else if isAbsolute path then t.locate? [] (split '/' path)
  else t.locate? here (split '/' path)

def isFile (here : List String) (path : String) : Bool :=
  (t.find? here path).any fun names => (t.fileAt? names).isSome

def isFolder (here : List String) (path : String) : Bool :=
  (t.find? here path).any t.isFolderAt

def read (here : List String) (path : String) : Except String StoredFile :=
  match (t.find? here path).bind t.fileAt? with
  | some file => .ok file
  | none => .error "no such file"

/-- The files below a folder. -/
def filesBelow (here : List String) (folder : String) : List String :=
  match t.find? here folder with
  | none => []
  | some names => t.files.filterMap fun f =>
    if f.1 != names && names.isPrefixOf f.1 then
      some (join folder ("/".intercalate (f.1.drop names.length)))
    else none

/-- A file can be created under a new or old name in a folder that is there. -/
def canCreate (here : List String) (path : String) : Bool :=
  match (split '/' path).reverse with
  | [] => false
  | name :: front =>
    isUsable path && !isIdle name && name != ".." && name.utf8ByteSize ≤ maxNameSize &&
      !t.isFolder here path &&
      match front with
      | [] => true
      | _ => t.isFolder here ("/".intercalate front.reverse ++ "/")

/-- The shortest path to a place. -/
def pathTo (names : List String) : String := "/" ++ "/".intercalate names

/-- A workspace in the folder at an absolute path, which is shown as it is written. -/
def workspace (folder : String) (probes : List (String × Outline)) : Workspace Id :=
  let here := (t.find? [] folder).getD []
  { folder
    isFile := t.isFile here
    isFolder := t.isFolder here
    read := fun path => (t.read here path).map (·.text)
    filesBelow := t.filesBelow here
    outline := fun path =>
      match t.read here path with
      | .ok file => file.outline
      | .error _ => .mk "" "" 0 0 []
    probes
    write := fun path _ => t.canCreate here path }

end FileTree

end Interlock.Files
