import Interlock.Program.Declaration

/-! The locks of a program and the pairing of views with their read/write locks.

A view is a lock through which a read/write lock is taken by readers or by writers. A view whose
initializer names a lock of its class belongs to that lock, whichever is declared first; a view
without one belongs to the first read/write lock that still lacks a view of its sort. -/

namespace Interlock.Program

open Interlock.Types Interlock.Text

inductive LockKind where
  | plain
  | readWrite
  | readView
  | writeView
  /-- The monitor of a guarded region. -/
  | monitor
  deriving DecidableEq, Repr

def LockKind.label : LockKind → String
  | plain => "Plain"
  | readWrite => "ReadWrite"
  | readView => "ReadView"
  | writeView => "WriteView"
  | monitor => "Monitor"

structure Lock where
  id : LockId
  /-- The qualified name of the class and the field. -/
  name : String
  kind : LockKind
  owner : ClassId
  field : String
  /-- The read/write lock that a view belongs to. -/
  paired : Option LockId := none
  deriving DecidableEq, Repr

structure LockTable where
  locks : List Lock := []
  /-- Views whose initializer names a lock that is not declared yet. -/
  waiting : List (String × LockId) := []
  /-- Views without an initializer that have no lock yet, the oldest first. -/
  readQueue : List LockId := []
  writeQueue : List LockId := []
  /-- Read/write locks without a view of the sort, the oldest first. -/
  openRead : List LockId := []
  openWrite : List LockId := []

/-- A declaration that holds a lock. -/
structure LockDecl where
  owner : ClassId
  ownerName : String
  field : String
  /-- The simple name of the declared type. -/
  typeName : String
  init : Option ViewSource := none
  deriving Repr

namespace LockDecl

def name (d : LockDecl) : String := d.ownerName ++ "." ++ d.field

/-- The sort of view that an initializer makes, and the name of the lock it refers to. -/
def view? (d : LockDecl) : Option (LockKind × String) :=
  d.init.bind fun source =>
    let method := source.method.map Char.toLower
    let reference := d.ownerName ++ "." ++ source.reference
    if contains "read" method then some (.readView, reference)
    else if contains "write" method then some (.writeView, reference)
    else none

/-- The kind of lock that the type of the declaration tells. -/
def kindByType (d : LockDecl) : LockKind :=
  match namesRead d.typeName, namesWrite d.typeName with
  | true, true => .readWrite
  | true, false => .readView
  | false, true => .writeView
  | false, false => .plain

end LockDecl

namespace LockTable

def size (t : LockTable) : Nat := t.locks.length

def get? (t : LockTable) : LockId → Option Lock
  | 0 => none
  | n + 1 => t.locks[n]?

def find? (t : LockTable) (name : String) : Option LockId :=
  (t.locks.find? fun l => l.name == name).map (·.id)

/-- The lock that guards: a paired view stands for its read/write lock. -/
def canonical (t : LockTable) (id : LockId) : LockId :=
  ((t.get? id).bind (·.paired)).getD id

def nameOf? (t : LockTable) (id : LockId) : Option String :=
  (t.get? (t.canonical id)).map (·.name)

/-- The names of all locks that are not paired views, by ascending identity. -/
def names (t : LockTable) : List (LockId × String) :=
  (t.locks.filter fun l => l.paired.isNone).map fun l => (l.id, l.name)

def nextId (t : LockTable) : LockId := t.size + 1

def push (t : LockTable) (owner : ClassId) (name field : String) (kind : LockKind) : LockTable :=
  { t with locks := t.locks ++ [{ id := t.nextId, name, kind, owner, field }] }

/-- Gives a view its read/write lock, which then no longer lacks a view of that sort. -/
def pair (t : LockTable) (view rw : LockId) : LockTable :=
  let isRead := (t.get? view).map (·.kind) == some .readView
  let mark (l : Lock) : Lock := if l.id = view then { l with paired := some rw } else l
  let paired := { t with locks := t.locks.map mark }
  if isRead then { paired with openRead := t.openRead.filter (· != rw) }
  else { paired with openWrite := t.openWrite.filter (· != rw) }

/-- Adds a view whose initializer refers to a lock. -/
def addView (t : LockTable) (d : LockDecl) (kind : LockKind) (reference : String) : LockTable :=
  let id := t.nextId
  let t := t.push d.owner d.name d.field kind
  match t.find? reference with
  | some rw =>
    if (t.get? rw).map (·.kind) == some .readWrite then t.pair id rw
    else { t with waiting := t.waiting ++ [(reference, id)] }
  | none => { t with waiting := t.waiting ++ [(reference, id)] }

/-- Adds a read/write lock and gives it the views that wait for it: first those that name it,
then the oldest one of each sort that it still lacks. -/
def addReadWrite (t : LockTable) (d : LockDecl) : LockTable :=
  let rw := t.nextId
  let t := t.push d.owner d.name d.field .readWrite
  let t := { t with openRead := t.openRead ++ [rw], openWrite := t.openWrite ++ [rw] }
  let (named, others) := t.waiting.partition fun w => w.1 == d.name
  let t := named.foldl (fun t w => t.pair w.2 rw) { t with waiting := others }
  let t :=
    match t.readQueue with
    | view :: rest =>
      if t.openRead.contains rw then { t with readQueue := rest }.pair view rw else t
    | [] => t
  match t.writeQueue with
  | view :: rest =>
    if t.openWrite.contains rw then { t with writeQueue := rest }.pair view rw else t
  | [] => t

/-- Adds a view without an initializer. -/
def addReadView (t : LockTable) (d : LockDecl) : LockTable :=
  let id := t.nextId
  let t := t.push d.owner d.name d.field .readView
  match t.openRead with
  | rw :: _ => t.pair id rw
  | [] => { t with readQueue := t.readQueue ++ [id] }

@[inherit_doc addReadView]
def addWriteView (t : LockTable) (d : LockDecl) : LockTable :=
  let id := t.nextId
  let t := t.push d.owner d.name d.field .writeView
  match t.openWrite with
  | rw :: _ => t.pair id rw
  | [] => { t with writeQueue := t.writeQueue ++ [id] }

/-- Declares a lock; a name that is known keeps its lock. -/
def declare (t : LockTable) (d : LockDecl) : LockId × LockTable :=
  match t.find? d.name with
  | some id => (id, t)
  | none =>
    (t.nextId,
      match d.view? with
      | some (kind, reference) => t.addView d kind reference
      | none =>
        match d.kindByType with
        | .readWrite => t.addReadWrite d
        | .readView => t.addReadView d
        | .writeView => t.addWriteView d
        | _ => t.push d.owner d.name d.field .plain)

/-- The monitor of the guarded regions of a class that have the same guard. -/
def monitor (t : LockTable) (owner : ClassId) (ownerName segment : String) : LockId × LockTable :=
  let field := Expr.monitorMark ++ segment
  let name := ownerName ++ "." ++ field
  match t.find? name with
  | some id => (id, t)
  | none => (t.nextId, t.push owner name field .monitor)

/-- Views that have no read/write lock and so stand for themselves. -/
def unpairedViews (t : LockTable) : List Lock :=
  t.locks.filter fun l => (l.kind == .readView || l.kind == .writeView) && l.paired.isNone

/-- All locks, one per line. -/
def listing (t : LockTable) : String :=
  String.join (t.locks.map fun l =>
    padLeft 8 (LockId.label l.id) ++ " " ++ padRight 50 l.name ++ " " ++ l.kind.label ++
      (match l.paired with
        | some rw => " -> " ++ LockId.label rw
        | none => "") ++ "\n")

end LockTable

end Interlock.Program
