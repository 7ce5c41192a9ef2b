/-! The values of a TOML document, and how its lines build up tables.

A table can be made in four ways, which decide what may be added to it later. Since no table may be
defined twice, and none may be changed from a place of another sort, adding can fail. -/

namespace Interlock.Settings.Toml

inductive Scalar where
  | text (value : String)
  | integer (value : Int)
  /-- A number with a fraction or an exponent. No setting takes one, so its value is left out. -/
  | real
  /-- A number whose value cannot be held, or that has no digits. It may be written, but nothing
  can be made of it. -/
  | unreadable
  | flag (value : Bool)
  /-- A date, a time or both. No setting takes one, so its value is left out. -/
  | moment
  deriving DecidableEq, Repr

/-- How a table was made. -/
inductive Origin where
  /-- On the way to the table of a header. -/
  | implied
  /-- On the way to the last part of a dotted key. -/
  | dotted
  | header
  /-- Between braces; nothing can be added to it. -/
  | inline
  deriving DecidableEq, Repr

inductive Item where
  | scalar (value : Scalar)
  | array (items : List Item)
  | table (origin : Origin) (entries : List (String × Item))
  /-- Tables that headers add one by one, the newest first. -/
  | tables (elements : List (List (String × Item)))
  deriving Repr

abbrev Entries := List (String × Item)

mutual

/-- Whether every number inside an item can be read. -/
def Item.isReadable : Item → Bool
  | .scalar value => value != .unreadable
  | .array items => itemsReadable items
  | .table _ entries => entriesReadable entries
  | .tables elements => elementsReadable elements

def itemsReadable : List Item → Bool
  | [] => true
  | item :: items => item.isReadable && itemsReadable items

def entriesReadable : List (String × Item) → Bool
  | [] => true
  | (_, item) :: entries => item.isReadable && entriesReadable entries

def elementsReadable : List (List (String × Item)) → Bool
  | [] => true
  | entries :: elements => entriesReadable entries && elementsReadable elements

end

namespace Entries

def get? (key : String) (es : Entries) : Option Item :=
  (List.find? (fun e => e.1 == key) es).map (·.2)

/-- Replaces the item of a key in place; a new key goes last. -/
def put (key : String) (item : Item) : Entries → Entries
  | [] => [(key, item)]
  | e :: es => if e.1 = key then (key, item) :: es else e :: put key item es

/-- Changes the table that the path of a header leads to. Missing tables on the way are implied;
an array of tables stands for its newest element. -/
def within (path : List String) (change : Entries → Option Entries) (es : Entries) :
    Option Entries :=
  match path with
  | [] => change es
  | key :: rest =>
    match es.get? key with
    | none => (within rest change []).map fun sub => es.put key (.table .implied sub)
    | some (.table .inline _) => none
    | some (.table origin sub) =>
      (within rest change sub).map fun sub => es.put key (.table origin sub)
    | some (.tables (newest :: older)) =>
      (within rest change newest).map fun sub => es.put key (.tables (sub :: older))
    | some _ => none

/-- Opens the table of a header; only an implied one may be there already. -/
def openTable (key : String) (es : Entries) : Option Entries :=
  match es.get? key with
  | none => some (es.put key (.table .header []))
  | some (.table .implied sub) => some (es.put key (.table .header sub))
  | some _ => none

/-- Opens a new element of an array of tables. -/
def openElement (key : String) (es : Entries) : Option Entries :=
  match es.get? key with
  | none => some (es.put key (.tables [[]]))
  | some (.tables elements) => some (es.put key (.tables ([] :: elements)))
  | some _ => none

/-- Gives a new key its value. The table that a dotted key adds to must be made by dotted keys
alone; on the way to it there may be implied tables and newest elements of arrays of tables. -/
def assign (path : List String) (key : String) (item : Item) (es : Entries) : Option Entries :=
  match path with
  | [] => if (es.get? key).isSome then none else some (es.put key item)
  | first :: rest =>
    match es.get? first with
    | none => (assign rest key item []).map fun sub => es.put first (.table .dotted sub)
    | some (.table .dotted sub) =>
      (assign rest key item sub).map fun sub => es.put first (.table .dotted sub)
    | some (.table .implied sub) =>
      if rest.isEmpty then none
      else (assign rest key item sub).map fun sub => es.put first (.table .implied sub)
    | some (.tables (newest :: older)) =>
      if rest.isEmpty then none
      else (assign rest key item newest).map fun sub => es.put first (.tables (sub :: older))
    | some _ => none

end Entries

end Interlock.Settings.Toml
