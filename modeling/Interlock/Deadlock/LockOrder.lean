import Interlock.Ids
import Interlock.Ordered.Basic
import Interlock.Ordered.Preorder

/-! The lock order of a program: which locks are taken while which others are held. Locks that
precede each other can be taken in conflicting orders, which is how threads block each other. -/

namespace Interlock.Deadlock

/-- A call path that justifies an observation. -/
structure Witness where
  /-- The functions from the root to the one that takes the lock. -/
  path : List FunctionId
  /-- The function that took the lock that is held. -/
  heldSince : FunctionId
  acquiredIn : FunctionId
  deriving DecidableEq, Repr, Inhabited

/-- A lock that is held and a lock that is taken meanwhile. -/
@[ext] structure LockPair where
  held : LockId
  taken : LockId
  deriving DecidableEq, Repr

namespace LockPair

def rank (p : LockPair) : List Nat := [p.held, p.taken]

theorem rank_injective {p q : LockPair} (h : p.rank = q.rank) : p = q := by
  cases p; cases q; simp_all [rank]

instance : Ord LockPair := ⟨compareOn rank⟩

instance : Std.LawfulEqOrd LockPair where
  compare_self := Std.ReflOrd.compare_self (α := List Nat)
  eq_of_compare h := rank_injective (Std.LawfulEqOrd.eq_of_compare h)

instance : Std.TransOrd LockPair := inferInstanceAs (Std.TransCmp (compareOn rank))

end LockPair

/-- The observed pairs in ascending order, each with its first witness. -/
structure LockOrder where
  edges : List (LockPair × Witness) := []
  ascending : Ordered.Ascending (edges.map (·.1)) := by exact List.Pairwise.nil
  /-- No lock is held against itself: taking a lock again is a re-entrancy, not an order. -/
  proper : ∀ p ∈ edges.map (·.1), p.held ≠ p.taken := by
    exact fun _ h => absurd h List.not_mem_nil
  deriving DecidableEq, Repr

/-- An observed pair with its witness. -/
structure OrderEdge where
  pair : LockPair
  witness : Witness
  deriving DecidableEq, Repr

/-- Locks that can be taken in conflicting orders, and the observations that show it. -/
structure Conflict where
  locks : List LockId
  edges : List OrderEdge
  deriving DecidableEq, Repr

namespace LockOrder

/-- Nothing was observed. -/
def empty : LockOrder := {}

@[simp] theorem edges_empty : empty.edges = [] := rfl

def size (o : LockOrder) : Nat := o.edges.length

def contains (o : LockOrder) (held taken : LockId) : Bool :=
  (Ordered.find? ⟨held, taken⟩ o.edges).isSome

/-- Records a pair of different locks; the first witness of a pair is kept. -/
def insert (o : LockOrder) (held taken : LockId) (witness : Witness) : LockOrder :=
  if h : held = taken then o
  else
    { edges := Ordered.insertNew ⟨held, taken⟩ witness o.edges
      ascending := by
        rw [Ordered.keys_insertNew]
        exact Ordered.ascending_insert o.ascending
      proper := by
        intro p hp
        rw [Ordered.keys_insertNew, Ordered.mem_insert] at hp
        rcases hp with rfl | hp
        · exact h
        · exact o.proper p hp }

/-- Adds the pairs of `other`; pairs that are present keep their witness. -/
def merge (o other : LockOrder) : LockOrder :=
  other.edges.foldl (fun acc e => acc.insert e.1.held e.1.taken e.2) o

/-- All locks that occur in a pair, ascending. -/
def locks (o : LockOrder) : List LockId :=
  Ordered.ofList (o.edges.flatMap fun e => [e.1.held, e.1.taken])

/-- The locks taken while `l` is held. -/
def after (o : LockOrder) (l : LockId) : List LockId :=
  (o.edges.filter fun e => e.1.held == l).map (·.1.taken)

/-- The locks held while `l` is taken. -/
def before (o : LockOrder) (l : LockId) : List LockId :=
  (o.edges.filter fun e => e.1.taken == l).map (·.1.held)

/-- The locks that are linked to `l` in both directions, and `l` itself. -/
def component (o : LockOrder) (l : LockId) : List LockId :=
  let later := Ordered.preorder o.after o.locks (o.after l)
  let earlier := Ordered.preorder o.before o.locks (o.before l)
  o.locks.filter fun m => m == l || (later.contains m && earlier.contains m)

/-- The observations among the given locks, in ascending order. -/
def edgesAmong (o : LockOrder) (locks : List LockId) : List OrderEdge :=
  (o.edges.filter fun e => locks.contains e.1.held && locks.contains e.1.taken).map
    fun e => ⟨e.1, e.2⟩

/-- The conflict whose smallest lock is `l`. -/
def conflictAt? (o : LockOrder) (l : LockId) : Option Conflict :=
  match o.component l with
  | first :: second :: rest =>
    if first = l then
      let locks := first :: second :: rest
      some ⟨locks, o.edgesAmong locks⟩
    else none
  | _ => none

/-- One conflict for each set of at least two locks that are mutually linked, by ascending
smallest lock. -/
def conflicts (o : LockOrder) : List Conflict := o.locks.filterMap o.conflictAt?

end LockOrder

end Interlock.Deadlock
