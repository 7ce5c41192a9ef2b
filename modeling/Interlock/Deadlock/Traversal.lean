import Std.Data.HashMap
import Interlock.CallGraph.Basic
import Interlock.Deadlock.LockOrder

/-! Which locks are held when a lock is taken, followed from one root through all calls.

A function is summarised, for each sequence of locks held at its entry, by the stacks of locks
that it can leave with. Summaries are relative to the entry: a frame is either a position of the
entry stack or a lock taken during the call, so one summary serves all callers that enter with
the same locks. -/

namespace Interlock.Deadlock

/-- A lock on the stack and the function that took it. -/
structure Held where
  lock : LockId
  acquiredIn : FunctionId
  deriving DecidableEq, Repr

inductive Frame where
  /-- A position of the entry stack. -/
  | inherited (index : Nat)
  /-- A lock taken during the call. -/
  | acquired (held : Held)
  deriving DecidableEq, Repr

namespace Frame

def rank : Frame → List Nat
  | inherited i => [0, i]
  | acquired h => [1, h.lock, h.acquiredIn]

theorem rank_injective {a b : Frame} (h : a.rank = b.rank) : a = b := by
  rcases a with i | ⟨l, f⟩ <;> rcases b with j | ⟨m, g⟩ <;> simp_all [rank]

instance : Ord Frame := ⟨compareOn rank⟩

instance : Std.LawfulEqOrd Frame where
  compare_self := Std.ReflOrd.compare_self (α := List Nat)
  eq_of_compare h := rank_injective (Std.LawfulEqOrd.eq_of_compare h)

instance : Std.TransOrd Frame := inferInstanceAs (Std.TransCmp (compareOn rank))

/-- The lock of a frame, seen from an entry stack. -/
def lockAt? (entry : List Held) : Frame → Option LockId
  | inherited i => (entry[i]?).map (·.lock)
  | acquired h => some h.lock

/-- The frame as an element of the stack, seen from an entry stack. -/
def heldAt? (entry : List Held) : Frame → Option Held
  | inherited i => entry[i]?
  | acquired h => some h

end Frame

/-- A stack of locks relative to an entry stack, the oldest first. -/
abbrev RelStack := List Frame

namespace RelStack

/-- The stack that nothing was done to. -/
def identity (entry : List Held) : RelStack := (List.range entry.length).map .inherited

/-- The locks that are held, seen from an entry stack. -/
def materialize (s : RelStack) (entry : List Held) : List Held := s.filterMap (Frame.heldAt? entry)

/-- The exit stack of a call, seen from the entry of the caller. -/
def compose (caller exit : RelStack) : RelStack :=
  exit.filterMap fun
    | .inherited i => caller[i]?
    | .acquired h => some (.acquired h)

/-- Removes the last frame of a lock, if there is one. -/
def release (s : RelStack) (entry : List Held) (lock : LockId) : RelStack :=
  (s.reverse.eraseP fun frame => frame.lockAt? entry == some lock).reverse

end RelStack

/-- What one root contributes to the findings. -/
structure Outcome where
  order : LockOrder := .empty
  /-- Locks taken while they are held, ascending, each with its first witness. -/
  reentrancies : List (LockId × Witness) := []
  /-- Some set of stacks was cut. -/
  truncated : Bool := false
  deriving DecidableEq, Repr

/-- The state of a traversal. -/
structure Walk where
  /-- The functions that are being followed, the root first. -/
  path : List FunctionId := []
  summaries : Std.HashMap (FunctionId × List LockId) (List RelStack) := {}
  outcome : Outcome := {}

namespace Walk

/-- Records that `function` takes `lock` while the locks of `held` are held. -/
def recordAcquire (w : Walk) (function : FunctionId) (held : List Held) (lock : LockId) : Walk :=
  let witness (since : FunctionId) : Witness := ⟨w.path, since, function⟩
  let again := match held.find? fun h => h.lock == lock with
    | some h => Ordered.insertNew lock (witness h.acquiredIn) w.outcome.reentrancies
    | none => w.outcome.reentrancies
  let order := held.foldl (fun o h => o.insert h.lock lock (witness h.acquiredIn)) w.outcome.order
  { w with outcome := { w.outcome with order := order, reentrancies := again } }

/-- Keeps the first `cap` stacks of a set. -/
def bound (cap : Nat) (states : List RelStack) (w : Walk) : List RelStack × Walk :=
  if states.length ≤ cap then (states, w)
  else (states.take cap, { w with outcome := { w.outcome with truncated := true } })

end Walk

/-- How a traversal follows a call: the exit stacks of a function entered with some locks. -/
abbrev Follow := FunctionId → List Held → Walk → List RelStack × Walk

/-- Adds to `next` the stacks that one callee leaves with when it is called on `state`. -/
def stepCallee (follow : Follow) (held : List Held) (state : RelStack)
    (acc : List RelStack × Walk) (callee : FunctionId) : List RelStack × Walk :=
  let (exits, w) := follow callee held acc.2
  (Ordered.union acc.1 (exits.map state.compose), w)

/-- Adds to `next` the stacks that an entry of `function` makes of `state`. -/
def stepState (follow : Follow) (function : FunctionId) (entry : List Held) (e : GraphEntry)
    (acc : List RelStack × Walk) (state : RelStack) : List RelStack × Walk :=
  let (next, w) := acc
  match e with
  | .acquire lock =>
    (Ordered.insert (state ++ [.acquired ⟨lock, function⟩]) next,
      w.recordAcquire function (state.materialize entry) lock)
  | .release lock => (Ordered.insert (state.release entry lock) next, w)
  | .dynamic => (next, w)
  | .calls [] => (Ordered.insert state next, w)
  | .calls callees => callees.foldl (stepCallee follow (state.materialize entry) state) (next, w)

/-- Takes a set of stacks over one entry. -/
def stepEntry (follow : Follow) (cap : Nat) (function : FunctionId) (entry : List Held)
    (acc : List RelStack × Walk) (e : GraphEntry) : List RelStack × Walk :=
  let (next, w) := acc.1.foldl (stepState follow function entry e) ([], acc.2)
  w.bound cap next

/-- The exit stacks of a function entered with some locks. A function that is already on the
path is left as it was entered. The path holds no function twice and only its last function can
lack a node, so `depth` never runs out when it starts above the number of nodes. -/
def follow (g : CallGraph) (cap : Nat) : Nat → Follow
  | 0, _, entry, w => ([.identity entry], w)
  | depth + 1, function, entry, w =>
    if function ∈ w.path then ([.identity entry], w)
    else
      let key := (function, entry.map (·.lock))
      match w.summaries[key]? with
      | some exits => (exits, w)
      | none =>
        let inside := { w with path := w.path ++ [function] }
        let (exits, w) := (g.entries function).foldl
          (stepEntry (follow g cap depth) cap function entry) ([.identity entry], inside)
        (exits, { w with path := w.path.dropLast, summaries := w.summaries.insert key exits })

/-- Follows one root with nothing held; at least one stack is kept whatever the cap. -/
def traverse (g : CallGraph) (maxExitStates : Nat) (root : FunctionId) : Outcome :=
  (follow g (max maxExitStates 1) (g.size + 1) root [] {}).2.outcome

end Interlock.Deadlock
