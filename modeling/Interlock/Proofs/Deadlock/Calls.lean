import Interlock.Proofs.Deadlock.Parallel

/-! The calls of a traversal. What is said of every call is said of a relation that lists them: the
root is followed with nothing held, and a function that is run follows each callee of each of its
call sites on each stack that it has there, one after the other. What single steps keep of a walk
is kept at all these calls, and when they return. -/

namespace Interlock.Deadlock

/-- A function that is followed: how many calls deep the traversal may still go, the stack that the
function is entered with and the walk so far. -/
structure Call where
  depth : Nat
  function : FunctionId
  entry : List Held
  walk : Walk

namespace Call

/-- The exit stacks of the function, and the walk when it is left. -/
def result (g : CallGraph) (cap : Nat) (c : Call) : List RelStack × Walk :=
  follow g cap c.depth c.function c.entry c.walk

/-- The function is not on the path and has no summary for these locks, so that it is run. -/
structure Runs (c : Call) : Prop where
  fresh : c.function ∉ c.walk.path
  unknown : c.walk.summaries[(c.function, locksOf c.entry)]? = none

/-- The stacks that are kept after some entries of the function, and the walk there. -/
def after (cap : Nat) (F : Follow) (c : Call) (done : List GraphEntry) : List RelStack × Walk :=
  done.foldl (stepEntry F cap c.function c.entry)
    ([.identity c.entry], { c.walk with path := c.walk.path ++ [c.function] })

/-- The stacks and the walk at a call site, when some stacks and, of the next one, some callees are
done. -/
def amid (cap : Nat) (F : Follow) (c : Call) (done : List GraphEntry) (callees : List FunctionId)
    (before : List RelStack) (s : RelStack) (earlier : List FunctionId) : List RelStack × Walk :=
  earlier.foldl (stepCallee F (s.materialize c.entry) s)
    (before.foldl (stepState F c.function c.entry (.calls callees)) ([], (c.after cap F done).2))

/-- The calls that a traversal of `root` makes. -/
inductive Made (g : CallGraph) (cap : Nat) (root : FunctionId) : Call → Prop
  | start : Made g cap root ⟨g.size + 1, root, [], {}⟩
  | inside {c : Call} {depth : Nat} {done rest : List GraphEntry}
      {callee : FunctionId} {earlier later : List FunctionId}
      {s : RelStack} {before others : List RelStack} :
      Made g cap root c → c.depth = depth + 1 → c.Runs →
      g.entries c.function = done ++ .calls (earlier ++ callee :: later) :: rest →
      (c.after cap (follow g cap depth) done).1 = before ++ s :: others →
      Made g cap root ⟨depth, callee, s.materialize c.entry,
        (c.amid cap (follow g cap depth) done (earlier ++ callee :: later) before s earlier).2⟩

/-- The end of a function is what stands after all its entries. -/
theorem after_entries (g : CallGraph) (cap : Nat) (F : Follow) (c : Call) :
    c.after cap F (g.entries c.function) = runBody g cap F c.function c.entry c.walk := rfl

end Call

/-! ## What steps keep -/

/-- Something that is kept of a walk when a lock is taken, when stacks are cut and when a call is
followed. -/
structure Kept (P : Walk → Prop) (F : Follow) : Prop where
  record : ∀ {w : Walk} (f : FunctionId) (held : List Held) (lock : LockId), P w →
    P (w.recordAcquire f held lock)
  cut : ∀ {w : Walk}, P w → P w.cut
  follow : ∀ {w : Walk} (c : FunctionId) (held : List Held), P w → P (F c held w).2

namespace Kept

variable {P : Walk → Prop} {F : Follow} {f : FunctionId} {entry : List Held}
  {acc : List RelStack × Walk}

theorem callees (h : Kept P F) (held : List Held) (s : RelStack) (cs : List FunctionId)
    (hacc : P acc.2) : P (cs.foldl (stepCallee F held s) acc).2 :=
  List.foldlRecOn (motive := fun acc : List RelStack × Walk => P acc.2) cs _ hacc
    fun _ hacc c _ => h.follow c held hacc

theorem state (h : Kept P F) (e : GraphEntry) (s : RelStack) (hacc : P acc.2) :
    P (stepState F f entry e acc s).2 := by
  obtain ⟨next, w⟩ := acc
  cases e with
  | acquire lock => exact h.record f _ lock hacc
  | release lock => exact hacc
  | dynamic => exact hacc
  | calls cs =>
    cases cs with
    | nil => exact hacc
    | cons c cs => exact h.callees _ s (c :: cs) hacc

theorem states (h : Kept P F) (e : GraphEntry) (ss : List RelStack) (hacc : P acc.2) :
    P (ss.foldl (stepState F f entry e) acc).2 :=
  List.foldlRecOn (motive := fun acc : List RelStack × Walk => P acc.2) ss _ hacc
    fun _ hacc s _ => h.state e s hacc

theorem step (h : Kept P F) (cap : Nat) (e : GraphEntry) (hacc : P acc.2) :
    P (stepEntry F cap f entry acc e).2 := by
  have hstates : P (acc.1.foldl (stepState F f entry e) ([], acc.2)).2 := h.states e acc.1 hacc
  unfold stepEntry Walk.bound
  dsimp only
  split
  · exact hstates
  · exact h.cut hstates

theorem after (h : Kept P F) (cap : Nat) {c : Call}
    (hc : P { c.walk with path := c.walk.path ++ [c.function] }) (done : List GraphEntry) :
    P (c.after cap F done).2 :=
  List.foldlRecOn (motive := fun acc : List RelStack × Walk => P acc.2) done _ hc
    fun _ hacc e _ => h.step cap e hacc

theorem amid (h : Kept P F) (cap : Nat) {c : Call}
    (hc : P { c.walk with path := c.walk.path ++ [c.function] }) (done : List GraphEntry)
    (callees : List FunctionId) (before : List RelStack) (s : RelStack)
    (earlier : List FunctionId) : P (c.amid cap F done callees before s earlier).2 :=
  h.callees _ s earlier (h.states _ before (h.after cap hc done))

end Kept

/-- What is kept by steps and by entering a function holds of the walk at every call. -/
theorem Call.Made.keeps {g : CallGraph} {cap : Nat} {root : FunctionId} {P : Walk → Prop}
    (hstart : P {}) (henter : ∀ w f, P w → P { w with path := w.path ++ [f] })
    (hkept : ∀ depth, Kept P (Deadlock.follow g cap depth)) {c : Call} (h : c.Made g cap root) :
    P c.walk := by
  induction h with
  | start => exact hstart
  | inside _ _ _ _ _ ih => exact (hkept _).amid cap (henter _ _ ih) _ _ _ _ _

end Interlock.Deadlock
