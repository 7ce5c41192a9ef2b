import Interlock.Proofs.Deadlock.Parallel

/-! Who holds the locks of an entry has no part in a traversal: a function that is entered twice
with the same locks, from the same walk, leaves with the same stacks and the same walk, and only
the holders that its new witnesses name may differ. That is why summaries can be kept by the locks
of an entry alone. -/

namespace Interlock.Deadlock

/-- A witness without the function that holds the lock. -/
def Witness.trace (v : Witness) : List FunctionId × FunctionId := (v.path, v.acquiredIn)

/-- The same keys in the same order, with witnesses that differ at most in the holder. -/
def SameTraces {α : Type} (m m' : List (α × Witness)) : Prop :=
  m.map (Prod.map id Witness.trace) = m'.map (Prod.map id Witness.trace)

namespace SameTraces

variable {α : Type} {m m' : List (α × Witness)}

theorem keys (h : SameTraces m m') : m.map (·.1) = m'.map (·.1) := by
  have hkeys := congrArg (List.map (·.1)) h
  rwa [List.map_map, List.map_map] at hkeys

/-- The first witness of a key stays on both sides. -/
theorem insertNew [Ord α] (h : SameTraces m m') (k : α) {v v' : Witness}
    (hv : v.trace = v'.trace) :
    SameTraces (Ordered.insertNew k v m) (Ordered.insertNew k v' m') := by
  rw [SameTraces, Ordered.map_insertNew, Ordered.map_insertNew, hv, h]

end SameTraces

/-- Two outcomes that differ at most in the holders that witnesses name. -/
structure Outcome.SameButHolders (o o' : Outcome) : Prop where
  order : SameTraces o.order.edges o'.order.edges
  reentrancies : SameTraces o.reentrancies o'.reentrancies
  truncated : o.truncated = o'.truncated

/-- Two walks that differ at most in the holders that witnesses name. -/
structure Walk.SameButHolders (w w' : Walk) : Prop where
  path : w.path = w'.path
  summaries : w.summaries = w'.summaries
  outcome : w.outcome.SameButHolders w'.outcome

/-! ## Taking a lock -/

theorem LockOrder.edges_insert (o : LockOrder) (held taken : LockId) (v : Witness) :
    (o.insert held taken v).edges =
      if held = taken then o.edges else Ordered.insertNew ⟨held, taken⟩ v o.edges := by
  unfold LockOrder.insert
  split
  · rfl
  · rfl

theorem sameTraces_foldl_insert {held held' : List Held} (hlocks : locksOf held = locksOf held')
    (lock : LockId) {v v' : Held → Witness} (hv : ∀ h h', (v h).trace = (v' h').trace)
    {o o' : LockOrder} (ho : SameTraces o.edges o'.edges) :
    SameTraces (held.foldl (fun o h => o.insert h.lock lock (v h)) o).edges
      (held'.foldl (fun o h => o.insert h.lock lock (v' h)) o').edges := by
  induction held generalizing held' o o' with
  | nil =>
    rw [List.map_eq_nil_iff.mp hlocks.symm]
    exact ho
  | cons h held ih =>
    cases held' with
    | nil => cases hlocks
    | cons h' held' =>
      obtain ⟨hlock, hrest⟩ := List.cons.inj hlocks
      have hlock : h.lock = h'.lock := hlock
      refine ih hrest ?_
      rw [LockOrder.edges_insert, LockOrder.edges_insert, hlock]
      split
      · exact ho
      · exact ho.insertNew _ (hv h h')

theorem find?_lock_eq_none {held : List Held} {lock : LockId} :
    (held.find? fun h => h.lock == lock) = none ↔ lock ∉ locksOf held := by
  simp

namespace Walk.SameButHolders

variable {w w' : Walk}

theorem refl (w : Walk) : w.SameButHolders w := ⟨rfl, rfl, rfl, rfl, rfl⟩

theorem record (h : w.SameButHolders w') (f : FunctionId) {held held' : List Held}
    (hlocks : locksOf held = locksOf held') (lock : LockId) :
    (w.recordAcquire f held lock).SameButHolders (w'.recordAcquire f held' lock) := by
  have hnone : (held.find? fun h => h.lock == lock) = none ↔
      (held'.find? fun h => h.lock == lock) = none := by
    rw [find?_lock_eq_none, find?_lock_eq_none, hlocks]
  refine ⟨h.path, h.summaries, ?_, ?_, h.outcome.truncated⟩
  · refine sameTraces_foldl_insert hlocks lock (fun x x' => ?_) h.outcome.order
    simp only [Witness.trace, h.path]
  · simp only [recordAcquire]
    cases hx : held.find? fun h => h.lock == lock with
    | none =>
      rw [hnone.mp hx]
      exact h.outcome.reentrancies
    | some x =>
      obtain ⟨x', hx'⟩ := Option.ne_none_iff_exists'.mp (hnone.not.mp (by simp [hx]))
      rw [hx']
      refine h.outcome.reentrancies.insertNew lock ?_
      simp only [Witness.trace, h.path]

theorem cut (h : w.SameButHolders w') : w.cut.SameButHolders w'.cut :=
  ⟨h.path, h.summaries, h.outcome.order, h.outcome.reentrancies, rfl⟩

theorem enter (h : w.SameButHolders w') (f : FunctionId) :
    SameButHolders { w with path := w.path ++ [f] } { w' with path := w'.path ++ [f] } :=
  ⟨by rw [h.path], h.summaries, h.outcome⟩

theorem close (h : w.SameButHolders w') (f : FunctionId) {entry entry' : List Held}
    (hlocks : locksOf entry = locksOf entry') (exits : List RelStack) :
    (w.close f entry exits).SameButHolders (w'.close f entry' exits) := by
  refine ⟨?_, ?_, h.outcome⟩
  · simp only [Walk.close, Walk.leave, h.path]
  · simp only [Walk.close, h.summaries, hlocks]

end Walk.SameButHolders

/-! ## Following a function -/

theorem follow_sameButHolders (g : CallGraph) (cap depth : Nat) {f : FunctionId}
    {entry entry' : List Held} (hlocks : locksOf entry = locksOf entry') {w w' : Walk}
    (h : w.SameButHolders w') :
    Alike Walk.SameButHolders (follow g cap depth f entry w) (follow g cap depth f entry' w') := by
  induction depth generalizing f entry entry' w w' with
  | zero => exact ⟨by rw [follow, follow, RelStack.identity_congr hlocks], h⟩
  | succ depth ih =>
    have hkey : w'.summaries[(f, locksOf entry')]? = w.summaries[(f, locksOf entry)]? := by
      rw [h.summaries, hlocks]
    rcases follow_cases g cap depth f entry w with
      ⟨hf, heq⟩ | ⟨hf, exits, hget, heq⟩ | ⟨hf, hget, heq⟩
    · rw [heq, follow_of_mem (h.path ▸ hf), RelStack.identity_congr hlocks]
      exact ⟨rfl, h⟩
    · rw [heq, follow_of_summary (h.path ▸ hf) (hkey.trans hget)]
      exact ⟨rfl, h⟩
    · have P : Parallel Walk.SameButHolders f (fun _ _ => True) (follow g cap depth)
          (follow g cap depth) :=
        ⟨fun lock h hlocks => h.record f hlocks lock, fun h => h.cut, fun _ hlocks h => ih hlocks h⟩
      have hbody := P.body (g := g) hlocks cap (fun _ _ _ _ _ _ _ _ => trivial) (h.enter f)
      rw [heq, follow_of_unknown (h.path ▸ hf) (hkey.trans hget), hbody.states]
      exact ⟨rfl, hbody.walks.close f hlocks _⟩

/-- What a function leaves with depends on the locks that it is entered with, and not on who holds
them: from every walk, any two entries with the same locks give the same exit stacks, path,
summaries, cut, order pairs and re-entrant locks, and the witnesses differ at most in the holders
that they name. -/
theorem follow_depends_on_locks (g : CallGraph) (cap depth : Nat) (f : FunctionId)
    (entry entry' : List Held) (hlocks : locksOf entry = locksOf entry') (w : Walk) :
    let left := follow g cap depth f entry w
    let left' := follow g cap depth f entry' w
    left.1 = left'.1 ∧ left.2.path = left'.2.path ∧ left.2.summaries = left'.2.summaries ∧
    left.2.outcome.truncated = left'.2.outcome.truncated ∧
    left.2.outcome.order.edges.map (·.1) = left'.2.outcome.order.edges.map (·.1) ∧
    left.2.outcome.reentrancies.map (·.1) = left'.2.outcome.reentrancies.map (·.1) ∧
    left.2.outcome.SameButHolders left'.2.outcome := by
  obtain ⟨hexits, hpath, hsummaries, houtcome⟩ :=
    follow_sameButHolders g cap depth (f := f) hlocks (.refl w)
  exact ⟨hexits, hpath, hsummaries, houtcome.truncated, houtcome.order.keys,
    houtcome.reentrancies.keys, houtcome⟩

/-- The first function gives up a lock of its caller; its callee takes the other one again. -/
def relay : CallGraph where
  nodes := [⟨0, [.release 2, .calls [1], .acquire 3]⟩, ⟨1, [.acquire 1]⟩]
  threads := []

/-- Two callers that took the same locks the other way round: the stacks that they get back are
the same, and what is told of the holders is not. -/
theorem relay_depends_on_locks :
    locksOf [⟨1, 7⟩, ⟨2, 8⟩] = locksOf [⟨1, 8⟩, ⟨2, 7⟩] ∧
    (follow relay 64 3 0 [⟨1, 7⟩, ⟨2, 8⟩] {}).1 = (follow relay 64 3 0 [⟨1, 8⟩, ⟨2, 7⟩] {}).1 ∧
    (follow relay 64 3 0 [⟨1, 7⟩, ⟨2, 8⟩] {}).2.outcome.order.edges ≠
      (follow relay 64 3 0 [⟨1, 8⟩, ⟨2, 7⟩] {}).2.outcome.order.edges := by
  have hlocks : locksOf [⟨1, 7⟩, ⟨2, 8⟩] = locksOf [⟨1, 8⟩, ⟨2, 7⟩] := rfl
  have hedges : (follow relay 64 3 0 [⟨1, 7⟩, ⟨2, 8⟩] {}).2.outcome.order.edges =
      [(⟨1, 3⟩, ⟨[0], 7, 0⟩)] := by cbv
  have hedges' : (follow relay 64 3 0 [⟨1, 8⟩, ⟨2, 7⟩] {}).2.outcome.order.edges =
      [(⟨1, 3⟩, ⟨[0], 8, 0⟩)] := by cbv
  refine ⟨hlocks, (follow_depends_on_locks relay 64 3 0 _ _ hlocks {}).1, ?_⟩
  rw [hedges, hedges']
  decide

end Interlock.Deadlock
