import Interlock.Proofs.Deadlock.Walk

/-! Two traversals side by side. Entered with the same locks, two ways to follow calls go through
the same stacks as long as they answer calls alike: who took the locks of the entry has no part in
it. What the walks are to each other is a parameter. -/

namespace Interlock.Deadlock

/-- The walk, with a cut kept in mind. -/
def Walk.cut (w : Walk) : Walk := { w with outcome := { w.outcome with truncated := true } }

/-- The same stacks, and walks that are related. -/
structure Alike (R : Walk → Walk → Prop) (acc acc' : List RelStack × Walk) : Prop where
  states : acc.1 = acc'.1
  walks : R acc.2 acc'.2

/-- A relation that is kept when both walks see the same locks being taken in `f`, when both are
cut, and when both follow one of the calls that the first makes in `f`. -/
structure Parallel (R : Walk → Walk → Prop) (f : FunctionId) (makes : FunctionId → List Held → Prop)
    (F F' : Follow) : Prop where
  record : ∀ {w w' : Walk} {held held' : List Held} (lock : LockId), R w w' →
    locksOf held = locksOf held' → R (w.recordAcquire f held lock) (w'.recordAcquire f held' lock)
  cut : ∀ {w w' : Walk}, R w w' → R w.cut w'.cut
  follow : ∀ {c : FunctionId} {held held' : List Held} {w w' : Walk}, makes c held →
    locksOf held = locksOf held' → R w w' → Alike R (F c held w) (F' c held' w')

namespace Parallel

variable {R : Walk → Walk → Prop} {f : FunctionId} {makes : FunctionId → List Held → Prop}
  {F F' : Follow} {entry entry' : List Held} {acc acc' : List RelStack × Walk}

theorem callee (P : Parallel R f makes F F') (hlocks : locksOf entry = locksOf entry')
    {c : FunctionId} {s : RelStack} (hc : makes c (s.materialize entry)) (h : Alike R acc acc') :
    Alike R (stepCallee F (s.materialize entry) s acc c)
      (stepCallee F' (s.materialize entry') s acc' c) := by
  have hcall := P.follow hc (RelStack.locksOf_materialize_congr (s := s) hlocks) h.walks
  refine ⟨?_, hcall.walks⟩
  simp only [stepCallee]
  rw [h.states, hcall.states]

theorem state (P : Parallel R f makes F F') (hlocks : locksOf entry = locksOf entry')
    {e : GraphEntry} {s : RelStack}
    (hmakes : ∀ cs, e = .calls cs → ∀ c ∈ cs, makes c (s.materialize entry))
    (h : Alike R acc acc') :
    Alike R (stepState F f entry e acc s) (stepState F' f entry' e acc' s) := by
  obtain ⟨next, w⟩ := acc
  obtain ⟨next', w'⟩ := acc'
  obtain ⟨hstates, hwalks⟩ := h
  cases hstates
  cases e with
  | acquire lock =>
    exact ⟨rfl, P.record lock hwalks (RelStack.locksOf_materialize_congr hlocks)⟩
  | release lock =>
    refine ⟨?_, hwalks⟩
    simp only [stepState]
    rw [RelStack.release_congr hlocks]
  | dynamic => exact ⟨rfl, hwalks⟩
  | calls cs =>
    cases cs with
    | nil => exact ⟨rfl, hwalks⟩
    | cons c cs =>
      exact List.foldl_rel (r := Alike R) ⟨rfl, hwalks⟩ fun c' hc' _ _ hacc =>
        P.callee hlocks (hmakes _ rfl c' hc') hacc

theorem step (P : Parallel R f makes F F') (hlocks : locksOf entry = locksOf entry') (cap : Nat)
    {e : GraphEntry}
    (hmakes : ∀ s ∈ acc.1, ∀ cs, e = .calls cs → ∀ c ∈ cs, makes c (s.materialize entry))
    (h : Alike R acc acc') :
    Alike R (stepEntry F cap f entry acc e) (stepEntry F' cap f entry' acc' e) := by
  have hfold : Alike R (acc.1.foldl (stepState F f entry e) ([], acc.2))
      (acc'.1.foldl (stepState F' f entry' e) ([], acc'.2)) := by
    rw [← h.states]
    exact List.foldl_rel (r := Alike R) ⟨rfl, h.walks⟩ fun s hs _ _ hacc =>
      P.state hlocks (hmakes s hs) hacc
  simp only [stepEntry, Walk.bound]
  rw [hfold.states]
  split
  · exact ⟨rfl, hfold.walks⟩
  · exact ⟨rfl, P.cut hfold.walks⟩

theorem foldl (P : Parallel R f makes F F') (hlocks : locksOf entry = locksOf entry') (cap : Nat)
    {es : List GraphEntry}
    (hmakes : ∀ done cs rest, es = done ++ .calls cs :: rest →
      ∀ s ∈ (done.foldl (stepEntry F cap f entry) acc).1, ∀ c ∈ cs, makes c (s.materialize entry))
    (h : Alike R acc acc') :
    Alike R (es.foldl (stepEntry F cap f entry) acc)
      (es.foldl (stepEntry F' cap f entry') acc') := by
  induction es generalizing acc acc' with
  | nil => exact h
  | cons e es ih =>
    refine ih (fun done cs rest hes => ?_) (P.step hlocks cap (fun s hs cs he => ?_) h)
    · exact hmakes (e :: done) cs rest (by rw [hes, List.cons_append])
    · exact hmakes [] cs es (by rw [he, List.nil_append]) s hs

/-- Bodies that are run side by side end with the same stacks. -/
theorem body {g : CallGraph} (P : Parallel R f makes F F')
    (hlocks : locksOf entry = locksOf entry') (cap : Nat) {w w' : Walk}
    (hmakes : ∀ done cs rest, g.entries f = done ++ .calls cs :: rest →
      ∀ s ∈ (done.foldl (stepEntry F cap f entry)
        ([.identity entry], { w with path := w.path ++ [f] })).1,
      ∀ c ∈ cs, makes c (s.materialize entry))
    (h : R { w with path := w.path ++ [f] } { w' with path := w'.path ++ [f] }) :
    Alike R (runBody g cap F f entry w) (runBody g cap F' f entry' w') :=
  P.foldl hlocks cap hmakes ⟨by rw [RelStack.identity_congr hlocks], h⟩

end Parallel

end Interlock.Deadlock
