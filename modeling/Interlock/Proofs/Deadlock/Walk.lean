import Interlock.Proofs.Deadlock.Observation

/-! The steps of a traversal, taken one by one: what a function that is followed can do, and that
whatever is done only adds to the observations, keeps a cut in mind and restores the path. -/

namespace Interlock.Deadlock

variable {g : CallGraph} {cap : Nat} {f : FunctionId} {entry : List Held}

/-- Nothing observed is lost, a cut is kept in mind, and the path is what it was. -/
structure Walk.Grows (w w' : Walk) : Prop where
  path : w'.path = w.path
  observes : ∀ a b, w.outcome.Observes a b → w'.outcome.Observes a b
  full : w'.outcome.truncated = false → w.outcome.truncated = false

namespace Walk

theorem Grows.refl (w : Walk) : w.Grows w := ⟨rfl, fun _ _ h => h, id⟩

theorem Grows.trans {u v w : Walk} (h : u.Grows v) (h' : v.Grows w) : u.Grows w :=
  ⟨h'.path.trans h.path, fun a b hab => h'.observes a b (h.observes a b hab),
    fun hw => h.full (h'.full hw)⟩

theorem recordAcquire_grows (w : Walk) (held : List Held) (lock : LockId) :
    w.Grows (w.recordAcquire f held lock) :=
  ⟨rfl, fun _ _ h => recordAcquire_observes.mpr (Or.inl h), id⟩

theorem bound_grows (states : List RelStack) (w : Walk) : w.Grows (w.bound cap states).2 := by
  unfold bound
  split
  · exact .refl w
  · exact ⟨rfl, fun _ _ h => h, fun h => by simp at h⟩

/-- Where nothing was cut, all stacks are kept. -/
theorem bound_eq_of_full {states : List RelStack} {w : Walk}
    (h : (w.bound cap states).2.outcome.truncated = false) : w.bound cap states = (states, w) := by
  unfold bound at h ⊢
  split
  · rfl
  · next hcap => simp [hcap] at h

theorem mem_of_mem_bound {states : List RelStack} {w : Walk} {s : RelStack}
    (h : s ∈ (w.bound cap states).1) : s ∈ states := by
  unfold bound at h
  split at h
  · exact h
  · exact List.mem_of_mem_take h

end Walk

/-- Where nothing was cut, an entry leaves all stacks that it makes. -/
theorem stepEntry_eq_of_full {F : Follow} {acc : List RelStack × Walk} {e : GraphEntry}
    (h : (stepEntry F cap f entry acc e).2.outcome.truncated = false) :
    stepEntry F cap f entry acc e = acc.1.foldl (stepState F f entry e) ([], acc.2) :=
  Walk.bound_eq_of_full h

/-- A way to follow calls under which walks grow. -/
def Growing (F : Follow) : Prop := ∀ f entry w, Walk.Grows w (F f entry w).2

/-- Stacks are added to those collected before, and the walk grows. -/
structure Accumulates (acc acc' : List RelStack × Walk) : Prop where
  states : ∀ s ∈ acc.1, s ∈ acc'.1
  walk : acc.2.Grows acc'.2

namespace Accumulates

theorem refl (acc : List RelStack × Walk) : Accumulates acc acc := ⟨fun _ h => h, .refl _⟩

theorem trans {p q r : List RelStack × Walk} (h : Accumulates p q) (h' : Accumulates q r) :
    Accumulates p r :=
  ⟨fun s hs => h'.states s (h.states s hs), h.walk.trans h'.walk⟩

theorem foldl {ι : Type} {step : List RelStack × Walk → ι → List RelStack × Walk}
    (h : ∀ acc i, Accumulates acc (step acc i)) (is : List ι) (acc : List RelStack × Walk) :
    Accumulates acc (is.foldl step acc) := by
  induction is generalizing acc with
  | nil => exact .refl acc
  | cons i is ih => exact (h acc i).trans (ih (step acc i))

end Accumulates

section Steps

variable {F : Follow} (hF : Growing F)

include hF

theorem stepCallee_accumulates (held : List Held) (state : RelStack)
    (acc : List RelStack × Walk) (callee : FunctionId) :
    Accumulates acc (stepCallee F held state acc callee) :=
  ⟨fun _ hs => Ordered.mem_union.mpr (Or.inl hs), hF callee held acc.2⟩

theorem stepState_accumulates (e : GraphEntry) (acc : List RelStack × Walk) (state : RelStack) :
    Accumulates acc (stepState F f entry e acc state) := by
  obtain ⟨next, w⟩ := acc
  cases e with
  | acquire lock =>
    exact ⟨fun _ hs => Ordered.mem_insert.mpr (Or.inr hs), w.recordAcquire_grows _ lock⟩
  | release lock => exact ⟨fun _ hs => Ordered.mem_insert.mpr (Or.inr hs), .refl w⟩
  | dynamic => exact .refl _
  | calls cs =>
    cases cs with
    | nil => exact ⟨fun _ hs => Ordered.mem_insert.mpr (Or.inr hs), .refl w⟩
    | cons c cs => exact .foldl (stepCallee_accumulates hF _ state) (c :: cs) (next, w)

theorem stepEntry_grows (e : GraphEntry) (acc : List RelStack × Walk) :
    acc.2.Grows (stepEntry F cap f entry acc e).2 :=
  (Accumulates.foldl (stepState_accumulates hF e) acc.1 ([], acc.2)).walk.trans
    (Walk.bound_grows _ _)

theorem foldl_stepEntry_grows (es : List GraphEntry) (acc : List RelStack × Walk) :
    acc.2.Grows (es.foldl (stepEntry F cap f entry) acc).2 := by
  induction es generalizing acc with
  | nil => exact .refl _
  | cons e es ih => exact (stepEntry_grows hF e acc).trans (ih _)

end Steps

/-! ## Following a function -/

/-- The stacks at the end of a function and the walk that led there. -/
def runBody (g : CallGraph) (cap : Nat) (F : Follow) (f : FunctionId) (entry : List Held)
    (w : Walk) : List RelStack × Walk :=
  (g.entries f).foldl (stepEntry F cap f entry)
    ([.identity entry], { w with path := w.path ++ [f] })

/-- The walk after a function. -/
def Walk.leave (w : Walk) : Walk := { w with path := w.path.dropLast }

/-- The walk after a function, with its summary stored. -/
def Walk.close (w : Walk) (f : FunctionId) (entry : List Held) (exits : List RelStack) : Walk :=
  { w.leave with summaries := w.summaries.insert (f, locksOf entry) exits }

/-- After a summary was stored, a summary that is found is this one or was there before. -/
theorem Walk.summaries_close {w : Walk} {exits : List RelStack} {f' : FunctionId}
    {entry' : List Held} {exits' : List RelStack}
    (h : (w.close f entry exits).summaries[(f', locksOf entry')]? = some exits') :
    (f = f' ∧ locksOf entry = locksOf entry' ∧ exits = exits') ∨
      w.summaries[(f', locksOf entry')]? = some exits' := by
  rw [Walk.close, Std.HashMap.getElem?_insert] at h
  split at h
  · next heq =>
    obtain ⟨hf, hlocks⟩ := Prod.mk.inj (beq_iff_eq.mp heq)
    exact Or.inl ⟨hf, hlocks, Option.some.inj h⟩
  · exact Or.inr h

section Follow

variable {depth : Nat} {w : Walk}

/-- A function on the path is left as it was entered. -/
theorem follow_of_mem (hf : f ∈ w.path) :
    follow g cap (depth + 1) f entry w = ([.identity entry], w) := by
  simp [follow, hf]

/-- A summary stands for the function. -/
theorem follow_of_summary (hf : f ∉ w.path) {exits : List RelStack}
    (hget : w.summaries[(f, locksOf entry)]? = some exits) :
    follow g cap (depth + 1) f entry w = (exits, w) := by
  simp [follow, hf, hget]

/-- Any other function is run, and its summary is stored. -/
theorem follow_of_unknown (hf : f ∉ w.path) (hget : w.summaries[(f, locksOf entry)]? = none) :
    follow g cap (depth + 1) f entry w =
      ((runBody g cap (follow g cap depth) f entry w).1,
        (runBody g cap (follow g cap depth) f entry w).2.close f entry
          (runBody g cap (follow g cap depth) f entry w).1) := by
  simp [follow, hf, hget, runBody, Walk.close, Walk.leave]

end Follow

/-- A function that is followed is cut, looked up or run. -/
theorem follow_cases (g : CallGraph) (cap depth : Nat) (f : FunctionId) (entry : List Held)
    (w : Walk) :
    (f ∈ w.path ∧ follow g cap (depth + 1) f entry w = ([.identity entry], w)) ∨
    (f ∉ w.path ∧ ∃ exits, w.summaries[(f, locksOf entry)]? = some exits ∧
      follow g cap (depth + 1) f entry w = (exits, w)) ∨
    (f ∉ w.path ∧ w.summaries[(f, locksOf entry)]? = none ∧
      follow g cap (depth + 1) f entry w =
        ((runBody g cap (follow g cap depth) f entry w).1,
          (runBody g cap (follow g cap depth) f entry w).2.close f entry
            (runBody g cap (follow g cap depth) f entry w).1)) := by
  by_cases hf : f ∈ w.path
  · exact Or.inl ⟨hf, follow_of_mem hf⟩
  · cases hget : w.summaries[(f, locksOf entry)]? with
    | some exits => exact Or.inr (Or.inl ⟨hf, exits, rfl, follow_of_summary hf hget⟩)
    | none => exact Or.inr (Or.inr ⟨hf, rfl, follow_of_unknown hf hget⟩)

theorem runBody_grows {F : Follow} (hF : Growing F) (w : Walk) :
    w.Grows (runBody g cap F f entry w).2.leave := by
  have h : Walk.Grows { w with path := w.path ++ [f] } (runBody g cap F f entry w).2 :=
    foldl_stepEntry_grows hF (g.entries f) ([.identity entry], _)
  refine ⟨?_, h.observes, h.full⟩
  change (runBody g cap F f entry w).2.path.dropLast = w.path
  rw [h.path, List.dropLast_concat]

theorem Walk.Grows.close {w v : Walk} (h : w.Grows v.leave) (exits : List RelStack) :
    w.Grows (v.close f entry exits) :=
  ⟨h.path, h.observes, h.full⟩

theorem follow_growing (g : CallGraph) (cap depth : Nat) : Growing (follow g cap depth) := by
  induction depth with
  | zero => exact fun f entry w => .refl w
  | succ depth ih =>
    intro f entry w
    rcases follow_cases g cap depth f entry w with ⟨-, h⟩ | ⟨-, exits, -, h⟩ | ⟨-, -, h⟩
    · rw [h]
      exact .refl w
    · rw [h]
      exact .refl w
    · rw [h]
      exact (runBody_grows ih w).close _

end Interlock.Deadlock
