import Interlock.Proofs.Deadlock.Invariant

/-! Everything that is observed can happen. Of a function that is entered, the invariant says that
the runs of the root come to this call; of a stack before some entries, that a run of the function
stands there with these locks. A call that is cut leads back to its caller, which is when a run
may step over it, so it does not matter on which path a summary was made. -/

namespace Interlock.Deadlock

variable {g : CallGraph} {root : FunctionId}

/-- The stacks of a traversal are the stacks of runs that may step over recursive calls. -/
def realised (g : CallGraph) (root : FunctionId) : Invariant g root where
  context path f entry := Arrival.ComesTo g (.start root) ⟨path, f, locksOf entry⟩
  state f entry es s := s.Fits entry ∧
    Stands g f (locksOf entry) es (locksOf (s.materialize entry))
  exit f entry x := Run g (skipsRecursion g) f (g.entries f) (locksOf entry)
    (.leave (locksOf (x.materialize entry)))
  seen a b _ := Meets g (skipsRecursion g) root a b
  enter f entry := ⟨RelStack.fits_identity entry, by
    rw [RelStack.materialize_identity]
    exact .start g f _⟩
  leave h := h.2.run .leave
  acquire _ h := ⟨RelStack.fits_take h.1 _, h.2.step (.acquire (by
    rw [RelStack.materialize_take]
    simpa using .leave))⟩
  release h := ⟨fun frame hframe => h.1 frame (RelStack.mem_of_mem_release hframe),
    h.2.step (.release (by
      rw [RelStack.locksOf_release]
      exact .leave))⟩
  library h := ⟨h.1, h.2.step (.library .leave)⟩
  call _ hc h hx := ⟨RelStack.fits_compose h.1 _, by
    rw [RelStack.materialize_compose h.1]
    exact h.2.step (.call hc hx .leave)⟩
  cut _ hc hback h := ⟨RelStack.fits_compose h.1 _, by
    rw [RelStack.materialize_compose h.1, RelStack.materialize_identity]
    exact h.2.step (.skip hc hback .leave)⟩
  descend hctx hf hc h := hctx.tail ⟨hf, rfl, _, _, hc, h.2⟩
  reuse hlocks hx := by
    rwa [← hlocks, ← RelStack.locksOf_materialize_congr hlocks]
  observe _ _ hctx _ h hheld :=
    ⟨_, hctx.run (h.2.run .take), List.mem_map.mpr ⟨_, hheld, rfl⟩⟩

/-- What a root observes, some run of it comes to. -/
theorem meets_of_observes {cap : Nat} {a b : LockId} (h : (traverse g cap root).Observes a b) :
    Meets g (skipsRecursion g) root a b := by
  obtain ⟨horder, hagain⟩ := (realised g root).traverse_sound .refl cap
  by_cases hab : a = b
  · subst hab
    obtain ⟨r, hr, rfl⟩ := List.mem_map.mp (Outcome.observes_self.mp h)
    exact hagain r hr
  · obtain ⟨e, he, hpair⟩ :=
      List.mem_map.mp (LockOrder.contains_iff.mp ((Outcome.observes_of_ne hab).mp h))
    have hmeets := horder e he
    rwa [hpair] at hmeets

/-- Every reported pair is real, with recursion, summaries reused under other paths, and cut sets
of stacks: the locks of an order pair differ and some run of the root takes the one while it
holds the other; a lock that is reported as taken again is taken by some run that holds it. -/
theorem traverse_realised (g : CallGraph) (cap : Nat) (root : FunctionId) :
    (∀ a b, (traverse g cap root).order.contains a b = true →
      a ≠ b ∧ Meets g (skipsRecursion g) root a b) ∧
    ∀ l ∈ (traverse g cap root).reentrancies.map (·.1), Meets g (skipsRecursion g) root l l := by
  constructor
  · intro a b h
    obtain ⟨hne, hobs⟩ := Outcome.contains_iff_observes.mp h
    exact ⟨hne, meets_of_observes hobs⟩
  · intro l h
    exact meets_of_observes (Outcome.observes_self.mpr h)

/-- Two functions that call each other. -/
def pingPong : CallGraph where
  nodes := [⟨0, [.acquire 1, .calls [1], .release 1]⟩, ⟨1, [.calls [0], .acquire 2, .release 2]⟩]
  threads := []

theorem pingPong_realised : (traverse pingPong 64 0).order.contains 1 2 = true ∧
    Meets pingPong (skipsRecursion pingPong) 0 1 2 := by
  have h : (traverse pingPong 64 0).order.contains 1 2 = true := by cbv
  exact ⟨h, ((traverse_realised pingPong 64 0).1 1 2 h).2⟩

end Interlock.Deadlock
