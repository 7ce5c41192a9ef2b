import Interlock.Proofs.Deadlock.Invariant

/-! Every observation explains itself. Its path leads from the root to the function that takes the
lock, call by call, and the function that holds the other lock takes it somewhere below the root,
also when it has returned long ago and its lock came back over summaries that other callers use.
Of several explanations the first one stays: when the roots of a program are merged, this is the
one of the first root that has any. -/

namespace Interlock.Deadlock

variable {g : CallGraph} {root : FunctionId}

/-! ## Where held locks come from -/

/-- The function that holds the lock takes it, and `f` comes to this function. -/
structure Held.TakenBelow (g : CallGraph) (f : FunctionId) (h : Held) : Prop where
  reaches : g.Reaches f h.acquiredIn
  takes : .acquire h.lock ∈ g.entries h.acquiredIn

theorem Held.TakenBelow.of_reaches {f c : FunctionId} {h : Held} (hreach : g.Reaches f c)
    (hbelow : h.TakenBelow g c) : h.TakenBelow g f :=
  ⟨hreach.trans hbelow.reaches, hbelow.takes⟩

namespace RelStack

/-- All locks that were taken since the entry of `f` were taken by `f` or below it. -/
def TakenBelow (g : CallGraph) (f : FunctionId) (s : RelStack) : Prop :=
  ∀ h, .acquired h ∈ s → h.TakenBelow g f

variable {f c : FunctionId} {entry : List Held} {s x : RelStack}

theorem takenBelow_identity (entry : List Held) : TakenBelow g f (.identity entry) := by
  intro h hmem
  obtain ⟨i, -, hi⟩ := List.mem_map.mp hmem
  cases hi

theorem TakenBelow.take (hs : s.TakenBelow g f) {lock : LockId}
    (hsite : .acquire lock ∈ g.entries f) : TakenBelow g f (s ++ [.acquired ⟨lock, f⟩]) := by
  intro h hmem
  rcases List.mem_append.mp hmem with hmem | hmem
  · exact hs h hmem
  · cases List.mem_singleton.mp hmem
    exact ⟨.refl, hsite⟩

/-- A frame of a composed stack comes from the caller or from the callee. -/
theorem TakenBelow.compose (hs : s.TakenBelow g f) (hcalls : g.Calls f c)
    (hx : x.TakenBelow g c) : (s.compose x).TakenBelow g f := by
  intro h hmem
  obtain ⟨frame, hframe, heq⟩ := List.mem_filterMap.mp hmem
  cases frame with
  | inherited i => exact hs h (List.mem_of_getElem? heq)
  | acquired h' =>
    cases heq
    exact (hx h hframe).of_reaches (.single hcalls)

theorem TakenBelow.of_mem_materialize (hs : s.TakenBelow g f) (hroot : g.Reaches root f)
    (hentry : ∀ h ∈ entry, h.TakenBelow g root) {h : Held} (hmem : h ∈ s.materialize entry) :
    h.TakenBelow g root := by
  obtain ⟨frame, hframe, heq⟩ := List.mem_filterMap.mp hmem
  cases frame with
  | inherited i => exact hentry h (List.mem_of_getElem? heq)
  | acquired h' =>
    cases heq
    exact (hs h hframe).of_reaches hroot

end RelStack

/-! ## Explanations -/

/-- What a witness shows: `root` comes over the path, without going through a function twice, to
the function that takes the one lock, and comes also to a function that takes the other. -/
structure Witness.Explains (g : CallGraph) (root : FunctionId) (held taken : LockId)
    (w : Witness) : Prop where
  starts : w.path.head? = some root
  ends : w.path.getLast? = some w.acquiredIn
  nodup : w.path.Nodup
  calls : w.path.IsChain g.Calls
  takes : .acquire taken ∈ g.entries w.acquiredIn
  reaches : g.Reaches root w.heldSince
  holds : .acquire held ∈ g.entries w.heldSince

/-- Whatever is on a stack was taken below the root, so what is observed explains itself. -/
def explained (g : CallGraph) (root : FunctionId) : Invariant g root where
  context _ f entry := g.Reaches root f ∧ ∀ h ∈ entry, h.TakenBelow g root
  state f _ es s := es ⊆ g.entries f ∧ s.TakenBelow g f
  exit f _ x := x.TakenBelow g f
  seen a b w := w.Explains g root a b
  enter _ entry := ⟨List.Subset.refl _, RelStack.takenBelow_identity entry⟩
  leave h := h.2
  acquire hsite h := ⟨List.subset_of_cons_subset h.1, h.2.take hsite⟩
  release h := ⟨List.subset_of_cons_subset h.1,
    fun held hmem => h.2 held (RelStack.mem_of_mem_release hmem)⟩
  library h := ⟨List.subset_of_cons_subset h.1, h.2⟩
  call hcalls _ h hx := ⟨List.subset_of_cons_subset h.1, h.2.compose hcalls hx⟩
  cut hcalls _ _ h := ⟨List.subset_of_cons_subset h.1,
    h.2.compose hcalls (RelStack.takenBelow_identity _)⟩
  descend hctx _ hc h := ⟨hctx.1.tail ⟨_, h.1 List.mem_cons_self, hc⟩,
    fun _ hmem => h.2.of_mem_materialize hctx.1 hctx.2 hmem⟩
  reuse _ hx := hx
  observe htrail hf hctx hsite h hheld :=
    have hbelow := h.2.of_mem_materialize hctx.1 hctx.2 hheld
    { starts := htrail.head?_eq
      ends := List.getLast?_concat
      nodup := List.concat_eq_append ▸ htrail.nodup.concat hf
      calls := htrail.isChain
      takes := hsite
      reaches := hbelow.reaches
      holds := hbelow.takes }

/-! ## The first root that has an explanation -/

theorem LockOrder.find?_merge (o other : LockOrder) (p : LockPair) :
    Ordered.find? p (o.merge other).edges =
      (Ordered.find? p o.edges).or (Ordered.find? p other.edges) := by
  rw [edges_merge, Ordered.find?_foldl_insertNew o.ascending]

namespace Outcome

/-- The locks that are taken again are listed in ascending order. -/
def Sorted (o : Outcome) : Prop := Ordered.Ascending (o.reentrancies.map (·.1))

theorem Sorted.merge {o : Outcome} (h : o.Sorted) (other : Outcome) : (o.merge other).Sorted := by
  rw [Sorted, Outcome.merge, Ordered.keys_foldl_insertNew]
  exact Ordered.ascending_union h

/-- What is found in several outcomes that are merged is what the first of them has. -/
theorem find?_foldl_merge {ι : Type} (run : ι → Outcome) (is : List ι) {o : Outcome}
    (h : o.Sorted) :
    (∀ p, Ordered.find? p (is.foldl (fun acc i => acc.merge (run i)) o).order.edges =
      (Ordered.find? p o.order.edges).or
        (is.findSome? fun i => Ordered.find? p (run i).order.edges)) ∧
    ∀ l, Ordered.find? l (is.foldl (fun acc i => acc.merge (run i)) o).reentrancies =
      (Ordered.find? l o.reentrancies).or
        (is.findSome? fun i => Ordered.find? l (run i).reentrancies) := by
  induction is generalizing o with
  | nil => simp
  | cons i is ih =>
    obtain ⟨horder, hagain⟩ := ih (h.merge (run i))
    constructor
    · intro p
      rw [List.foldl_cons, horder, Outcome.merge, LockOrder.find?_merge, Option.or_assoc,
        List.findSome?_cons]
      cases Ordered.find? p (run i).order.edges <;> rfl
    · intro l
      rw [List.foldl_cons, hagain, Outcome.merge, Ordered.find?_foldl_insertNew h,
        Option.or_assoc, List.findSome?_cons]
      cases Ordered.find? l (run i).reentrancies <;> rfl

end Outcome

/-- Every witness is an explanation, of an order pair and of a lock that is taken again, under
recursion, reused summaries and any cap; and a program keeps for each of them the witness of the
first root whose traversal recorded it. -/
theorem witnesses_explain (g : CallGraph) (cap : Nat) :
    (∀ root, (∀ e ∈ (traverse g cap root).order.edges, e.2.Explains g root e.1.held e.1.taken) ∧
      ∀ r ∈ (traverse g cap root).reentrancies, r.2.Explains g root r.1 r.1) ∧
    (∀ p, Ordered.find? p (lockOrder g cap).order.edges =
      (roots g).findSome? fun root => Ordered.find? p (traverse g cap root).order.edges) ∧
    ∀ l, Ordered.find? l (lockOrder g cap).reentrancies =
      (roots g).findSome? fun root => Ordered.find? l (traverse g cap root).reentrancies := by
  have hnone : ({} : Outcome).Sorted := List.Pairwise.nil
  have hfirst := Outcome.find?_foldl_merge (traverse g cap) (roots g) hnone
  refine ⟨fun root => ?_, hfirst⟩
  exact (explained g root).traverse_sound ⟨.refl, by simp⟩ cap

/-- The first function leaves one callee with its lock and calls another, which comes back. -/
def detour : CallGraph where
  nodes := [⟨0, [.calls [1], .calls [2]]⟩, ⟨1, [.acquire 1]⟩, ⟨2, [.calls [0], .acquire 2]⟩]
  threads := []

/-- The lock is held since a function that is left by then; the third function records the pair
as well, over a path of its own, and the first root's witness is the one that is kept. -/
theorem detour_explains :
    Ordered.find? ⟨1, 2⟩ (lockOrder detour 64).order.edges = some ⟨[0, 2], 1, 2⟩ ∧
    Ordered.find? ⟨1, 2⟩ (traverse detour 64 2).order.edges = some ⟨[2], 1, 2⟩ ∧
    Witness.Explains detour 0 1 2 ⟨[0, 2], 1, 2⟩ := by
  obtain ⟨hexplains, hfirst, -⟩ := witnesses_explain detour 64
  have hedges : (traverse detour 64 0).order.edges = [(⟨1, 2⟩, ⟨[0, 2], 1, 2⟩)] := by cbv
  have hroots : roots detour = [0, 1, 2] := by decide
  refine ⟨?_, by cbv, (hexplains 0).1 (⟨1, 2⟩, ⟨[0, 2], 1, 2⟩) (by simp [hedges])⟩
  rw [hfirst, hroots, List.findSome?_cons, hedges]
  rfl

end Interlock.Deadlock
