import Interlock.Proofs.Deadlock.Walk

/-! Invariants of a traversal. What holds of the untouched stack, is kept by every entry and does
not depend on who took the locks of the entry holds of every stack that a traversal comes to, of
every summary it stores and of everything it observes, whichever path a summary is reused under
and whatever is cut. -/

namespace Interlock.Deadlock

/-- What is known of a function that is entered (`context`), of the stacks before the entries that
are left of it (`state`), of the stacks it is left with (`exit`) and of what is observed (`seen`),
and why each follows from the ones before. -/
structure Invariant (g : CallGraph) (root : FunctionId) where
  /-- The functions on the path, the function that is entered and the stack it is entered with. -/
  context : List FunctionId → FunctionId → List Held → Prop
  state : FunctionId → List Held → List GraphEntry → RelStack → Prop
  exit : FunctionId → List Held → RelStack → Prop
  seen : LockId → LockId → Witness → Prop
  enter : ∀ f entry, state f entry (g.entries f) (.identity entry)
  leave : ∀ {f entry s}, state f entry [] s → exit f entry s
  acquire : ∀ {f entry lock es s}, .acquire lock ∈ g.entries f →
    state f entry (.acquire lock :: es) s → state f entry es (s ++ [.acquired ⟨lock, f⟩])
  release : ∀ {f entry lock es s},
    state f entry (.release lock :: es) s → state f entry es (s.release entry lock)
  library : ∀ {f entry es s}, state f entry (.calls [] :: es) s → state f entry es s
  call : ∀ {f c cs entry es s x}, g.Calls f c → c ∈ cs → state f entry (.calls cs :: es) s →
    exit c (s.materialize entry) x → state f entry es (s.compose x)
  /-- A call that comes back to the path is stepped over. -/
  cut : ∀ {f c cs entry es s}, g.Calls f c → c ∈ cs → g.Reaches c f →
    state f entry (.calls cs :: es) s →
    state f entry es (s.compose (.identity (s.materialize entry)))
  descend : ∀ {path f c cs entry es s}, context path f entry → f ∉ path → c ∈ cs →
    state f entry (.calls cs :: es) s → context (path ++ [f]) c (s.materialize entry)
  /-- A summary serves all entries with the same locks. -/
  reuse : ∀ {f entry entry' x}, locksOf entry = locksOf entry' → exit f entry x → exit f entry' x
  observe : ∀ {path f entry lock es s held}, g.Trail root path f → f ∉ path →
    context path f entry → .acquire lock ∈ g.entries f → state f entry (.acquire lock :: es) s →
    held ∈ s.materialize entry →
    seen held.lock lock ⟨path ++ [f], held.acquiredIn, f⟩

namespace Invariant

variable {g : CallGraph} {root : FunctionId} (I : Invariant g root)

/-- What an invariant says of the summaries and the observations of a walk. -/
structure Holds (w : Walk) : Prop where
  summaries : ∀ f entry exits, w.summaries[(f, locksOf entry)]? = some exits →
    ∀ x ∈ exits, I.exit f entry x
  order : ∀ e ∈ w.outcome.order.edges, I.seen e.1.held e.1.taken e.2
  reentrancies : ∀ r ∈ w.outcome.reentrancies, I.seen r.1 r.1 r.2

/-- What an invariant says between two entries of `f`, which was entered on `path`. -/
structure Between (path : List FunctionId) (f : FunctionId) (entry : List Held)
    (es : List GraphEntry) (acc : List RelStack × Walk) : Prop where
  states : ∀ s ∈ acc.1, I.state f entry es s
  holds : I.Holds acc.2
  path : acc.2.path = path ++ [f]

/-- What an invariant says of a way to follow calls, as far as it is used from `path` on. -/
def Sound (path : List FunctionId) (F : Follow) : Prop :=
  ∀ f entry w, w.path = path → g.Trail root path f → I.context path f entry → I.Holds w →
    I.Holds (F f entry w).2 ∧
      ∀ x ∈ (F f entry w).1, f ∈ path ∧ x = .identity entry ∨ I.exit f entry x

/-! ## Taking a lock -/

variable {I}

theorem Holds.recordAcquire {w : Walk} (h : I.Holds w) {f : FunctionId} {lock : LockId}
    {held : List Held} (hseen : ∀ x ∈ held, I.seen x.lock lock ⟨w.path, x.acquiredIn, f⟩) :
    I.Holds (w.recordAcquire f held lock) := by
  obtain ⟨horder, hagain⟩ := Walk.forall_mem_recordAcquire I.seen hseen h.order h.reentrancies
  exact ⟨h.summaries, horder, hagain⟩

theorem Holds.of_eq {w w' : Walk} (h : I.Holds w) (hsum : w'.summaries = w.summaries)
    (horder : w'.outcome.order = w.outcome.order)
    (hagain : w'.outcome.reentrancies = w.outcome.reentrancies) : I.Holds w' :=
  ⟨hsum ▸ h.summaries, horder ▸ h.order, hagain ▸ h.reentrancies⟩

theorem Holds.bound {w : Walk} (h : I.Holds w) (cap : Nat) (states : List RelStack) :
    I.Holds (w.bound cap states).2 := by
  unfold Walk.bound
  split
  · exact h
  · exact h.of_eq rfl rfl rfl

/-- Storing a summary that the invariant allows. -/
theorem Holds.close {w : Walk} (h : I.Holds w) {f : FunctionId} {entry : List Held}
    {exits : List RelStack} (hx : ∀ x ∈ exits, I.exit f entry x) :
    I.Holds (w.close f entry exits) := by
  refine ⟨?_, h.order, h.reentrancies⟩
  intro f' entry' exits' hget x hmem
  rcases Walk.summaries_close hget with ⟨rfl, hlocks, rfl⟩ | hget
  · exact I.reuse hlocks (hx x hmem)
  · exact h.summaries f' entry' exits' hget x hmem

/-! ## The entries of a function -/

section Body

variable {F : Follow} {path : List FunctionId} {f : FunctionId} {entry : List Held}
  {es : List GraphEntry} {acc : List RelStack × Walk}

theorem Between.callee (h : I.Between path f entry es acc) (hF : I.Sound (path ++ [f]) F)
    (hgrow : Growing F) (htrail : g.Trail root path f) (hf : f ∉ path)
    (hctx : I.context path f entry) {s : RelStack} {cs : List FunctionId}
    (hsite : .calls cs ∈ g.entries f) (hs : I.state f entry (.calls cs :: es) s)
    {c : FunctionId} (hc : c ∈ cs) :
    I.Between path f entry es (stepCallee F (s.materialize entry) s acc c) := by
  have hcalls : g.Calls f c := ⟨cs, hsite, hc⟩
  have hreach : c ∈ path ++ [f] → g.Reaches c f := by
    intro hp
    rcases List.mem_append.mp hp with hp | hp
    · exact (htrail.transGen hp).to_reflTransGen
    · rw [List.mem_singleton.mp hp]
      exact .refl
  obtain ⟨hholds, hexits⟩ := hF c (s.materialize entry) acc.2 h.path (htrail.call hf hcalls)
    (I.descend hctx hf hc hs) h.holds
  refine ⟨fun t ht => ?_, hholds, (hgrow c _ acc.2).path.trans h.path⟩
  rcases Ordered.mem_union.mp ht with ht | ht
  · exact h.states t ht
  obtain ⟨x, hx, rfl⟩ := List.mem_map.mp ht
  rcases hexits x hx with ⟨hp, rfl⟩ | hx
  · exact I.cut hcalls hc (hreach hp) hs
  · exact I.call hcalls hc hs hx

theorem Between.insert {w : Walk} {states : List RelStack}
    (h : I.Between path f entry es (states, w)) {s : RelStack} (hs : I.state f entry es s) :
    I.Between path f entry es (Ordered.insert s states, w) := by
  refine ⟨fun t ht => ?_, h.holds, h.path⟩
  rcases Ordered.mem_insert.mp ht with rfl | ht
  · exact hs
  · exact h.states t ht

theorem Between.state (h : I.Between path f entry es acc) (hF : I.Sound (path ++ [f]) F)
    (hgrow : Growing F) (htrail : g.Trail root path f) (hf : f ∉ path)
    (hctx : I.context path f entry) {e : GraphEntry} (hsite : e ∈ g.entries f) {s : RelStack}
    (hs : I.state f entry (e :: es) s) :
    I.Between path f entry es (stepState F f entry e acc s) := by
  obtain ⟨next, w⟩ := acc
  cases e with
  | acquire lock =>
    have hseen : ∀ x ∈ s.materialize entry, I.seen x.lock lock ⟨w.path, x.acquiredIn, f⟩ := by
      intro x hx
      have := I.observe htrail hf hctx hsite hs hx
      rwa [← h.path] at this
    have hrecord : I.Between path f entry es
        (next, w.recordAcquire f (s.materialize entry) lock) :=
      ⟨h.states, Holds.recordAcquire h.holds hseen, h.path⟩
    exact hrecord.insert (I.acquire hsite hs)
  | release lock => exact h.insert (I.release hs)
  | dynamic => exact h
  | calls cs =>
    cases cs with
    | nil => exact h.insert (I.library hs)
    | cons c cs =>
      exact List.foldlRecOn (c :: cs) _ h fun acc hacc c' hc' =>
        hacc.callee hF hgrow htrail hf hctx hsite hs hc'

theorem Between.step {e : GraphEntry} (h : I.Between path f entry (e :: es) acc)
    (hF : I.Sound (path ++ [f]) F) (hgrow : Growing F) (htrail : g.Trail root path f)
    (hf : f ∉ path) (hctx : I.context path f entry) (hsite : e ∈ g.entries f) (cap : Nat) :
    I.Between path f entry es (stepEntry F cap f entry acc e) := by
  have hempty : I.Between path f entry es ([], acc.2) := ⟨by simp, h.holds, h.path⟩
  have hfold : I.Between path f entry es (acc.1.foldl (stepState F f entry e) ([], acc.2)) :=
    List.foldlRecOn acc.1 _ hempty fun acc' hacc s hs =>
      hacc.state hF hgrow htrail hf hctx hsite (h.states s hs)
  refine ⟨fun s hs => hfold.states s (Walk.mem_of_mem_bound hs), hfold.holds.bound cap _, ?_⟩
  exact (Walk.bound_grows _ _).path.trans hfold.path

theorem Between.foldl (hF : I.Sound (path ++ [f]) F) (hgrow : Growing F)
    (htrail : g.Trail root path f) (hf : f ∉ path) (hctx : I.context path f entry) (cap : Nat)
    {done : List GraphEntry} (h : I.Between path f entry (done ++ es) acc)
    (hsub : done ++ es ⊆ g.entries f) :
    I.Between path f entry es (done.foldl (stepEntry F cap f entry) acc) := by
  induction done generalizing acc with
  | nil => exact h
  | cons e done ih =>
    exact ih (h.step hF hgrow htrail hf hctx (hsub List.mem_cons_self) cap)
      (List.subset_of_cons_subset hsub)

/-- A function that is entered, after the first of its entries. -/
theorem Holds.body {w : Walk} (hw : I.Holds w) (hF : I.Sound (w.path ++ [f]) F)
    (hgrow : Growing F) (htrail : g.Trail root w.path f) (hf : f ∉ w.path)
    (hctx : I.context w.path f entry) (cap : Nat) {done : List GraphEntry}
    (hdone : g.entries f = done ++ es) :
    I.Between w.path f entry es (done.foldl (stepEntry F cap f entry)
      ([.identity entry], { w with path := w.path ++ [f] })) := by
  have hstart : I.Between w.path f entry (done ++ es)
      ([.identity entry], { w with path := w.path ++ [f] }) :=
    ⟨fun s hs => List.mem_singleton.mp hs ▸ hdone ▸ I.enter f entry,
      hw.of_eq rfl rfl rfl, rfl⟩
  exact hstart.foldl hF hgrow htrail hf hctx cap (hdone ▸ List.Subset.refl _)

end Body

/-! ## The whole traversal -/

variable (I)

/-- Following a function keeps an invariant, as long as the depth lasts for the functions that
are not on the path yet. -/
theorem follow_sound (cap depth : Nat) (path : List FunctionId)
    (hdepth : g.size < depth + path.length) : I.Sound path (follow g cap depth) := by
  induction depth generalizing path with
  | zero =>
    intro f entry w _ htrail
    have := htrail.length_le
    omega
  | succ depth ih =>
    intro f entry w hpath htrail hctx hw
    subst hpath
    rcases follow_cases g cap depth f entry w with ⟨hf, h⟩ | ⟨-, exits, hget, h⟩ | ⟨hf, -, h⟩
    · rw [h]
      exact ⟨hw, fun x hx => Or.inl ⟨hf, List.mem_singleton.mp hx⟩⟩
    · rw [h]
      exact ⟨hw, fun x hx => Or.inr (hw.summaries f entry exits hget x hx)⟩
    · rw [h]
      have hF : I.Sound (w.path ++ [f]) (follow g cap depth) :=
        ih _ (by simp only [List.length_append, List.length_singleton]; omega)
      have hend : I.Between w.path f entry [] (runBody g cap (follow g cap depth) f entry w) :=
        hw.body hF (follow_growing g cap depth) htrail hf hctx cap (List.append_nil _).symm
      have hexit := fun x hx => I.leave (hend.states x hx)
      exact ⟨hend.holds.close hexit, fun x hx => Or.inr (hexit x hx)⟩

/-- What an invariant says of everything that a root observes. -/
theorem traverse_sound (hroot : I.context [] root []) (cap : Nat) :
    (∀ e ∈ (traverse g cap root).order.edges, I.seen e.1.held e.1.taken e.2) ∧
      ∀ r ∈ (traverse g cap root).reentrancies, I.seen r.1 r.1 r.2 := by
  have hempty : I.Holds {} := ⟨by simp, by simp, by simp⟩
  have h := (I.follow_sound (max cap 1) (g.size + 1) [] (by simp) root [] {} rfl .start hroot
    hempty).1
  exact ⟨h.order, h.reentrancies⟩

end Invariant

end Interlock.Deadlock
