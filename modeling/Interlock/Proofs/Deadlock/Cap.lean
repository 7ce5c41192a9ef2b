import Interlock.Proofs.Deadlock.Calls

/-! The cap on sets of stacks. It bounds every set that is kept, summaries included. And it cannot
be seen until it is hit: a traversal in which nothing was cut goes the same way, step for step,
under any higher cap, because the cap is only ever compared with the size of a set. -/

namespace Interlock.Deadlock

variable {g : CallGraph} {cap : Nat}

/-! ## Sets are bounded -/

/-- No summary holds more than `k` stacks. -/
def Walk.SummariesWithin (w : Walk) (k : Nat) : Prop :=
  ∀ (key : FunctionId × List LockId) (exits : List RelStack),
    w.summaries[key]? = some exits → exits.length ≤ k

/-- What is kept after an entry is within the cap. -/
theorem length_stepEntry_le (F : Follow) (cap : Nat) (f : FunctionId) (entry : List Held)
    (acc : List RelStack × Walk) (e : GraphEntry) :
    (stepEntry F cap f entry acc e).1.length ≤ cap := by
  unfold stepEntry Walk.bound
  dsimp only
  split
  · assumption
  · exact List.length_take_le cap _

/-- So is what is kept after any of the first entries of a function. -/
theorem Call.length_after_le (hcap : 0 < cap) (F : Follow) (c : Call) (done : List GraphEntry) :
    (c.after cap F done).1.length ≤ cap := by
  by_cases hdone : done = []
  · subst hdone
    exact hcap
  · rw [Call.after, ← List.dropLast_append_getLast hdone, List.foldl_append]
    exact length_stepEntry_le F cap _ _ _ _

theorem kept_summariesWithin {F : Follow} (hF : ∀ {w : Walk} (c : FunctionId) (held : List Held),
    w.SummariesWithin cap → (F c held w).2.SummariesWithin cap) :
    Kept (fun w => w.SummariesWithin cap) F :=
  ⟨fun _ _ _ hw => hw, fun hw => hw, hF⟩

theorem follow_summariesWithin (hcap : 0 < cap) (depth : Nat) {w : Walk}
    (hw : w.SummariesWithin cap) (f : FunctionId) (entry : List Held) :
    (follow g cap depth f entry w).2.SummariesWithin cap := by
  induction depth generalizing f entry w with
  | zero => exact hw
  | succ depth ih =>
    rcases follow_cases g cap depth f entry w with ⟨-, h⟩ | ⟨-, exits, -, h⟩ | ⟨-, -, h⟩
    · rw [h]
      exact hw
    · rw [h]
      exact hw
    · rw [h]
      have hkept := kept_summariesWithin fun c held hw => ih hw c held
      have hbody := hkept.after cap (c := ⟨depth + 1, f, entry, w⟩) hw (g.entries f)
      have hexits := Call.length_after_le hcap (follow g cap depth) ⟨depth + 1, f, entry, w⟩
        (g.entries f)
      rw [Call.after_entries] at hbody hexits
      intro key exits hget
      rw [Walk.close, Std.HashMap.getElem?_insert] at hget
      split at hget
      · cases hget
        exact hexits
      · exact hbody key exits hget

theorem Call.Made.summariesWithin (hcap : 0 < cap) {root : FunctionId} {c : Call}
    (h : c.Made g cap root) : c.walk.SummariesWithin cap := by
  have hempty : ({} : Walk).SummariesWithin cap := by
    intro key exits hget
    simp at hget
  refine h.keeps hempty (fun _ _ hw => hw) fun depth => kept_summariesWithin ?_
  intro w f held hw
  exact follow_summariesWithin hcap depth hw f held

/-! ## Nothing is cut -/

/-- Nothing was cut so far. -/
abbrev Full (acc : List RelStack × Walk) : Prop := acc.2.outcome.truncated = false

/-- `F'` answers a call like `F` whenever nothing was cut by then. -/
def AgreesWhenFull (F F' : Follow) : Prop :=
  ∀ c held w, Full (F c held w) → F' c held w = F c held w

/-- Two folds agree if their steps do wherever nothing was cut. -/
theorem foldl_eq_of_full {ι : Type} {step step' : List RelStack × Walk → ι → List RelStack × Walk}
    (hgrows : ∀ (acc : List RelStack × Walk) (i : ι), acc.2.Grows (step acc i).2)
    (hagree : ∀ acc i, Full (step acc i) → step' acc i = step acc i) {is : List ι}
    {acc : List RelStack × Walk} (h : Full (is.foldl step acc)) :
    is.foldl step' acc = is.foldl step acc := by
  induction is generalizing acc with
  | nil => rfl
  | cons i is ih =>
    rw [List.foldl_cons] at h ⊢
    have hrest : (step acc i).2.Grows (is.foldl step (step acc i)).2 :=
      List.foldlRecOn (motive := fun acc' : List RelStack × Walk => (step acc i).2.Grows acc'.2)
        is step (.refl _) fun acc' hacc' j _ => hacc'.trans (hgrows acc' j)
    rw [List.foldl_cons, hagree acc i (hrest.full h)]
    exact ih h

section Steps

variable {F F' : Follow} (hagree : AgreesWhenFull F F') (hgrow : Growing F) {f : FunctionId}
  {entry : List Held}

include hagree

theorem stepCallee_eq_of_full {held : List Held} {s : RelStack} {acc : List RelStack × Walk}
    {c : FunctionId} (h : Full (stepCallee F held s acc c)) :
    stepCallee F' held s acc c = stepCallee F held s acc c := by
  have hcall : Full (F c held acc.2) := h
  simp only [stepCallee]
  rw [hagree c held acc.2 hcall]

include hgrow

theorem stepState_eq_of_full {e : GraphEntry} {acc : List RelStack × Walk} {s : RelStack}
    (h : Full (stepState F f entry e acc s)) :
    stepState F' f entry e acc s = stepState F f entry e acc s := by
  obtain ⟨next, w⟩ := acc
  cases e with
  | acquire lock => rfl
  | release lock => rfl
  | dynamic => rfl
  | calls cs =>
    cases cs with
    | nil => rfl
    | cons c cs =>
      exact foldl_eq_of_full
        (fun acc c => (stepCallee_accumulates hgrow (s.materialize entry) s acc c).walk)
        (fun _ _ => stepCallee_eq_of_full hagree) h

theorem stepEntry_eq_under {m n : Nat} (hmn : m ≤ n) {acc : List RelStack × Walk}
    {e : GraphEntry} (h : Full (stepEntry F m f entry acc e)) :
    stepEntry F' n f entry acc e = stepEntry F m f entry acc e := by
  have hlength := length_stepEntry_le F m f entry acc e
  have hstates := stepEntry_eq_of_full h
  rw [hstates] at h hlength ⊢
  have hfold : acc.1.foldl (stepState F' f entry e) ([], acc.2) =
      acc.1.foldl (stepState F f entry e) ([], acc.2) :=
    foldl_eq_of_full (fun acc s => (stepState_accumulates hgrow e acc s).walk)
      (fun _ _ => stepState_eq_of_full hagree hgrow) h
  -- the stacks were within the lower cap, so they are within the higher one
  simp only [stepEntry, Walk.bound]
  rw [hfold, if_pos (hlength.trans hmn)]

theorem runBody_eq_under {m n : Nat} (hmn : m ≤ n) {w : Walk}
    (h : Full (runBody g m F f entry w)) :
    runBody g n F' f entry w = runBody g m F f entry w :=
  foldl_eq_of_full (fun acc e => stepEntry_grows hgrow e acc)
    (fun _ _ => stepEntry_eq_under hagree hgrow hmn) h

end Steps

theorem follow_agrees {m n : Nat} (hmn : m ≤ n) (depth : Nat) :
    AgreesWhenFull (follow g m depth) (follow g n depth) := by
  induction depth with
  | zero =>
    intro f entry w _
    rfl
  | succ depth ih =>
    intro f entry w hfull
    rcases follow_cases g m depth f entry w with ⟨hf, h⟩ | ⟨hf, exits, hget, h⟩ | ⟨hf, hget, h⟩
    · simp [follow, hf]
    · simp [follow, hf, hget]
    · rw [h] at hfull ⊢
      have hbody := runBody_eq_under (g := g) ih (follow_growing g m depth) hmn hfull
      rcases follow_cases g n depth f entry w with
        ⟨hf', -⟩ | ⟨-, exits, hget', -⟩ | ⟨-, -, h'⟩
      · exact absurd hf' hf
      · rw [hget] at hget'
        cases hget'
      · rw [h', hbody]

theorem traverse_eq_of_full {m n : Nat} (hmn : m ≤ n) {root : FunctionId}
    (h : (traverse g m root).truncated = false) : traverse g n root = traverse g m root := by
  have hcaps : max m 1 ≤ max n 1 := by omega
  have hfollow := follow_agrees hcaps (g.size + 1) root [] {} h
  rw [traverse, hfollow, ← traverse]

/-! ## Whole programs -/

/-- What some roots contribute, merged in their order. -/
def lockOrderFrom (g : CallGraph) (maxExitStates : Nat) (rs : List FunctionId) : Outcome :=
  rs.foldl (fun acc root => acc.merge (traverse g maxExitStates root)) {}

theorem lockOrder_eq_from (g : CallGraph) (cap : Nat) :
    lockOrder g cap = lockOrderFrom g cap (roots g) := rfl

theorem lockOrderFrom_eq_of_full {m n : Nat} (hmn : m ≤ n) {rs : List FunctionId}
    (h : (lockOrderFrom g m rs).truncated = false) :
    lockOrderFrom g n rs = lockOrderFrom g m rs := by
  obtain ⟨-, hroots⟩ := (Outcome.foldl_merge_truncated _ rs _).mp h
  refine List.foldl_ext _ _ _ fun acc root hroot => ?_
  rw [traverse_eq_of_full hmn (hroots root hroot)]

/-- The cap is invisible until it is hit, for any roots and for those of the program: what is found
without a cut is found identically under every higher cap. And in every traversal all summaries,
and all sets of stacks that are kept after an entry, are within the cap, or hold one stack if the
cap is zero. -/
theorem lockOrder_cap (g : CallGraph) (m n : Nat) (hmn : m ≤ n) :
    (∀ rs, (lockOrderFrom g m rs).truncated = false →
      lockOrderFrom g n rs = lockOrderFrom g m rs) ∧
    ((lockOrder g m).truncated = false → lockOrder g n = lockOrder g m) ∧
    ∀ root (c : Call), c.Made g (max m 1) root →
      c.walk.SummariesWithin (max m 1) ∧
      (c.result g (max m 1)).2.SummariesWithin (max m 1) ∧
      ∀ depth done rest, c.depth = depth + 1 → c.Runs → g.entries c.function = done ++ rest →
        (c.after (max m 1) (follow g (max m 1) depth) done).1.length ≤ max m 1 := by
  have hcap : 0 < max m 1 := by omega
  refine ⟨fun rs => lockOrderFrom_eq_of_full hmn, ?_, ?_⟩
  · intro hfull
    rw [lockOrder_eq_from] at hfull ⊢
    rw [lockOrder_eq_from, lockOrderFrom_eq_of_full hmn hfull]
  · intro root c hmade
    have hw := hmade.summariesWithin hcap
    refine ⟨hw, follow_summariesWithin hcap c.depth hw c.function c.entry, ?_⟩
    intro depth done rest _ _ _
    exact Call.length_after_le hcap _ c done

/-- Either callee may leave the root with a lock of its own. -/
def forks : CallGraph where
  nodes := [⟨0, [.calls [1, 2], .acquire 3]⟩, ⟨1, [.acquire 1]⟩, ⟨2, [.acquire 2]⟩]
  threads := []

/-- Two stacks are enough, and one is not. -/
theorem forks_cap : 2 ≤ 64 ∧ (lockOrder forks 2).truncated = false ∧
    lockOrder forks 64 = lockOrder forks 2 ∧ (lockOrder forks 1).truncated = true := by
  have hfull : (lockOrder forks 2).truncated = false := by cbv
  have hcut : (lockOrder forks 1).truncated = true := by cbv
  exact ⟨by decide, hfull, (lockOrder_cap forks 2 64 (by decide)).2.1 hfull, hcut⟩

end Interlock.Deadlock
