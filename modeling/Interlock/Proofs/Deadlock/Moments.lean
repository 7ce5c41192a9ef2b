import Mathlib.Computability.StateTransition
import Interlock.Proofs.Deadlock.Execution
import Interlock.Proofs.Deadlock.Walk

/-! The recursion of a traversal, one step at a time and without a bound on its depth. A moment says
which calls are open and what the innermost one is about to do. The functions of the open calls are
the path: no function is on it twice, and a function that calls has a node, so there are never more
calls open than there are nodes and one. Hence the recursion ends, and it ends with what the bounded
traversal gives. -/

namespace Interlock.Deadlock

open StateTransition

/-! ## Moments -/

/-- A function that is being run. -/
structure Activation where
  function : FunctionId
  entry : List Held
  /-- The entries that are not done yet, the current one first. -/
  todo : List GraphEntry
  /-- The stacks that the current entry is still to be taken over. -/
  states : List RelStack
  /-- The stacks that the current entry has made. -/
  next : List RelStack

/-- A function at one of its call sites, with the stack that the callees are followed on. -/
structure Caller where
  activation : Activation
  state : RelStack
  /-- The callees that are still to be followed. -/
  callees : List FunctionId

/-- A moment of the recursion: the calls that wait for a callee, the innermost one first, and where
the innermost call stands. -/
inductive Moment where
  | enter (callers : List Caller) (function : FunctionId) (entry : List Held) (walk : Walk)
  | inside (callers : List Caller) (activation : Activation) (walk : Walk)
  | atSite (callers : List Caller) (site : Caller) (walk : Walk)
  | left (callers : List Caller) (exits : List RelStack) (walk : Walk)

/-- The way to follow calls where there are none. -/
def stay : Follow := fun _ entry w => ([.identity entry], w)

namespace Moment

/-- Before the root is followed with nothing held. -/
def start (root : FunctionId) : Moment := enter [] root [] {}

/-- The next moment, if the recursion has not ended. -/
def step (g : CallGraph) (cap : Nat) : Moment → Option Moment
  | enter callers f entry w =>
    if f ∈ w.path then some (left callers [.identity entry] w)
    else match w.summaries[(f, locksOf entry)]? with
      | some exits => some (left callers exits w)
      | none => some (inside callers ⟨f, entry, g.entries f, [.identity entry], []⟩
          { w with path := w.path ++ [f] })
  | inside callers ⟨f, entry, [], states, _⟩ w =>
    some (left callers states (w.close f entry states))
  | inside callers ⟨f, entry, _ :: todo, [], next⟩ w =>
    let (states, w) := w.bound cap next
    some (inside callers ⟨f, entry, todo, states, []⟩ w)
  | inside callers ⟨f, entry, e :: todo, s :: states, next⟩ w =>
    match e with
    | .calls (c :: cs) =>
      some (atSite callers ⟨⟨f, entry, e :: todo, states, next⟩, s, c :: cs⟩ w)
    | _ =>
      let (next, w) := stepState stay f entry e (next, w) s
      some (inside callers ⟨f, entry, e :: todo, states, next⟩ w)
  | atSite callers ⟨a, _, []⟩ w => some (inside callers a w)
  | atSite callers ⟨a, s, c :: cs⟩ w =>
    some (enter (⟨a, s, cs⟩ :: callers) c (s.materialize a.entry) w)
  | left (⟨a, s, cs⟩ :: callers) exits w =>
    some (atSite callers
      ⟨{ a with next := Ordered.union a.next (exits.map s.compose) }, s, cs⟩ w)
  | left [] _ _ => none

/-- The calls that wait for a callee, the innermost one first. -/
def callers : Moment → List Caller
  | enter callers _ _ _ => callers
  | inside callers _ _ => callers
  | atSite callers _ _ => callers
  | left callers _ _ => callers

def walk : Moment → Walk
  | enter _ _ _ w => w
  | inside _ _ w => w
  | atSite _ _ w => w
  | left _ _ w => w

/-- How many calls are open. -/
def depth (m : Moment) : Nat := m.callers.length + 1

end Moment

open Moment

variable {g : CallGraph} {cap : Nat} {f : FunctionId} {entry : List Held} {w : Walk}
  {callers : List Caller} {todo : List GraphEntry} {states next : List RelStack}

/-- The recursion comes from one moment to another. -/
abbrev Leads (g : CallGraph) (cap : Nat) : Moment → Moment → Prop := Reaches (step g cap)

namespace Leads

variable {m m' m'' : Moment}

theorem step (h : Moment.step g cap m = some m') : Leads g cap m m' :=
  Relation.ReflTransGen.single h

theorem trans (h : Leads g cap m m') (h' : Leads g cap m' m'') : Leads g cap m m'' :=
  Relation.ReflTransGen.trans h h'

end Leads

/-! ## The recursion and the bounded traversal -/

/-- From `path` on, the recursion follows every function, whoever calls it, to the exit stacks and
the walk that `F` gives. -/
def Realises (g : CallGraph) (cap : Nat) (path : List FunctionId) (F : Follow) : Prop :=
  ∀ callers f entry w, w.path = path →
    Leads g cap (enter callers f entry w) (left callers (F f entry w).1 (F f entry w).2)

section Body

variable {F : Follow} {path : List FunctionId}

/-- The callees of a call site are followed one after the other. -/
theorem leads_callees (hF : Realises g cap path F) (hgrow : Growing F) (s : RelStack)
    (cs : List FunctionId) (hw : w.path = path) :
    Leads g cap (atSite callers ⟨⟨f, entry, todo, states, next⟩, s, cs⟩ w)
      (inside callers ⟨f, entry, todo, states,
        (cs.foldl (stepCallee F (s.materialize entry) s) (next, w)).1⟩
        (cs.foldl (stepCallee F (s.materialize entry) s) (next, w)).2) := by
  induction cs generalizing next w with
  | nil => exact .step rfl
  | cons c cs ih =>
    let waiting : Caller := ⟨⟨f, entry, todo, states, next⟩, s, cs⟩
    let exits := F c (s.materialize entry) w
    let after : Moment := atSite callers
      ⟨⟨f, entry, todo, states, Ordered.union next (exits.1.map s.compose)⟩, s, cs⟩ exits.2
    have henter : Leads g cap (atSite callers ⟨⟨f, entry, todo, states, next⟩, s, c :: cs⟩ w)
        (enter (waiting :: callers) c (s.materialize entry) w) := .step rfl
    have hcall : Leads g cap (enter (waiting :: callers) c (s.materialize entry) w)
        (left (waiting :: callers) exits.1 exits.2) := hF _ c _ w hw
    have hback : Leads g cap (left (waiting :: callers) exits.1 exits.2) after := .step rfl
    exact henter.trans (hcall.trans (hback.trans (ih ((hgrow c _ w).path.trans hw))))

/-- An entry is taken over one stack. -/
theorem leads_state (hF : Realises g cap path F) (hgrow : Growing F) (e : GraphEntry) (s : RelStack)
    (hw : w.path = path) :
    Leads g cap (inside callers ⟨f, entry, e :: todo, s :: states, next⟩ w)
      (inside callers ⟨f, entry, e :: todo, states, (stepState F f entry e (next, w) s).1⟩
        (stepState F f entry e (next, w) s).2) := by
  cases e with
  | acquire lock => exact .step rfl
  | release lock => exact .step rfl
  | dynamic => exact .step rfl
  | calls cs =>
    cases cs with
    | nil => exact .step rfl
    | cons c cs =>
      have hsite : Leads g cap
          (inside callers ⟨f, entry, .calls (c :: cs) :: todo, s :: states, next⟩ w)
          (atSite callers ⟨⟨f, entry, .calls (c :: cs) :: todo, states, next⟩, s, c :: cs⟩ w) :=
        .step rfl
      exact hsite.trans (leads_callees hF hgrow s (c :: cs) hw)

/-- An entry is taken over all stacks. -/
theorem leads_states (hF : Realises g cap path F) (hgrow : Growing F) (e : GraphEntry)
    (ss : List RelStack) (hw : w.path = path) :
    Leads g cap (inside callers ⟨f, entry, e :: todo, ss, next⟩ w)
      (inside callers ⟨f, entry, e :: todo, [], (ss.foldl (stepState F f entry e) (next, w)).1⟩
        (ss.foldl (stepState F f entry e) (next, w)).2) := by
  induction ss generalizing next w with
  | nil => exact .refl
  | cons s ss ih =>
    have hgrows : w.Grows (stepState F f entry e (next, w) s).2 :=
      (stepState_accumulates hgrow e (next, w) s).walk
    exact (leads_state hF hgrow e s hw).trans (ih (hgrows.path.trans hw))

/-- The entries of a function are taken one after the other. -/
theorem leads_entries (hF : Realises g cap path F) (hgrow : Growing F) (es : List GraphEntry)
    (hw : w.path = path) :
    Leads g cap (inside callers ⟨f, entry, es, states, []⟩ w)
      (inside callers ⟨f, entry, [], (es.foldl (stepEntry F cap f entry) (states, w)).1, []⟩
        (es.foldl (stepEntry F cap f entry) (states, w)).2) := by
  induction es generalizing states w with
  | nil => exact .refl
  | cons e es ih =>
    let made := states.foldl (stepState F f entry e) ([], w)
    have hstates : Leads g cap (inside callers ⟨f, entry, e :: es, states, []⟩ w)
        (inside callers ⟨f, entry, e :: es, [], made.1⟩ made.2) := leads_states hF hgrow e states hw
    have hbound : Leads g cap (inside callers ⟨f, entry, e :: es, [], made.1⟩ made.2)
        (inside callers ⟨f, entry, es, (made.2.bound cap made.1).1, []⟩
          (made.2.bound cap made.1).2) := .step rfl
    have hgrows : w.Grows (stepEntry F cap f entry (states, w) e).2 :=
      stepEntry_grows hgrow e (states, w)
    exact hstates.trans (hbound.trans (ih (hgrows.path.trans hw)))

end Body

/-- The recursion follows a function as the bounded traversal does, where the bound lasts for the
functions that are not on the path. -/
theorem realises_follow (depth : Nat) {path : List FunctionId} (hpath : g.OnNodes path)
    (hdepth : g.size < depth + path.length) : Realises g cap path (follow g cap depth) := by
  induction depth generalizing path with
  | zero =>
    have := hpath.length_le
    omega
  | succ depth ih =>
    intro callers f entry w hw
    subst hw
    rcases follow_cases g cap depth f entry w with ⟨hf, h⟩ | ⟨hf, exits, hget, h⟩ | ⟨hf, hget, h⟩
    · rw [h]
      exact .step (by simp [step, hf])
    · rw [h]
      exact .step (by simp [step, hf, hget])
    · rw [h]
      have henter : Leads g cap (enter callers f entry w) (inside callers
          ⟨f, entry, g.entries f, [.identity entry], []⟩ { w with path := w.path ++ [f] }) :=
        .step (by simp [step, hf, hget])
      have hbody : Leads g cap (inside callers
          ⟨f, entry, g.entries f, [.identity entry], []⟩ { w with path := w.path ++ [f] })
          (inside callers ⟨f, entry, [], (runBody g cap (follow g cap depth) f entry w).1, []⟩
            (runBody g cap (follow g cap depth) f entry w).2) := by
        cases hentries : g.entries f with
        | nil =>
          rw [runBody, hentries]
          exact .refl
        | cons e es =>
          have hfirst : e ∈ g.entries f := hentries ▸ List.mem_cons_self
          have hnode := CallGraph.lt_size_of_mem_entries hfirst
          have hlater : g.size < depth + (w.path ++ [f]).length := by
            rw [List.length_append, List.length_singleton]
            omega
          have hF := ih (hpath.concat hf hnode) hlater
          rw [runBody, ← hentries]
          exact leads_entries hF (follow_growing g cap depth) (g.entries f) rfl
      exact henter.trans (hbody.trans (.step rfl))

/-! ## The path at every moment -/

/-- The functions of calls that wait, the outermost one first. -/
def functionsOf (callers : List Caller) : List FunctionId :=
  (callers.map (·.activation.function)).reverse

theorem functionsOf_cons (c : Caller) (callers : List Caller) :
    functionsOf (c :: callers) = functionsOf callers ++ [c.activation.function] := by
  rw [functionsOf, List.map_cons, List.reverse_cons, functionsOf]

/-- The calls that wait are calls of different functions, which have nodes, and what they still have
to do are entries of these functions. -/
structure Open (g : CallGraph) (callers : List Caller) : Prop where
  onNodes : g.OnNodes (functionsOf callers)
  entries : ∀ c ∈ callers, c.activation.todo ⊆ g.entries c.activation.function

namespace Open

theorem nil (g : CallGraph) : Open g [] :=
  ⟨.nil g, fun _ h => absurd h List.not_mem_nil⟩

/-- A function that stands at an entry of its own waits for a callee. -/
theorem cons (h : Open g callers) {c : Caller} {e : GraphEntry} (he : e ∈ c.activation.todo)
    (hentries : c.activation.todo ⊆ g.entries c.activation.function)
    (hfresh : c.activation.function ∉ functionsOf callers) : Open g (c :: callers) := by
  have hnode := CallGraph.lt_size_of_mem_entries (hentries he)
  refine ⟨?_, List.forall_mem_cons.mpr ⟨hentries, h.entries⟩⟩
  rw [functionsOf_cons]
  exact h.onNodes.concat hfresh hnode

theorem tail {c : Caller} (h : Open g (c :: callers)) : Open g callers := by
  have hnodes := h.onNodes
  rw [functionsOf_cons] at hnodes
  exact ⟨hnodes.of_append, fun c' hc' => h.entries c' (List.mem_cons_of_mem _ hc')⟩

theorem fresh {c : Caller} (h : Open g (c :: callers)) :
    c.activation.function ∉ functionsOf callers := by
  have hnodup := h.onNodes.nodup
  rw [functionsOf_cons] at hnodup
  intro hmem
  exact List.disjoint_of_nodup_append hnodup hmem (List.mem_singleton_self _)

/-- The stacks that a waiting call has made, and its callees, have no part in this. -/
theorem congr {c c' : Caller} (h : Open g (c :: callers))
    (hfunction : c'.activation.function = c.activation.function)
    (htodo : c'.activation.todo = c.activation.todo) : Open g (c' :: callers) := by
  obtain ⟨hentries, hrest⟩ := List.forall_mem_cons.mp h.entries
  refine ⟨?_, List.forall_mem_cons.mpr ⟨?_, hrest⟩⟩
  · rw [functionsOf_cons, hfunction, ← functionsOf_cons]
    exact h.onNodes
  · rw [hfunction, htodo]
    exact hentries

end Open

/-- The path is what the open calls say, and only the innermost of them can lack a node. -/
inductive Sound (g : CallGraph) : Moment → Prop
  | enter {callers : List Caller} {f : FunctionId} {entry : List Held} {w : Walk} :
    Open g callers → w.path = functionsOf callers → Sound g (enter callers f entry w)
  | inside {callers : List Caller} {a : Activation} {w : Walk} :
    Open g callers → a.todo ⊆ g.entries a.function → a.function ∉ functionsOf callers →
    w.path = functionsOf callers ++ [a.function] → Sound g (inside callers a w)
  | atSite {callers : List Caller} {c : Caller} {w : Walk} :
    Open g (c :: callers) → w.path = functionsOf (c :: callers) → Sound g (atSite callers c w)
  | left {callers : List Caller} {exits : List RelStack} {w : Walk} :
    Open g callers → w.path = functionsOf callers → Sound g (left callers exits w)

theorem growing_stay : Growing stay := fun _ _ w => .refl w

/-- A step keeps the path what the open calls say. -/
theorem Sound.step {m m' : Moment} (h : Sound g m) (hstep : Moment.step g cap m = some m') :
    Sound g m' := by
  cases h with
  | @enter callers f entry w hopen hpath =>
    simp only [Moment.step] at hstep
    split at hstep
    · cases hstep
      exact .left hopen hpath
    · next hfresh =>
      split at hstep
      · cases hstep
        exact .left hopen hpath
      · cases hstep
        rw [hpath] at hfresh
        refine .inside hopen (List.Subset.refl _) hfresh ?_
        rw [hpath]
  | @inside callers a w hopen htodo hfresh hpath =>
    obtain ⟨f, entry, todo, states, next⟩ := a
    cases todo with
    | nil =>
      cases hstep
      refine .left hopen ?_
      show w.path.dropLast = functionsOf callers
      rw [hpath, List.dropLast_concat]
    | cons e todo =>
      cases states with
      | nil =>
        cases hstep
        refine .inside hopen (List.subset_of_cons_subset htodo) hfresh ?_
        exact (w.bound_grows next).path.trans hpath
      | cons s states =>
        -- an entry that calls nothing leaves the function inside itself
        have hstay : ∀ acc : List RelStack × Walk, acc = stepState stay f entry e (next, w) s →
            Sound g (.inside callers ⟨f, entry, e :: todo, states, acc.1⟩ acc.2) := by
          rintro acc rfl
          have hgrows : w.Grows (stepState stay f entry e (next, w) s).2 :=
            (stepState_accumulates growing_stay e (next, w) s).walk
          exact .inside hopen htodo hfresh (hgrows.path.trans hpath)
        cases e with
        | acquire | release | dynamic =>
          cases hstep
          exact hstay _ rfl
        | calls cs =>
          cases cs with
          | nil =>
            cases hstep
            exact hstay _ rfl
          | cons c cs =>
            cases hstep
            refine .atSite (hopen.cons List.mem_cons_self htodo hfresh) ?_
            rw [functionsOf_cons]
            exact hpath
  | @atSite callers c w hopen hpath =>
    obtain ⟨a, s, cs⟩ := c
    cases cs with
    | nil =>
      cases hstep
      refine .inside hopen.tail (hopen.entries _ List.mem_cons_self) hopen.fresh ?_
      rw [hpath, functionsOf_cons]
    | cons c cs =>
      cases hstep
      refine .enter (hopen.congr rfl rfl) ?_
      rw [hpath, functionsOf_cons, functionsOf_cons]
  | @left callers exits w hopen hpath =>
    cases callers with
    | nil => cases hstep
    | cons c callers =>
      cases hstep
      refine .atSite (hopen.congr rfl rfl) ?_
      rw [hpath, functionsOf_cons, functionsOf_cons]

/-- At every moment of a run the path is what the open calls say. -/
theorem Sound.leads {m m' : Moment} (h : Sound g m) (hleads : Leads g cap m m') : Sound g m' := by
  induction hleads with
  | refl => exact h
  | tail _ hstep ih => exact ih.step hstep

theorem sound_start (g : CallGraph) (root : FunctionId) : Sound g (start root) :=
  .enter (.nil g) rfl

namespace Sound

variable {m : Moment}

theorem opens (h : Sound g m) : Open g m.callers := by
  cases h with
  | enter hopen => exact hopen
  | inside hopen => exact hopen
  | atSite hopen => exact hopen.tail
  | left hopen => exact hopen

/-- Behind the calls that wait, the path holds at most the function of the innermost call. -/
theorem path_eq (h : Sound g m) : ∃ innermost, m.walk.path = functionsOf m.callers ++ innermost ∧
    innermost.length ≤ 1 ∧ m.walk.path.Nodup := by
  cases h with
  | enter hopen hpath =>
    refine ⟨[], hpath.trans (List.append_nil _).symm, Nat.zero_le 1, ?_⟩
    exact hpath ▸ hopen.onNodes.nodup
  | @inside callers a w hopen _ hfresh hpath =>
    refine ⟨[a.function], hpath, Nat.le_refl 1, ?_⟩
    show w.path.Nodup
    rw [hpath, ← List.concat_eq_append]
    exact hopen.onNodes.nodup.concat hfresh
  | @atSite callers c w hopen hpath =>
    refine ⟨[c.activation.function], hpath.trans (functionsOf_cons c callers), Nat.le_refl 1, ?_⟩
    exact hpath ▸ hopen.onNodes.nodup
  | left hopen hpath =>
    refine ⟨[], hpath.trans (List.append_nil _).symm, Nat.zero_le 1, ?_⟩
    exact hpath ▸ hopen.onNodes.nodup

theorem lt_size_of_mem_dropLast (h : Sound g m) (hf : f ∈ m.walk.path.dropLast) : f < g.size := by
  obtain ⟨innermost, hpath, hlength, -⟩ := h.path_eq
  refine h.opens.onNodes.nodes f ?_
  cases innermost with
  | nil =>
    rw [hpath, List.append_nil] at hf
    exact List.mem_of_mem_dropLast hf
  | cons a rest =>
    obtain rfl : rest = [] := List.length_eq_zero_iff.mp (by simpa using hlength)
    rwa [hpath, List.dropLast_concat] at hf

theorem depth_le (h : Sound g m) : m.depth ≤ g.size + 1 := by
  have hlength := h.opens.onNodes.length_le
  rw [functionsOf, List.length_reverse, List.length_map] at hlength
  exact Nat.succ_le_succ hlength

end Sound

/-! ## The end of the recursion -/

/-- A call that the recursion comes to returns with what the bounded traversal gives for it. -/
theorem leads_of_enter (h : Sound g (enter callers f entry w)) :
    Leads g cap (enter callers f entry w)
      (left callers (follow g cap (g.size + 1 - callers.length) f entry w).1
        (follow g cap (g.size + 1 - callers.length) f entry w).2) := by
  cases h with
  | enter hopen hpath =>
    have hlength : (functionsOf callers).length = callers.length := by
      rw [functionsOf, List.length_reverse, List.length_map]
    have hle := hopen.onNodes.length_le
    exact realises_follow _ hopen.onNodes (by omega) callers f entry w hpath

/-- The recursion ends for every call graph, root and cap, with the outcome of the bounded
traversal. At every moment no function is on the path twice, all functions on it but the last one
have nodes, and at most one call more is open than there are nodes. Every call that is made returns,
with the exit stacks and the walk of the bounded traversal, and whenever it has returned the path is
what it was. -/
theorem traversal_ends (g : CallGraph) (maxExitStates : Nat) (root : FunctionId) :
    (∃ exits w, left [] exits w ∈ eval (step g (max maxExitStates 1)) (start root) ∧
      w.outcome = traverse g maxExitStates root) ∧
    (∀ m, Reaches (step g (max maxExitStates 1)) (start root) m → m.walk.path.Nodup ∧
      (∀ f ∈ m.walk.path.dropLast, ∃ node, g.nodes[f]? = some node) ∧ m.depth ≤ g.size + 1) ∧
    ∀ callers f entry w,
      Reaches (step g (max maxExitStates 1)) (start root) (enter callers f entry w) →
      (∃ exits w', Reaches (step g (max maxExitStates 1)) (enter callers f entry w)
          (left callers exits w') ∧
        (exits, w') = follow g (max maxExitStates 1) (g.size + 1 - callers.length) f entry w) ∧
      ∀ exits w', Reaches (step g (max maxExitStates 1)) (enter callers f entry w)
        (left callers exits w') → w'.path = w.path := by
  refine ⟨?_, ?_, ?_⟩
  · refine ⟨_, _, mem_eval.mpr ⟨leads_of_enter (sound_start g root), rfl⟩, rfl⟩
  · intro m hm
    have hsound := (sound_start g root).leads hm
    obtain ⟨-, -, -, hnodup⟩ := hsound.path_eq
    refine ⟨hnodup, ?_, hsound.depth_le⟩
    intro f hf
    exact ⟨_, List.getElem?_eq_getElem (hsound.lt_size_of_mem_dropLast hf)⟩
  · intro callers f entry w hm
    have hsound := (sound_start g root).leads hm
    refine ⟨⟨_, _, leads_of_enter hsound, rfl⟩, ?_⟩
    intro exits w' hleads
    have hpath : w.path = functionsOf callers := by
      cases hsound with
      | enter _ hpath => exact hpath
    cases hsound.leads hleads with
    | left _ hpath' => exact hpath'.trans hpath.symm

end Interlock.Deadlock
