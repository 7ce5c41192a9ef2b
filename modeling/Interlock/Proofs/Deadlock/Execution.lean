import Mathlib.Data.List.Chain
import Mathlib.Data.List.Perm.Subperm
import Mathlib.Data.List.Permutation
import Mathlib.Logic.Relation
import Interlock.CallGraph.Basic

/-! What a call graph stands for. A run takes the entries of a function in order; a call runs one
of the callees from the stack that is held and goes on with the stack that the callee leaves. The
analysis never enumerates runs, so this is what its findings are measured against. -/

namespace Interlock

namespace CallGraph

/-- A call site of `f` may run `c`. -/
def Calls (g : CallGraph) (f c : FunctionId) : Prop := ∃ cs, .calls cs ∈ g.entries f ∧ c ∈ cs

/-- `f` comes to `c` over zero or more calls. -/
def Reaches (g : CallGraph) : FunctionId → FunctionId → Prop := Relation.ReflTransGen g.Calls

/-- No function comes back to itself over calls. -/
def RecursionFree (g : CallGraph) : Prop := ∀ f, ¬ Relation.TransGen g.Calls f f

variable {g : CallGraph} {f c : FunctionId}

theorem lt_size_of_mem_entries {e : GraphEntry} (h : e ∈ g.entries f) : f < g.size := by
  unfold entries at h
  split at h
  · next node hnode => exact (List.getElem?_eq_some_iff.mp hnode).1
  · simp at h

theorem Calls.lt_size (h : g.Calls f c) : f < g.size := by
  obtain ⟨cs, hcs, -⟩ := h
  exact lt_size_of_mem_entries hcs

theorem mem_callees : c ∈ g.callees f ↔ g.Calls f c := by
  rw [callees, Ordered.mem_ofList, List.mem_flatMap]
  constructor
  · rintro ⟨e, he, hc⟩
    cases e with
    | calls cs => exact ⟨cs, he, hc⟩
    | acquire | release | dynamic => simp at hc
  · rintro ⟨cs, hcs, hc⟩
    exact ⟨.calls cs, hcs, hc⟩

/-- Where functions only call later ones, none comes back to itself. -/
theorem recursionFree_of_ascending (h : ∀ f < g.size, ∀ c ∈ g.callees f, f < c) :
    g.RecursionFree := by
  have hlt : ∀ f c, Relation.TransGen g.Calls f c → f < c := by
    intro f c hfc
    induction hfc with
    | single hc => exact h _ hc.lt_size _ (mem_callees.mpr hc)
    | tail _ hc ih => exact ih.trans (h _ hc.lt_size _ (mem_callees.mpr hc))
  exact fun f hf => Nat.lt_irrefl f (hlt f f hf)

theorem RecursionFree.not_reaches (hg : g.RecursionFree) (h : g.Calls f c) : ¬ g.Reaches c f :=
  fun hcf => hg f (Relation.TransGen.head' h hcf)

/-- The functions of a path have nodes, and none of them is there twice. -/
structure OnNodes (g : CallGraph) (path : List FunctionId) : Prop where
  nodup : path.Nodup
  nodes : ∀ f ∈ path, f < g.size

namespace OnNodes

variable {path : List FunctionId}

theorem nil (g : CallGraph) : g.OnNodes [] :=
  ⟨List.nodup_nil, fun _ h => absurd h List.not_mem_nil⟩

theorem concat (h : g.OnNodes path) (hf : f ∉ path) (hnode : f < g.size) :
    g.OnNodes (path ++ [f]) := by
  refine ⟨?_, ?_⟩
  · rw [← List.concat_eq_append]
    exact h.nodup.concat hf
  · intro a ha
    rcases List.mem_append.mp ha with ha | ha
    · exact h.nodes a ha
    · rw [List.mem_singleton.mp ha]
      exact hnode

theorem of_append {rest : List FunctionId} (h : g.OnNodes (path ++ rest)) : g.OnNodes path :=
  ⟨h.nodup.of_append_left, fun f hf => h.nodes f (List.mem_append_left _ hf)⟩

/-- A path is no longer than the graph. -/
theorem length_le (h : g.OnNodes path) : path.length ≤ g.size := by
  have hsub : path ⊆ List.range g.size := fun f hf => List.mem_range.mpr (h.nodes f hf)
  simpa using (h.nodup.subperm hsub).length_le

end OnNodes

/-- The functions that are being followed, the root first, when a function is called. -/
inductive Trail (g : CallGraph) (root : FunctionId) : List FunctionId → FunctionId → Prop
  | start : Trail g root [] root
  | call {path : List FunctionId} {f c : FunctionId} :
      Trail g root path f → f ∉ path → g.Calls f c → Trail g root (path ++ [f]) c

namespace Trail

variable {root : FunctionId} {path : List FunctionId}

theorem onNodes (h : g.Trail root path f) : g.OnNodes path := by
  induction h with
  | start => exact .nil g
  | call _ hf hc ih => exact ih.concat hf hc.lt_size

theorem nodup (h : g.Trail root path f) : path.Nodup := h.onNodes.nodup

/-- Every function of a trail comes to the one that is called. -/
theorem transGen {h : FunctionId} (ht : g.Trail root path f) (hp : h ∈ path) :
    Relation.TransGen g.Calls h f := by
  induction ht with
  | start => simp at hp
  | call _ _ hc ih =>
    rcases List.mem_append.mp hp with hp | hp
    · exact (ih hp).tail hc
    · rw [List.mem_singleton.mp hp]
      exact .single hc

theorem head?_eq (h : g.Trail root path f) : (path ++ [f]).head? = some root := by
  induction h with
  | start => rfl
  | call _ _ _ ih => rw [List.head?_append, ih, Option.some_or]

/-- Each function of a trail calls the next one. -/
theorem isChain (h : g.Trail root path f) : (path ++ [f]).IsChain g.Calls := by
  induction h with
  | start => exact List.isChain_singleton root
  | call _ _ hc ih =>
    refine ih.append (List.isChain_singleton _) fun x hx y hy => ?_
    rw [List.getLast?_concat] at hx
    cases hx
    cases hy
    exact hc

theorem not_mem_of_recursionFree (hg : g.RecursionFree) (ht : g.Trail root path f) : f ∉ path :=
  fun hp => hg f (ht.transGen hp)

theorem lt_size {h : FunctionId} (ht : g.Trail root path f) (hp : h ∈ path) : h < g.size :=
  ht.onNodes.nodes h hp

theorem length_le (ht : g.Trail root path f) : path.length ≤ g.size := ht.onNodes.length_le

end Trail

end CallGraph

namespace Deadlock

/-- What a run has come to, with the locks that are held, the oldest first. -/
inductive Event where
  /-- The function that was started is left. -/
  | leave (held : List LockId)
  /-- Some function is about to take a lock. -/
  | take (lock : LockId) (held : List LockId)
  deriving DecidableEq, Repr

/-- The stack without the last occurrence of a lock. -/
def releaseLast (held : List LockId) (lock : LockId) : List LockId :=
  (held.reverse.erase lock).reverse

/-- The runs of what is left of the entries of a function, from a stack of locks. A dynamic
invocation ends a run. `skips f c` says that a call of `c` in `f` may be stepped over. -/
inductive Run (g : CallGraph) (skips : FunctionId → FunctionId → Prop) :
    FunctionId → List GraphEntry → List LockId → Event → Prop
  | leave {f held} : Run g skips f [] held (.leave held)
  | take {f lock es held} : Run g skips f (.acquire lock :: es) held (.take lock held)
  | acquire {f lock es held ev} :
      Run g skips f es (held ++ [lock]) ev → Run g skips f (.acquire lock :: es) held ev
  | release {f lock es held ev} :
      Run g skips f es (releaseLast held lock) ev → Run g skips f (.release lock :: es) held ev
  | library {f es held ev} :
      Run g skips f es held ev → Run g skips f (.calls [] :: es) held ev
  /-- The run comes to a point inside a callee. -/
  | inside {f c cs es held lock within} :
      c ∈ cs → Run g skips c (g.entries c) held (.take lock within) →
      Run g skips f (.calls cs :: es) held (.take lock within)
  | call {f c cs es held left ev} :
      c ∈ cs → Run g skips c (g.entries c) held (.leave left) → Run g skips f es left ev →
      Run g skips f (.calls cs :: es) held ev
  | skip {f c cs es held ev} :
      c ∈ cs → skips f c → Run g skips f es held ev → Run g skips f (.calls cs :: es) held ev

/-- Runs that follow every call. -/
def noSkip (_ _ : FunctionId) : Prop := False

/-- Runs that may step over a call which can come back to its caller. -/
def skipsRecursion (g : CallGraph) (f c : FunctionId) : Prop := g.Reaches c f

/-- Some run of `root` with nothing held comes to a point where `taken` is about to be taken
while `held` is on the stack. -/
def Meets (g : CallGraph) (skips : FunctionId → FunctionId → Prop) (root : FunctionId)
    (held taken : LockId) : Prop :=
  ∃ stack, Run g skips root (g.entries root) [] (.take taken stack) ∧ held ∈ stack

/-- After what was run of a function, what is left of it is run. -/
theorem Run.append {g : CallGraph} {skips : FunctionId → FunctionId → Prop} {f : FunctionId}
    {es es' : List GraphEntry} {held now : List LockId} {ev : Event}
    (h : Run g skips f es held (.leave now)) (h' : Run g skips f es' now ev) :
    Run g skips f (es ++ es') held ev := by
  generalize hleave : Event.leave now = last at h
  induction h with
  | leave =>
    cases hleave
    exact h'
  | take => cases hleave
  | acquire _ ih => exact .acquire (ih h' hleave)
  | release _ ih => exact .release (ih h' hleave)
  | library _ ih => exact .library (ih h' hleave)
  | inside => cases hleave
  | call hc hcallee _ _ ih => exact .call hc hcallee (ih h' hleave)
  | skip hc hskip _ ih => exact .skip hc hskip (ih h' hleave)

/-- Where calls never come back, there is nothing that a run could step over. -/
theorem Run.noSkip_of_recursionFree {g : CallGraph} (hg : g.RecursionFree) {f : FunctionId}
    {es : List GraphEntry} {held : List LockId} {ev : Event}
    (h : Run g (skipsRecursion g) f es held ev) (hes : es ⊆ g.entries f) :
    Run g noSkip f es held ev := by
  induction h with
  | leave => exact .leave
  | take => exact .take
  | acquire _ ih => exact .acquire (ih (List.subset_of_cons_subset hes))
  | release _ ih => exact .release (ih (List.subset_of_cons_subset hes))
  | library _ ih => exact .library (ih (List.subset_of_cons_subset hes))
  | inside hc _ ih => exact .inside hc (ih (List.Subset.refl _))
  | call hc _ _ ihc ih =>
    exact .call hc (ihc (List.Subset.refl _)) (ih (List.subset_of_cons_subset hes))
  | skip hc hskip _ _ =>
    exact absurd hskip (hg.not_reaches ⟨_, hes List.mem_cons_self, hc⟩)

/-! ## Coming to a call -/

/-- Some run of `f` from `held` stands before the entries `es` with `now` on the stack. -/
def Stands (g : CallGraph) (f : FunctionId) (held : List LockId) (es : List GraphEntry)
    (now : List LockId) : Prop :=
  ∃ done, g.entries f = done ++ es ∧ Run g (skipsRecursion g) f done held (.leave now)

namespace Stands

variable {g : CallGraph} {f : FunctionId} {held now : List LockId} {es : List GraphEntry}

theorem start (g : CallGraph) (f : FunctionId) (held : List LockId) :
    Stands g f held (g.entries f) held :=
  ⟨[], rfl, .leave⟩

theorem step {e : GraphEntry} {next : List LockId} (h : Stands g f held (e :: es) now)
    (hstep : Run g (skipsRecursion g) f [e] now (.leave next)) : Stands g f held es next := by
  obtain ⟨done, hdone, hrun⟩ := h
  exact ⟨done ++ [e], by simp [hdone], hrun.append hstep⟩

theorem run {ev : Event} (h : Stands g f held es now)
    (hrest : Run g (skipsRecursion g) f es now ev) :
    Run g (skipsRecursion g) f (g.entries f) held ev := by
  obtain ⟨done, hdone, hrun⟩ := h
  rw [hdone]
  exact hrun.append hrest

end Stands

/-- A function that is called: the functions that are being followed, the root first, and the
locks that are held. -/
structure Arrival where
  path : List FunctionId
  function : FunctionId
  held : List LockId

namespace Arrival

variable {g : CallGraph} {root : FunctionId} {a b : Arrival}

/-- A root is entered with nothing held. -/
def start (root : FunctionId) : Arrival := ⟨[], root, []⟩

/-- Some run of the function of `a` comes to the call `b`. A function that is being followed
already is not followed again. -/
structure Enters (g : CallGraph) (a b : Arrival) : Prop where
  fresh : a.function ∉ a.path
  path : b.path = a.path ++ [a.function]
  site : ∃ cs es, b.function ∈ cs ∧ Stands g a.function a.held (.calls cs :: es) b.held

/-- `b` is `a` or a call below it. -/
def ComesTo (g : CallGraph) : Arrival → Arrival → Prop := Relation.ReflTransGen (Enters g)

theorem Enters.calls (h : Enters g a b) : g.Calls a.function b.function := by
  obtain ⟨cs, es, hc, done, hdone, -⟩ := h.site
  exact ⟨cs, by simp [hdone], hc⟩

theorem ComesTo.trail (h : ComesTo g (start root) a) : g.Trail root a.path a.function := by
  induction h with
  | refl => exact .start
  | tail _ h ih =>
    rw [h.path]
    exact ih.call h.fresh h.calls

theorem ComesTo.path_extends (h : ComesTo g a b) : a.path <+: b.path := by
  induction h with
  | refl => exact List.prefix_refl _
  | tail _ h ih =>
    rw [h.path]
    exact ih.trans (List.prefix_append _ _)

/-- What a function comes to, its callers come to. -/
theorem ComesTo.run {lock : LockId} {stack : List LockId} (h : ComesTo g a b)
    (hrun : Run g (skipsRecursion g) b.function (g.entries b.function) b.held
      (.take lock stack)) :
    Run g (skipsRecursion g) a.function (g.entries a.function) a.held (.take lock stack) := by
  induction h with
  | refl => exact hrun
  | tail _ h ih =>
    obtain ⟨cs, es, hc, hstands⟩ := h.site
    exact ih (hstands.run (.inside hc hrun))

end Arrival

end Deadlock

end Interlock
