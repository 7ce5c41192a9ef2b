import Mathlib.Algebra.GroupWithZero.Nat
import Interlock.CallGraph.Build
import Interlock.Proofs.CallGraph.Guards

/-! The call graph of a finished model. Building it succeeds; every function has its node, with the
entries of its call sites in the order of evaluation, and all that a node mentions exists. Monitors
become locks as they are met, and each entry keeps the lock that it was given. -/

namespace Interlock

/-! ## Steps that settle -/

/-- A step that is settled once it is done: done again at any later state, it gives the same result
and changes nothing. -/
structure Settles {α β σ : Type} [Preorder σ] (f : α → σ → β × σ) : Prop where
  grows : ∀ a s, s ≤ (f a s).2
  again : ∀ {a s t}, (f a s).2 ≤ t → f a t = ((f a s).1, t)

namespace Settles

variable {α β σ : Type} [Preorder σ] {f : α → σ → β × σ}

theorem grows_mapThrough (h : Settles f) (as : List α) (s : σ) : s ≤ (mapThrough f as s).2 :=
  mapThrough_keeps (I := (s ≤ ·)) (fun a t ht => le_trans ht (h.grows a t)) as (le_refl s)

/-- A run of such steps is such a step itself. -/
theorem mapThrough (h : Settles f) : Settles (mapThrough f) where
  grows := h.grows_mapThrough
  again {as s t} hle := by
    induction as generalizing s with
    | nil => rfl
    | cons a as ih =>
      have hrest : (Interlock.mapThrough f as (f a s).2).2 ≤ t := hle
      have hfirst := le_trans (h.grows_mapThrough as (f a s).2) hrest
      simp only [Interlock.mapThrough, h.again hfirst, ih hrest]

/-- In the end, the results of a run are what its steps give at the last state, or at any later
one. -/
theorem mapThrough_eq (h : Settles f) (as : List α) {s t : σ}
    (hle : (Interlock.mapThrough f as s).2 ≤ t) :
    (Interlock.mapThrough f as s).1 = as.map fun a => (f a t).1 := by
  induction as generalizing s with
  | nil => rfl
  | cons a as ih =>
    have hrest : (Interlock.mapThrough f as (f a s).2).2 ≤ t := hle
    have hfirst := le_trans (h.grows_mapThrough as (f a s).2) hrest
    simp only [Interlock.mapThrough, List.map_cons, h.again hfirst, ih hrest]

theorem settled_mapThrough (h : Settles f) (as : List α) {s t : σ}
    (hle : (Interlock.mapThrough f as s).2 ≤ t) : ∀ a ∈ as, (f a t).2 = t := by
  induction as generalizing s with
  | nil => simp
  | cons a as ih =>
    have hrest : (Interlock.mapThrough f as (f a s).2).2 ≤ t := hle
    have hfirst := le_trans (h.grows_mapThrough as (f a s).2) hrest
    intro b hb
    rcases List.mem_cons.mp hb with rfl | hb
    · rw [h.again hfirst]
    · exact ih hrest b hb

end Settles

end Interlock

namespace Interlock.CallGraph

open Interlock.Types Interlock.Program

variable {units : List SourceUnit} {m : Model}

/-! ## Validation -/

theorem andThen_eq_ok {ε : Type} {first second : Except ε Unit} (hfirst : first = .ok ())
    (hsecond : second = .ok ()) : (first >>= fun _ => second) = .ok () := by
  rw [hfirst, hsecond]
  rfl

theorem forM_eq_ok {α ε : Type} {step : α → Except ε Unit} {as : List α}
    (h : ∀ a ∈ as, step a = .ok ()) : as.forM step = .ok () := by
  induction as with
  | nil => rfl
  | cons a as ih =>
    exact andThen_eq_ok (h a List.mem_cons_self) (ih fun b hb => h b (List.mem_cons_of_mem _ hb))

/-- Nothing is missing where classes and functions are nested as they are numbered. -/
theorem validate_eq_ok (h : m.WellNested) : validate m = .ok () := by
  refine andThen_eq_ok (forM_eq_ok fun ⟨fn, f⟩ hmem => ?_) (forM_eq_ok fun cls hmem => ?_)
  · have hf : m.function? f = some fn := by
      simpa [Model.function?] using List.mem_zipIdx_iff_getElem?.mp hmem
    obtain ⟨cls, hclass⟩ : ∃ cls, m.class? fn.cls = some cls :=
      ⟨_, Array.getElem?_eq_getElem (h.cls_lt hf)⟩
    simp only [hclass]
    cases hp : fn.parent with
    | none => rfl
    | some p =>
      obtain ⟨-, around, haround, -⟩ := h.parent hf hp
      simp only [haround]
      rfl
  · obtain ⟨c, hc⟩ := Array.mem_iff_getElem?.mp (Array.mem_def.mpr hmem)
    have hnone : cls.methods.find? (fun f => (m.function? f).isNone) = none := by
      refine List.find?_eq_none.mpr fun f hf => ?_
      obtain ⟨fn, hfn, -⟩ := (h.mem_methods hc).mp hf
      simp [hfn]
    simp only [hnone]
    rfl

/-! ## Monitors become locks -/

/-- The lock of a lock operation; a monitor that is met for the first time becomes one. -/
def lockOf (m : Model) (target : LockTarget) (t : LockTable) : LockId × LockTable :=
  match target with
  | .declared id => (t.canonical id, t)
  | .monitor c segment => t.monitor c (m.className c) segment

def effectEntry : LockEffect → LockId → GraphEntry
  | .acquire, lock => .acquire lock
  | .release, lock => .release lock

theorem materialize_lock (effect : LockEffect) (target : LockTarget) (t : LockTable) :
    materialize m (.lock effect target) t =
      (effectEntry effect (lockOf m target t).1, (lockOf m target t).2) := by
  cases target <;> cases effect <;> rfl

theorem settles_lockOf (m : Model) : Settles (lockOf m) where
  grows target t := by
    cases target with
    | declared id => exact le_refl t
    | monitor c segment => exact LockTable.le_monitor t c _ segment
  again {target s t} hle := by
    cases target with
    | declared id => exact Prod.ext (LockTable.canonical_mono hle id) rfl
    | monitor c segment => exact LockTable.monitor_again c _ segment hle

theorem settles_materialize (m : Model) : Settles (materialize m) where
  grows e t := by
    cases e with
    | calls callees => exact le_refl t
    | dynamic => exact le_refl t
    | lock effect target =>
      rw [materialize_lock]
      exact (settles_lockOf m).grows target t
  again {e s t} hle := by
    cases e with
    | calls callees => rfl
    | dynamic => rfl
    | lock effect target =>
      rw [materialize_lock] at hle ⊢
      rw [materialize_lock, (settles_lockOf m).again hle]

theorem valid_materialize {t : LockTable} (h : t.Valid) (e : DraftEntry) :
    (materialize m e t).2.Valid := by
  cases e with
  | calls callees => exact h
  | dynamic => exact h
  | lock effect target =>
    rw [materialize_lock]
    cases target with
    | declared id => exact h
    | monitor c segment => exact (h.monitor c _ segment).1

/-- The functions and locks of an entry exist. -/
def GraphEntry.KnownIn (m : Model) (t : LockTable) : GraphEntry → Prop
  | .calls callees => ∀ f ∈ callees, f < m.functions.size
  | .acquire lock => t.Has lock
  | .release lock => t.Has lock
  | .dynamic => True

theorem knownIn_materialize {t : LockTable} (ht : t.Valid) (hle : m.locks ≤ t) {e : DraftEntry}
    (he : e.KnownIn m) : GraphEntry.KnownIn m (materialize m e t).2 (materialize m e t).1 := by
  cases e with
  | calls callees => exact he
  | dynamic => trivial
  | lock effect target =>
    have hlock : (lockOf m target t).2.Has (lockOf m target t).1 := by
      cases target with
      | declared id =>
        obtain ⟨lock, hlock⟩ := he
        exact ht.has_canonical ⟨lock, LockTable.get?_mono hle hlock⟩
      | monitor c segment => exact (ht.monitor c (m.className c) segment).2
    rw [materialize_lock]
    cases effect with
    | acquire => exact hlock
    | release => exact hlock

/-- The entry of the graph that a call site ends up with. -/
def GraphBuild.entryOf (b : GraphBuild) (m : Model) (e : DraftEntry) : GraphEntry :=
  (materialize m e b.locks).1

/-! ## The graph -/

section

variable (m) (language : Language) (readGuard : String → Option Expr)

/-- The entries of all functions, and the locks with the monitors that they need. -/
def placed : List (List GraphEntry) × LockTable :=
  mapThrough (fun d : Draft => mapThrough (materialize m) d.entries) (drafts m language readGuard)
    m.locks

/-- What is built of a model in which nothing is missing. -/
def built : GraphBuild where
  graph :=
    { nodes := (placed m language readGuard).1.mapIdx fun f es => { function := f, entries := es }
      threads := (m.functions.toList.zipIdx.filter fun p => p.1.isRunnable).map (·.2) }
  locks := (placed m language readGuard).2
  diagnostics := (drafts m language readGuard).flatMap (·.diagnostics)

variable {m}

theorem build_eq_ok (h : m.WellNested) :
    build m language readGuard = .ok (built m language readGuard) := by
  unfold build
  rw [validate_eq_ok h]
  rfl

theorem settles_drafts (m : Model) :
    Settles fun d : Draft => mapThrough (materialize m) d.entries :=
  ⟨fun d s => (settles_materialize m).mapThrough.grows d.entries s,
    fun hle => (settles_materialize m).mapThrough.again hle⟩

theorem le_locks_built (m : Model) : m.locks ≤ (built m language readGuard).locks :=
  (settles_drafts m).grows_mapThrough _ m.locks

theorem valid_locks_built (h : m.locks.Valid) : (built m language readGuard).locks.Valid := by
  refine mapThrough_keeps (I := LockTable.Valid) (fun d t ht => ?_) _ h
  exact mapThrough_keeps (I := LockTable.Valid) (fun e t ht => valid_materialize ht e) d.entries ht

/-- At the last table every entry is settled. -/
theorem settled_built {d : Draft} (hd : d ∈ drafts m language readGuard) {e : DraftEntry}
    (he : e ∈ d.entries) :
    (materialize m e (built m language readGuard).locks).2 =
      (built m language readGuard).locks := by
  have hdraft := (settles_drafts m).settled_mapThrough _ (le_refl (placed m language readGuard).2)
    d hd
  exact (settles_materialize m).settled_mapThrough d.entries (le_of_eq hdraft) e he

theorem nodes_built (m : Model) :
    (built m language readGuard).graph.nodes = (drafts m language readGuard).mapIdx fun f d =>
      { function := f, entries := d.entries.map ((built m language readGuard).entryOf m) } := by
  have hplaced : (placed m language readGuard).1 = (drafts m language readGuard).map fun d =>
      d.entries.map ((built m language readGuard).entryOf m) := by
    have hlast := le_refl (placed m language readGuard).2
    rw [placed, (settles_drafts m).mapThrough_eq _ hlast]
    refine List.map_congr_left fun d hd => ?_
    have hdraft := (settles_drafts m).settled_mapThrough _ hlast d hd
    exact (settles_materialize m).mapThrough_eq d.entries (le_of_eq hdraft)
  show (placed m language readGuard).1.mapIdx _ = _
  rw [hplaced]
  refine List.ext_getElem? fun i => ?_
  simp [List.getElem?_mapIdx, Function.comp_def]

theorem mem_threads_built {f : FunctionId} :
    f ∈ (built m language readGuard).graph.threads ↔
      ∃ fn, m.function? f = some fn ∧ fn.isRunnable = true := by
  simp only [built, List.mem_map, List.mem_filter, Prod.exists, List.mem_zipIdx_iff_getElem?]
  constructor
  · rintro ⟨fn, g, ⟨hget, hrunnable⟩, rfl⟩
    exact ⟨fn, by simpa [Model.function?] using hget, hrunnable⟩
  · rintro ⟨fn, hfn, hrunnable⟩
    exact ⟨fn, f, ⟨by simpa [Model.function?] using hfn, hrunnable⟩, rfl⟩

theorem getElem?_drafts (f : FunctionId) :
    (drafts m language readGuard)[f]? = (m.function? f).map fun fn =>
      (siteOf m language readGuard f fn).resolveAll fn.calls := by
  simp [drafts, Model.function?, List.getElem?_zipIdx, Function.comp_def]

/-- The node of a function holds what its call sites leave. -/
theorem getElem?_nodes_built (f : FunctionId) :
    (built m language readGuard).graph.nodes[f]? = (m.function? f).map fun fn =>
      { function := f
        entries := ((siteOf m language readGuard f fn).resolveAll fn.calls).entries.map
          ((built m language readGuard).entryOf m) } := by
  rw [nodes_built, List.getElem?_mapIdx, getElem?_drafts, Option.map_map]
  rfl

/-- All that an entry of the graph mentions exists. -/
theorem knownIn_built (hlocks : m.locks.Valid) {node : GraphNode}
    (hnode : node ∈ (built m language readGuard).graph.nodes) {entry : GraphEntry}
    (hentry : entry ∈ node.entries) :
    GraphEntry.KnownIn m (built m language readGuard).locks entry := by
  obtain ⟨f, hf⟩ := List.mem_iff_getElem?.mp hnode
  rw [getElem?_nodes_built] at hf
  obtain ⟨fn, hfn, rfl⟩ := Option.map_eq_some_iff.mp hf
  obtain ⟨e, he, rfl⟩ := List.mem_map.mp hentry
  have hdraft : (siteOf m language readGuard f fn).resolveAll fn.calls ∈
      drafts m language readGuard := by
    refine List.mem_of_getElem? (i := f) ?_
    rw [getElem?_drafts, hfn]
    rfl
  have hknown := (siteOf m language readGuard f fn).knownIn_resolveAll hlocks fn.calls e he
  have hentry := knownIn_materialize (valid_locks_built language readGuard hlocks)
    (le_locks_built language readGuard m) hknown
  rw [settled_built language readGuard hdraft he] at hentry
  exact hentry

end

/-! ## Closed graphs -/

theorem valid_locks_of_ofUnits (h : Model.ofUnits units = .ok m) : m.locks.Valid := by
  obtain ⟨linked, hlinked, rfl⟩ := Model.linked_of_ofUnits h
  obtain ⟨ancestors, -, rfl⟩ := Model.linkSupertypes_eq_ok hlinked
  have hdeclared : ∀ m : Model, m.locks.Valid → m.withLocks.withEntryPoints.locks.Valid :=
    fun m hm => LockTable.valid_foldl_declare _ hm
  have htyped : ∀ (m : Model) r, (m.withTypes r).locks = m.locks := fun _ _ => rfl
  refine hdeclared _ ?_
  rw [htyped]
  exact LockTable.Valid.empty

/-- A graph with one node for each function, in which every reference leads to something that
exists, over the declared locks and the monitors of the regions. -/
structure GraphBuild.Closed (b : GraphBuild) (m : Model) : Prop where
  size : b.graph.size = m.functions.size
  function : ∀ {f} {node : GraphNode}, b.graph.nodes[f]? = some node → node.function = f
  callees : ∀ {node : GraphNode} {callees}, node ∈ b.graph.nodes →
    .calls callees ∈ node.entries → ∀ f ∈ callees, ∃ fn, m.function? f = some fn
  threads : ∀ f ∈ b.graph.threads, ∃ fn, m.function? f = some fn ∧ fn.isRunnable = true
  locks : ∀ {node : GraphNode} {id}, node ∈ b.graph.nodes →
    .acquire id ∈ node.entries ∨ .release id ∈ node.entries →
    ∃ lock, b.locks.get? id = some lock ∧ lock.id = id
  /-- A declared lock keeps its identity, its name, its kind and its pairing. -/
  keeps : ∀ {id lock}, m.locks.get? id = some lock → b.locks.get? id = some lock
  adds : ∀ {id lock}, m.locks.get? id = none → b.locks.get? id = some lock →
    lock.kind = .monitor ∧ lock.paired = none

/-- Every finished model has a closed call graph. -/
theorem exists_closed_build (h : Model.ofUnits units = .ok m) (language : Language)
    (readGuard : String → Option Expr) :
    ∃ b, build m language readGuard = .ok b ∧ b.Closed m := by
  have hlocks := valid_locks_of_ofUnits h
  have hvalid := valid_locks_built language readGuard hlocks
  have hle := le_locks_built language readGuard m
  refine ⟨_, build_eq_ok language readGuard (Model.wellNested_of_ofUnits h), ?_⟩
  refine ⟨?_, fun {f node} hnode => ?_, fun hnode hcalls f hf => ?_, fun f hf => ?_,
    fun {node id} hnode hentry => ?_, fun hget => LockTable.get?_mono hle hget,
    fun hnone hget => LockTable.get?_added hle hnone hget⟩
  · simp [CallGraph.size, nodes_built, drafts]
  · rw [getElem?_nodes_built] at hnode
    obtain ⟨fn, -, rfl⟩ := Option.map_eq_some_iff.mp hnode
    rfl
  · have hlt := knownIn_built language readGuard hlocks hnode hcalls f hf
    exact ⟨_, Array.getElem?_eq_getElem hlt⟩
  · exact (mem_threads_built language readGuard).mp hf
  · have hhas : (built m language readGuard).locks.Has id := by
      rcases hentry with hentry | hentry
      · exact knownIn_built language readGuard hlocks hnode hentry
      · exact knownIn_built language readGuard hlocks hnode hentry
    obtain ⟨lock, hlock⟩ := hhas
    exact ⟨lock, hlock, hvalid.get?_id hlock⟩

theorem shapes_build_closed : ∃ m b, Model.ofUnits Model.shapes = .ok m ∧
    build m .java (fun _ => none) = .ok b ∧ b.Closed m := by
  obtain ⟨m, hm, -⟩ := Model.exists_shapes
  obtain ⟨b, hb, hclosed⟩ := exists_closed_build hm .java fun _ => none
  exact ⟨m, b, hm, hb, hclosed⟩

/-! ## Call sites in the graph -/

/-- The entries of the graph that an expression leaves. -/
def GraphBuild.entriesOf (b : GraphBuild) (s : Site) (e : Expr) : List GraphEntry :=
  (s.resolve e).2.entries.map (b.entryOf s.model)

/-- The call sites of a function in the graph. -/
structure GraphBuild.Covers (b : GraphBuild) (s : Site) (calls : List Expr) : Prop where
  entries : b.graph.entries s.function = calls.flatMap (b.entriesOf s)
  length_entries : (b.graph.entries s.function).length = (calls.map Expr.invocationCount).sum
  /-- An expression has the entries of its parts in order, then its own. -/
  layout : ∀ e, ∃ own, b.entriesOf s e = e.children.flatMap (b.entriesOf s) ++ own ∧
    own.length = if e.isInvocation then 1 else 0
  /-- Reading guards adds nothing: without the names of monitors, what an expression leaves is what
  it leaves when no guard is read. -/
  guards : ∀ e, (s.resolve e).2.anonymous = (s.expr Site.unnamed e).2
  /-- Guards inside guards are read in the same way, as deep as they go. -/
  monitor_eq : s.ReadsText → ∀ guard, s.monitor guard =
    ((s.readGuard guard).bind (s.guardMonitor? s.monitor)).elim
      (.monitor s.cls (Site.compact guard)) fun found => .monitor found.1 found.2
  diagnostics : (b.diagnostics.filter fun x => x.function == s.function).length ≤
    (b.graph.entries s.function).count (.calls [])

theorem entriesOf_eq (b : GraphBuild) (s : Site) (e : Expr) :
    ∃ own, b.entriesOf s e = e.children.flatMap (b.entriesOf s) ++ own ∧
      own.length = if e.isInvocation then 1 else 0 := by
  have hown := s.accounts_own s.monitor e (e.children.map fun c => (s.expr s.monitor c).1)
  refine ⟨(s.own s.monitor e _).2.entries.map (b.entryOf s.model), ?_,
    (List.length_map _).trans hown.length_entries⟩
  rw [GraphBuild.entriesOf, Site.resolve, s.expr_eq]
  simp only [Draft.entries_append, Draft.entries_join, List.map_append, List.flatMap_map,
    List.map_flatMap]
  rfl

/-- An entry of the graph calls nothing if and only if the call site does. -/
theorem entryOf_beq_calls_nil (b : GraphBuild) (m : Model) (e : DraftEntry) :
    (b.entryOf m e == .calls []) = (e == .calls []) := by
  cases e with
  | calls callees => simp [GraphBuild.entryOf, materialize]
  | dynamic => rfl
  | lock effect target => cases effect <;> rfl

/-- The diagnostics of a function are those of its own call sites. -/
theorem filter_diagnostics_built (language : Language) (readGuard : String → Option Expr)
    {f : FunctionId} {fn : Function} (hf : m.function? f = some fn) :
    (built m language readGuard).diagnostics.filter (fun x => x.function == f) =
      ((siteOf m language readGuard f fn).resolveAll fn.calls).diagnostics := by
  have hown : ∀ p : Function × Nat,
      ∀ x ∈ ((siteOf m language readGuard p.2 p.1).resolveAll p.1.calls).diagnostics,
      x.function = p.2 := fun p =>
    ((siteOf m language readGuard p.2 p.1).accounts_resolveAll p.1.calls).function
  have hget : m.functions.toList[f]? = some fn := by simpa [Model.function?] using hf
  have hfilter := filter_flatMap_zipIdx hown m.functions.toList 0 hget
  rw [Nat.zero_add] at hfilter
  simpa [built, drafts, List.flatMap_map] using hfilter

theorem entries_built (language : Language) (readGuard : String → Option Expr) {f : FunctionId}
    {fn : Function} (hf : m.function? f = some fn) :
    (built m language readGuard).graph.entries f =
      ((siteOf m language readGuard f fn).resolveAll fn.calls).entries.map
        ((built m language readGuard).entryOf m) := by
  rw [CallGraph.entries, getElem?_nodes_built, hf]
  rfl

/-- In the graph of a finished model no call site of any function is dropped or doubled. -/
theorem exists_covering_build (h : Model.ofUnits units = .ok m) (language : Language)
    (readGuard : String → Option Expr) :
    ∃ b, build m language readGuard = .ok b ∧ ∀ {f fn}, m.function? f = some fn →
      b.Covers (siteOf m language readGuard f fn) fn.calls := by
  have hlocks := valid_locks_of_ofUnits h
  refine ⟨_, build_eq_ok language readGuard (Model.wellNested_of_ofUnits h), fun {f fn} hf => ?_⟩
  have hentries := entries_built language readGuard hf
  have haccounts := (siteOf m language readGuard f fn).accounts_resolveAll fn.calls
  refine ⟨?_, ?_, entriesOf_eq _ _, fun e => ?_, fun hreads => hreads.monitor_eq, ?_⟩
  · rw [show (siteOf m language readGuard f fn).function = f from rfl, hentries,
      Site.entries_resolveAll, List.map_flatMap]
    rfl
  · rw [show (siteOf m language readGuard f fn).function = f from rfl, hentries, List.length_map,
      haccounts.length_entries, Expr.invocationCounts_eq_foldr, List.sum_eq_foldr, List.foldr_map]
  · exact congrArg Prod.snd ((siteOf m language readGuard f fn).anonymous_resolve hlocks e)
  · rw [show (siteOf m language readGuard f fn).function = f from rfl,
      filter_diagnostics_built language readGuard hf, hentries, List.count, List.countP_map]
    refine Nat.le_trans haccounts.length_diagnostics (Nat.le_of_eq ?_)
    rw [List.count]
    congr 1
    funext e
    exact (entryOf_beq_calls_nil _ m e).symm

/-- The method that paints, whose call has an object creation among its arguments, with guards that
are read as plain names. -/
theorem shapes_build_covers : ∃ m b fn, Model.ofUnits Model.shapes = .ok m ∧
    build m .java (fun guard => some (.ident guard)) = .ok b ∧
    m.function? 2 = some fn ∧ fn.name = "paint" ∧
    (siteOf m .java (fun guard => some (.ident guard)) 2 fn).ReadsText ∧
    b.Covers (siteOf m .java (fun guard => some (.ident guard)) 2 fn) fn.calls := by
  obtain ⟨m, hm, -⟩ := Model.exists_shapes
  obtain ⟨b, hb, hcovers⟩ := exists_covering_build hm .java fun guard => some (.ident guard)
  have hpaint : ((Numbered.ofUnits Model.shapes).toModel.function? 2).map (·.name) =
      some "paint" := by decide +kernel
  obtain ⟨before, hbefore, hname⟩ := Option.map_eq_some_iff.mp hpaint
  obtain ⟨fn, hfn, -, -, hdecl⟩ := (Model.sameOutline_of_ofUnits hm).symm.function? hbefore
  refine ⟨m, b, fn, hm, hb, hfn, ?_, fun guard e n he hn => ?_, hcovers hfn⟩
  · rwa [Function.name, hdecl] at hname
  · cases he
    cases hn with
    | ident => exact List.infix_rfl
    | part hc => simp [Expr.children] at hc

end Interlock.CallGraph
