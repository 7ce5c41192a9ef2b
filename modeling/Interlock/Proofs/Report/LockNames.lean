import Interlock.Report.Basic
import Interlock.Proofs.CallGraph.Build
import Interlock.Proofs.Deadlock.Soundness
import Interlock.Proofs.Program.LockHistory
import Interlock.Proofs.Text.Occurrence

/-! Locks in reports. The entries of a graph mention locks that stand for themselves, each under a
name of its own; the analysis reports only locks that some entry takes. So every lock of a report
appears under the name that the table has for it, and different locks under different names. -/

namespace Interlock

open Interlock.Types Interlock.Text Interlock.Program Interlock.CallGraph Interlock.Deadlock

/-! ## Names of monitors -/

/-- What separates the name of a class from the guard in the name of a monitor. -/
def Program.Expr.monitorSeparator : String := "." ++ monitorMark

/-- No class and no declared lock has a name that looks like that of a monitor. -/
structure Program.Model.Unreserved (m : Model) : Prop where
  classes : ∀ cls ∈ m.classes, contains Expr.monitorSeparator cls.qualifiedName = false
  locks : ∀ lock ∈ m.locks.locks, contains Expr.monitorSeparator lock.name = false

/-- The name of a monitor. -/
def monitorName (owner segment : String) : String :=
  owner ++ "." ++ (Expr.monitorMark ++ segment)

theorem toList_monitorName (owner segment : String) : (monitorName owner segment).toList =
    owner.toList ++ '.' :: Expr.monitorMark.toList ++ segment.toList := by
  simp [monitorName]

theorem contains_monitorName (owner segment : String) :
    contains Expr.monitorSeparator (monitorName owner segment) = true := by
  rw [contains_iff, toList_monitorName]
  exact ⟨owner.toList, segment.toList, rfl⟩

theorem monitorName_inj {owner owner' segment segment' : String}
    (howner : contains Expr.monitorSeparator owner = false)
    (howner' : contains Expr.monitorSeparator owner' = false) :
    monitorName owner segment = monitorName owner' segment' ↔
      owner = owner' ∧ segment = segment' := by
  constructor
  · intro h
    have hlist := congrArg String.toList h
    rw [toList_monitorName, toList_monitorName] at hlist
    have hfree : ∀ {owner : String}, contains Expr.monitorSeparator owner = false →
        ¬ '.' :: Expr.monitorMark.toList <:+: owner.toList := fun h hoccurs =>
      Bool.false_ne_true (h.symm.trans (contains_iff.mpr hoccurs))
    obtain ⟨ho, hs⟩ := eq_of_append_mark_eq (by decide) (hfree howner) (hfree howner') hlist
    exact ⟨String.toList_injective ho, String.toList_injective hs⟩
  · rintro ⟨rfl, rfl⟩
    rfl

/-- Labels have no points in them. -/
theorem point_not_mem_label {start : String} (hstart : '.' ∉ start.toList) (n : Nat) :
    '.' ∉ (start ++ toString n).toList := by
  rw [String.toList_append, List.mem_append]
  rintro (h | h)
  · exact hstart h
  · exact absurd (isDigit_of_mem_toString h) (by decide)

theorem Program.Model.Unreserved.className {m : Model} (h : m.Unreserved) (c : ClassId) :
    contains Expr.monitorSeparator (m.className c) = false := by
  unfold Model.className
  split
  · next cls hcls => exact h.classes cls (Array.mem_of_getElem? hcls)
  · rw [← Bool.not_eq_true, contains_iff]
    intro hoccurs
    exact point_not_mem_label (by decide) c (hoccurs.subset (by decide))

/-! ## Declared names -/

namespace Program.Model

variable {units : List SourceUnit} {m m' : Model}

/-- The names of the classes and the names that locks among the variables have. -/
def declaredNames (m : Model) : List String :=
  (m.classes.toList.flatMap fun cls =>
    cls.qualifiedName :: cls.decl.fields.map fun v => cls.qualifiedName ++ "." ++ v.name) ++
  m.functions.toList.flatMap fun f =>
    f.decl.locals.map fun v => m.className f.cls ++ "." ++ v.name

/-- The declarations of a model, without what resolution finds out about them. -/
def outline (m : Model) : Model where
  classes := m.classes.map Class.outline
  functions := m.functions.map Function.outline

theorem className_outline (m : Model) (c : ClassId) : m.outline.className c = m.className c := by
  simp only [Model.className, Model.class?, outline, Array.getElem?_map]
  cases m.classes[c]? <;> rfl

theorem declaredNames_outline (m : Model) : m.outline.declaredNames = m.declaredNames := by
  simp only [declaredNames, className_outline]
  simp only [outline, Array.toList_map, List.flatMap_map]
  rfl

/-- Names are a matter of the declarations. -/
theorem SameOutline.declaredNames (h : m.SameOutline m') : m'.declaredNames = m.declaredNames := by
  rw [← declaredNames_outline m', ← declaredNames_outline m, outline, outline, h.classes,
    h.functions]

theorem name_mem_declaredNames {d : LockDecl} (h : d ∈ allLockDecls m) :
    d.name ∈ m.declaredNames := by
  have hdecls : ∀ {c : ClassId} {vs : List VariableDecl}, d ∈ lockDecls m c vs →
      ∃ v ∈ vs, d.name = m.className c ++ "." ++ v.name := by
    intro c vs h
    obtain ⟨v, hv, hd⟩ := List.mem_filterMap.mp h
    obtain ⟨typeName, -, rfl⟩ := Option.map_eq_some_iff.mp hd
    exact ⟨v, hv, rfl⟩
  rcases List.mem_append.mp h with h | h
  · obtain ⟨⟨cls, c⟩, hcls, hd⟩ := List.mem_flatMap.mp h
    obtain ⟨v, hv, hname⟩ := hdecls hd
    have hget : m.class? c = some cls := by
      simpa [Model.class?] using List.mem_zipIdx_iff_getElem?.mp hcls
    rw [hname, Model.className, hget]
    refine List.mem_append_left _ (List.mem_flatMap.mpr ⟨cls, ?_, ?_⟩)
    · exact Array.mem_toList_iff.mpr (Array.mem_of_getElem? hget)
    · exact List.mem_cons_of_mem _ (List.mem_map.mpr ⟨v, hv, rfl⟩)
  · obtain ⟨f, hf, hd⟩ := List.mem_flatMap.mp h
    obtain ⟨v, hv, hname⟩ := hdecls hd
    rw [hname]
    exact List.mem_append_right _ (List.mem_flatMap.mpr ⟨f, hf, List.mem_map.mpr ⟨v, hv, rfl⟩⟩)

/-- The table of a finished model holds what was declared. -/
theorem exists_history_of_ofUnits (h : ofUnits units = .ok m) :
    ∃ ds : List LockDecl, m.locks = LockTable.after (ds.map .declare) ∧
      ∀ d ∈ ds, d.name ∈ m.declaredNames := by
  obtain ⟨linked, hlinked, rfl⟩ := linked_of_ofUnits h
  have hempty : (linked.withTypes (registered units).2).locks = {} := by
    obtain ⟨ancestors, -, rfl⟩ := linkSupertypes_eq_ok hlinked
    rfl
  generalize linked.withTypes (registered units).2 = typed at hempty ⊢
  refine ⟨allLockDecls typed, ?_, fun d hd => ?_⟩
  · rw [LockTable.after, List.foldl_map, ← hempty]
    rfl
  · rw [(sameOutline_withEntryPoints typed.withLocks).declaredNames]
    exact name_mem_declaredNames (m := typed) hd

/-- Whether names look like those of monitors is seen from the declarations alone. -/
theorem unreserved_of_ofUnits (h : ofUnits units = .ok m)
    (hnames : ∀ name ∈ (Numbered.ofUnits units).toModel.declaredNames,
      contains Expr.monitorSeparator name = false) : m.Unreserved := by
  rw [← (sameOutline_of_ofUnits h).declaredNames] at hnames
  obtain ⟨ds, hlocks, hds⟩ := exists_history_of_ofUnits h
  refine ⟨fun cls hcls => hnames _ ?_, fun lock hlock => hnames _ ?_⟩
  · refine List.mem_append_left _ (List.mem_flatMap.mpr ⟨cls, ?_, List.mem_cons_self⟩)
    exact Array.mem_toList_iff.mpr hcls
  · have hname := List.mem_map_of_mem (f := (·.name)) hlock
    rw [hlocks, LockTable.names_after, List.mem_eraseDups, List.map_map] at hname
    obtain ⟨d, hd, hname⟩ := List.mem_map.mp hname
    exact hname ▸ hds d hd

end Program.Model

/-! ## The table of a build -/

namespace CallGraph

variable {m : Model}

theorem exists_history_materialize (e : DraftEntry) (t : LockTable)
    (ht : ∃ history, t = LockTable.after history) :
    ∃ history, (materialize m e t).2 = LockTable.after history := by
  cases e with
  | calls callees => exact ht
  | dynamic => exact ht
  | lock effect target =>
    rw [materialize_lock]
    cases target with
    | declared id => exact ht
    | monitor c segment =>
      obtain ⟨history, rfl⟩ := ht
      refine ⟨history ++ [LockTable.Request.monitor c (m.className c) segment], ?_⟩
      rw [LockTable.after_append]
      rfl

theorem exists_history_built (h : ∃ history, m.locks = LockTable.after history)
    (language : Language) (readGuard : String → Option Expr) :
    ∃ history, (built m language readGuard).locks = LockTable.after history := by
  refine mapThrough_keeps (I := fun t => ∃ history, t = LockTable.after history)
    (fun d t ht => ?_) _ h
  exact mapThrough_keeps (I := fun t => ∃ history, t = LockTable.after history)
    exists_history_materialize d.entries ht

/-! ## Locks of a graph -/

/-- The lock that a target has in a graph. -/
def GraphBuild.lockOf (b : GraphBuild) (m : Model) (target : LockTarget) : LockId :=
  (CallGraph.lockOf m target b.locks).1

/-- Some call site operates on the target. -/
def Operated (ds : List Draft) (target : LockTarget) : Prop :=
  ∃ d ∈ ds, ∃ effect, .lock effect target ∈ d.entries

/-- How the locks of a graph go by the targets of the call sites. -/
structure GraphBuild.KeepsApart (b : GraphBuild) (m : Model) (ds : List Draft) : Prop where
  /-- Every call site has its place in the graph, with the lock of its target. -/
  entries : b.graph.nodes.map (·.entries) = ds.map fun d => d.entries.map (b.entryOf m)
  entryOf : ∀ effect target, b.entryOf m (.lock effect target) =
    effectEntry effect (b.lockOf m target)
  /-- The locks of a graph stand for themselves and have names. -/
  unpaired : ∀ {node : GraphNode} {id}, node ∈ b.graph.nodes →
    .acquire id ∈ node.entries ∨ .release id ∈ node.entries →
    ∃ lock, b.locks.get? id = some lock ∧ lock.paired = none ∧ (id, lock.name) ∈ b.locks.names
  /-- Monitors are told apart by the class and the segment. -/
  monitor : ∀ {c c' segment segment'}, Operated ds (.monitor c segment) →
    Operated ds (.monitor c' segment') →
    (b.lockOf m (.monitor c segment) = b.lockOf m (.monitor c' segment') ↔
      m.className c = m.className c' ∧ segment = segment')
  /-- A monitor is no declared lock. -/
  fresh : ∀ {c segment}, Operated ds (.monitor c segment) →
    m.locks.get? (b.lockOf m (.monitor c segment)) = none

section

variable {language : Language} {readGuard : String → Option Expr} {target : LockTarget}
  {free : String → Bool}

theorem entryOf_lock (b : GraphBuild) (m : Model) (effect : LockEffect) (target : LockTarget) :
    b.entryOf m (.lock effect target) = effectEntry effect (b.lockOf m target) :=
  congrArg Prod.fst (materialize_lock effect target b.locks)

/-- A monitor is the lock of its name. -/
theorem find?_lockOf_built {c : ClassId} {segment : String}
    (h : Operated (drafts m language readGuard) (.monitor c segment)) :
    (built m language readGuard).locks.find? (monitorName (m.className c) segment) =
      some ((built m language readGuard).lockOf m (.monitor c segment)) := by
  obtain ⟨d, hd, effect, he⟩ := h
  have hsettled := settled_built language readGuard hd he
  have hfind := LockTable.find?_monitor (built m language readGuard).locks c (m.className c) segment
  rw [materialize_lock] at hsettled
  exact (congrArg (fun t : LockTable => t.find? _) hsettled).symm.trans hfind

/-- Every lock of the graph is the lock of some call site. -/
theorem exists_operated_of_mem_entries {node : GraphNode}
    (hnode : node ∈ (built m language readGuard).graph.nodes) {id : LockId}
    (hentry : .acquire id ∈ node.entries ∨ .release id ∈ node.entries) :
    ∃ target, Operated (drafts m language readGuard) target ∧
      id = (built m language readGuard).lockOf m target := by
  rw [nodes_built] at hnode
  obtain ⟨f, hf, rfl⟩ := List.mem_mapIdx.mp hnode
  obtain ⟨effect, hmem⟩ : ∃ effect, effectEntry effect id ∈
      (drafts m language readGuard)[f].entries.map ((built m language readGuard).entryOf m) := by
    rcases hentry with hentry | hentry
    · exact ⟨.acquire, hentry⟩
    · exact ⟨.release, hentry⟩
  obtain ⟨e, he, heq⟩ := List.mem_map.mp hmem
  cases e with
  | calls callees => cases effect <;> cases heq
  | dynamic => cases effect <;> cases heq
  | lock effect' target =>
    refine ⟨target, ⟨_, List.getElem_mem hf, effect', he⟩, ?_⟩
    rw [entryOf_lock] at heq
    cases effect <;> cases effect' <;> cases heq <;> rfl

/-- No declared lock has the name of a monitor. -/
theorem fresh_lockOf_built (hm : m.Unreserved)
    (hbooks : (built m language readGuard).locks.Books free) {c : ClassId} {segment : String}
    (h : Operated (drafts m language readGuard) (.monitor c segment)) :
    m.locks.get? ((built m language readGuard).lockOf m (.monitor c segment)) = none := by
  obtain ⟨lock, hget, hname⟩ := hbooks.find?_eq_some_iff.mp (find?_lockOf_built h)
  by_contra hsome
  obtain ⟨declared, hdeclared⟩ := Option.ne_none_iff_exists'.mp hsome
  have hsame := LockTable.get?_mono (le_locks_built language readGuard m) hdeclared
  obtain rfl : declared = lock := Option.some.inj (hsame.symm.trans hget)
  have hfree := hm.locks declared (LockTable.mem_of_get? hdeclared)
  rw [hname, contains_monitorName] at hfree
  cases hfree

theorem unpaired_lockOf_built (hm : m.Unreserved)
    (hbooks : (built m language readGuard).locks.Books free)
    (h : Operated (drafts m language readGuard) target) {lock : Lock}
    (hget : (built m language readGuard).locks.get?
      ((built m language readGuard).lockOf m target) = some lock) : lock.paired = none := by
  cases target with
  | declared id =>
    have hpaired := hbooks.paired_canonical id
    rwa [show (built m language readGuard).locks.canonical id =
      (built m language readGuard).lockOf m (.declared id) from rfl, hget] at hpaired
  | monitor c segment =>
    exact (LockTable.get?_added (le_locks_built language readGuard m)
      (fresh_lockOf_built hm hbooks h) hget).2

/-- Two monitors are one lock if and only if they have one name. -/
theorem lockOf_built_inj (hm : m.Unreserved)
    (hbooks : (built m language readGuard).locks.Books free) {c c' : ClassId}
    {segment segment' : String} (h : Operated (drafts m language readGuard) (.monitor c segment))
    (h' : Operated (drafts m language readGuard) (.monitor c' segment')) :
    (built m language readGuard).lockOf m (.monitor c segment) =
        (built m language readGuard).lockOf m (.monitor c' segment') ↔
      m.className c = m.className c' ∧ segment = segment' := by
  rw [← monitorName_inj (hm.className c) (hm.className c')]
  have hfind := find?_lockOf_built h
  have hfind' := find?_lockOf_built h'
  constructor
  · intro heq
    obtain ⟨lock, hget, hname⟩ := hbooks.find?_eq_some_iff.mp hfind
    obtain ⟨lock', hget', hname'⟩ := hbooks.find?_eq_some_iff.mp hfind'
    rw [heq] at hget
    rw [← hname, ← hname', Option.some.inj (hget.symm.trans hget')]
  · intro heq
    rw [heq] at hfind
    exact Option.some.inj (hfind.symm.trans hfind')

end

end CallGraph

/-! ## Locks of the findings -/

/-- Some entry takes the lock. -/
def CallGraph.Takes (g : CallGraph) (lock : LockId) : Prop := ∃ f, .acquire lock ∈ g.entries f

theorem CallGraph.exists_node_of_mem_entries {g : CallGraph} {f : FunctionId} {e : GraphEntry}
    (h : e ∈ g.entries f) : ∃ node ∈ g.nodes, e ∈ node.entries := by
  unfold entries at h
  split at h
  · next node hnode => exact ⟨node, List.mem_of_getElem? hnode, h⟩
  · cases h

namespace Deadlock

variable {g : CallGraph}

def Event.locks : Event → List LockId
  | leave held => held
  | take lock held => lock :: held

/-- A run holds and takes what it started with and what entries take. -/
theorem Run.takes {skips : FunctionId → FunctionId → Prop} {f : FunctionId} {es : List GraphEntry}
    {held : List LockId} {ev : Event} (h : Run g skips f es held ev) (hes : es ⊆ g.entries f)
    (hheld : ∀ l ∈ held, g.Takes l) : ∀ l ∈ ev.locks, g.Takes l := by
  induction h with
  | leave => exact hheld
  | take =>
    intro l hl
    rcases List.mem_cons.mp hl with rfl | hl
    · exact ⟨_, hes List.mem_cons_self⟩
    · exact hheld l hl
  | acquire _ ih =>
    refine ih (List.subset_of_cons_subset hes) fun l hl => ?_
    rcases List.mem_append.mp hl with hl | hl
    · exact hheld l hl
    · exact ⟨_, List.mem_singleton.mp hl ▸ hes List.mem_cons_self⟩
  | release _ ih =>
    refine ih (List.subset_of_cons_subset hes) fun l hl => hheld l ?_
    exact List.mem_reverse.mp (List.mem_of_mem_erase (List.mem_reverse.mp hl))
  | library _ ih => exact ih (List.subset_of_cons_subset hes) hheld
  | inside _ _ ih => exact ih (List.Subset.refl _) hheld
  | call _ _ _ ihc ih =>
    exact ih (List.subset_of_cons_subset hes) (ihc (List.Subset.refl _) hheld)
  | skip _ _ _ ih => exact ih (List.subset_of_cons_subset hes) hheld

/-- The locks that a program is observed with are taken by its entries. -/
theorem takes_of_observes {cap : Nat} {a b : LockId} (h : (lockOrder g cap).Observes a b) :
    g.Takes a ∧ g.Takes b := by
  obtain ⟨root, -, h⟩ := lockOrder_observes.mp h
  obtain ⟨stack, hrun, ha⟩ := meets_of_observes h
  have htakes := hrun.takes (List.Subset.refl _) (by simp)
  exact ⟨htakes a (List.mem_cons_of_mem _ ha), htakes b List.mem_cons_self⟩

/-- All locks that findings mention, in their order. -/
def Findings.lockIds (f : Findings) : List LockId :=
  f.deadlocks.flatMap (fun c => c.locks ++ c.edges.flatMap fun e => [e.pair.held, e.pair.taken]) ++
    f.reentrancies.map (·.lock)

theorem takes_of_mem_locks {cap : Nat} {l : LockId} (h : l ∈ (lockOrder g cap).order.locks) :
    g.Takes l := by
  obtain ⟨e, he, hl⟩ := List.mem_flatMap.mp (Ordered.mem_ofList.mp h)
  have hcontains := LockOrder.contains_iff.mpr (List.mem_map_of_mem (f := (·.1)) he)
  obtain ⟨ha, hb⟩ := takes_of_observes (Outcome.contains_iff_observes.mp hcontains).2
  simp only [List.mem_cons, List.not_mem_nil, or_false] at hl
  rcases hl with rfl | rfl
  · exact ha
  · exact hb

/-- Only locks that some entry takes are reported. -/
theorem takes_of_mem_lockIds {cap : Nat} {l : LockId} (h : l ∈ (detect g cap).lockIds) :
    g.Takes l := by
  rcases List.mem_append.mp h with h | h
  · obtain ⟨c, hc, hl⟩ := List.mem_flatMap.mp h
    obtain ⟨first, hlocks, hedges, -⟩ := LockOrder.eq_component_of_mem_conflicts hc
    have hcomponent : ∀ x ∈ c.locks, g.Takes x := fun x hx =>
      takes_of_mem_locks (LockOrder.mem_component.mp (hlocks ▸ hx)).1
    rcases List.mem_append.mp hl with hl | hl
    · exact hcomponent l hl
    · obtain ⟨⟨pair, witness⟩, he, hl⟩ := List.mem_flatMap.mp hl
      rw [hedges] at he
      obtain ⟨-, hheld, htaken⟩ := LockOrder.mem_edgesAmong.mp he
      simp only [List.mem_cons, List.not_mem_nil, or_false] at hl
      rcases hl with rfl | rfl
      · exact hcomponent _ hheld
      · exact hcomponent _ htaken
  · obtain ⟨r, hr, rfl⟩ := List.mem_map.mp h
    obtain ⟨again, hagain, rfl⟩ := List.mem_map.mp hr
    exact (takes_of_observes (Outcome.observes_self.mpr (List.mem_map_of_mem hagain))).1

end Deadlock

/-! ## Locks of a report -/

namespace Report

/-- All names of locks in a report, in their order. -/
def lockStrings (r : Report) : List String :=
  r.deadlocks.flatMap (fun d => d.locks ++ d.edges.flatMap fun e => [e.held, e.taken]) ++
    r.reentrancies.map (·.lock)

theorem lockStrings_ofFindings (m : Model) (locks : LockTable) (findings : Findings)
    (diagnostics : List Diagnostic) (run : RunInfo) :
    (ofFindings m locks findings diagnostics run).lockStrings =
      findings.lockIds.map (lockName locks) := by
  simp only [lockStrings, ofFindings, Findings.lockIds, List.map_append, List.map_flatMap,
    List.flatMap_map, List.map_map, deadlockOf, edgeOf, List.map_cons, List.map_nil]
  rfl

/-- How the locks of the findings appear in a report. -/
structure NamesLocks (r : Report) (locks : LockTable) (findings : Findings) : Prop where
  /-- Every lock appears under the name that the table has for it. -/
  names : r.lockStrings.map some = findings.lockIds.map fun id => (locks.get? id).map (·.name)
  /-- No lock appears as a mere number. -/
  label : ∀ name ∈ r.lockStrings, ∀ n, name ≠ LockId.label n
  /-- Where the same name appears, it is the same lock. -/
  apart : ∀ {i j : Nat} {name}, r.lockStrings[i]? = some name → r.lockStrings[j]? = some name →
    findings.lockIds[i]? = findings.lockIds[j]?

/-- A lock that has a name is reported by it. -/
theorem lockName_of_mem_names {t : LockTable} {free : String → Bool} (hbooks : t.Books free)
    {id : LockId} {name : String} (h : (id, name) ∈ t.names) : lockName t id = name := by
  have hname : ∀ {name}, (id, name) ∈ t.names → (t.get? id).map (·.name) = some name := by
    intro name h
    obtain ⟨lock, hlock, heq⟩ := List.mem_map.mp h
    cases heq
    rw [hbooks.get?_id (List.mem_filter.mp hlock).1]
    rfl
  unfold lockName
  split
  · next id' name' hfind =>
    obtain rfl : id' = id := by simpa using List.find?_some hfind
    exact Option.some.inj ((hname (List.mem_of_find?_eq_some hfind)).symm.trans (hname h))
  · next hnone => exact absurd (List.find?_eq_none.mp hnone _ h) (by simp)

/-- The name of a lock has a point in it, between its class and its field. -/
theorem point_mem_name {history : List LockTable.Request} {lock : Lock}
    (h : lock ∈ (LockTable.after history).locks) : '.' ∈ lock.name.toList := by
  have hname := List.mem_map_of_mem (f := (·.name)) h
  rw [LockTable.names_after, List.mem_eraseDups] at hname
  obtain ⟨r, -, hr⟩ := List.mem_map.mp hname
  rw [← hr]
  cases r <;> simp [LockTable.Request.name, LockDecl.name]

/-- Where the locks of the findings have names in the table, the report shows these names. -/
theorem namesLocks_ofFindings {history : List LockTable.Request} {t : LockTable}
    (ht : t = LockTable.after history) {findings : Findings}
    (hnamed : ∀ id ∈ findings.lockIds, ∃ lock, t.get? id = some lock ∧ (id, lock.name) ∈ t.names)
    (m : Model) (diagnostics : List Diagnostic) (run : RunInfo) :
    (ofFindings m t findings diagnostics run).NamesLocks t findings := by
  have hbooks : t.Books _ := ht ▸ (LockTable.kept_after history []).books
  have hname : ∀ id ∈ findings.lockIds, (t.get? id).map (·.name) = some (lockName t id) := by
    intro id hid
    obtain ⟨lock, hget, hmem⟩ := hnamed id hid
    rw [hget, lockName_of_mem_names hbooks hmem]
    rfl
  have hinj : ∀ {id id'}, id ∈ findings.lockIds → id' ∈ findings.lockIds →
      lockName t id = lockName t id' → id = id' := by
    intro id id' hid hid' heq
    obtain ⟨lock, hget, hlock⟩ := Option.map_eq_some_iff.mp (hname id hid)
    obtain ⟨lock', hget', hlock'⟩ := Option.map_eq_some_iff.mp (hname id' hid')
    have hfind := hbooks.find?_eq_some_iff.mpr ⟨lock, hget, hlock⟩
    have hfind' := hbooks.find?_eq_some_iff.mpr ⟨lock', hget', hlock'.trans heq.symm⟩
    exact Option.some.inj (hfind.symm.trans hfind')
  refine ⟨?_, fun name hmem n hlabel => ?_, fun {i j name} hi hj => ?_⟩
  · rw [lockStrings_ofFindings, List.map_map]
    exact List.map_congr_left fun id hid => (hname id hid).symm
  · rw [lockStrings_ofFindings] at hmem
    obtain ⟨id, hid, rfl⟩ := List.mem_map.mp hmem
    obtain ⟨lock, hget, hlock⟩ := Option.map_eq_some_iff.mp (hname id hid)
    have hpoint := point_mem_name (ht ▸ LockTable.mem_of_get? hget)
    rw [hlock, hlabel] at hpoint
    exact point_not_mem_label (by decide) n hpoint
  · rw [lockStrings_ofFindings, List.getElem?_map, Option.map_eq_some_iff] at hi hj
    obtain ⟨id, hid, rfl⟩ := hi
    obtain ⟨id', hid', heq⟩ := hj
    rw [hid, hid', hinj (List.mem_of_getElem? hid') (List.mem_of_getElem? hid) heq]

end Report

/-- In the graph of a finished model no lock is lost and no two are taken for each other, and so
none is in any report on it. -/
theorem exists_build_namesLocks {units : List SourceUnit} {m : Model}
    (h : Model.ofUnits units = .ok m) (hm : m.Unreserved) (language : Language)
    (readGuard : String → Option Expr) :
    ∃ b, build m language readGuard = .ok b ∧
      b.KeepsApart m (drafts m language readGuard) ∧
      ∀ maxExitStates diagnostics run,
        (Report.ofFindings m b.locks (detect b.graph maxExitStates) diagnostics run).NamesLocks
          b.locks (detect b.graph maxExitStates) := by
  obtain ⟨ds, hlocks, -⟩ := Model.exists_history_of_ofUnits h
  obtain ⟨history, hhistory⟩ := exists_history_built ⟨_, hlocks⟩ language readGuard
  have hbooks : (built m language readGuard).locks.Books _ :=
    hhistory ▸ (LockTable.kept_after history []).books
  have hnamed : ∀ {node id}, node ∈ (built m language readGuard).graph.nodes →
      .acquire id ∈ node.entries ∨ .release id ∈ node.entries →
      ∃ lock, (built m language readGuard).locks.get? id = some lock ∧ lock.paired = none ∧
        (id, lock.name) ∈ (built m language readGuard).locks.names := by
    intro node id hnode hentry
    have hhas : (built m language readGuard).locks.Has id := by
      rcases hentry with hentry | hentry
      · exact knownIn_built language readGuard (valid_locks_of_ofUnits h) hnode hentry
      · exact knownIn_built language readGuard (valid_locks_of_ofUnits h) hnode hentry
    obtain ⟨lock, hget⟩ := hhas
    obtain ⟨target, htarget, rfl⟩ := exists_operated_of_mem_entries hnode hentry
    have hpaired := unpaired_lockOf_built hm hbooks htarget hget
    obtain ⟨hlock, hid⟩ := hbooks.get?_eq_some_iff.mp hget
    exact ⟨lock, hget, hpaired, List.mem_map.mpr ⟨lock, by simp [hlock, hpaired], by rw [hid]⟩⟩
  refine ⟨_, build_eq_ok language readGuard (Model.wellNested_of_ofUnits h),
    ⟨?_, entryOf_lock _ m, hnamed, lockOf_built_inj hm hbooks, fresh_lockOf_built hm hbooks⟩,
    fun cap diagnostics run => Report.namesLocks_ofFindings hhistory (fun id hid => ?_) ..⟩
  · refine List.ext_getElem? fun i => ?_
    simp only [nodes_built, List.getElem?_map, List.getElem?_mapIdx, Option.map_map]
    rfl
  · obtain ⟨f, hf⟩ := takes_of_mem_lockIds hid
    obtain ⟨node, hnode, hentry⟩ := CallGraph.exists_node_of_mem_entries hf
    obtain ⟨lock, hget, -, hmem⟩ := hnamed hnode (.inl hentry)
    exact ⟨lock, hget, hmem⟩

/-- An account whose methods take its declared lock and its monitor in opposite orders, and another
class with a region of its own. -/
def Program.Model.accounts : List SourceUnit :=
  let lock (name : String) : Expr := .callOn (.ident "guard") name []
  let region := Expr.monitorCall "this" 0
  let deposit : MethodDecl :=
    { name := "deposit", returns := some "void"
      calls := [lock "lock", region true, region false, lock "unlock"] }
  let audit : MethodDecl :=
    { name := "audit", returns := some "void"
      calls := [region true, lock "lock", lock "unlock", region false] }
  let account : ClassDecl :=
    { name := "Account", fields := [{ type := "ReentrantLock", name := "guard" }]
      methods := [deposit, audit] }
  let close : MethodDecl :=
    { name := "close", returns := some "void", calls := [region true, region false] }
  [{ path := "Account.java", package := "bank"
     classes := [account, { name := "Branch", methods := [close] }] }]

theorem accounts_build_namesLocks : ∃ m b, Model.ofUnits Model.accounts = .ok m ∧ m.Unreserved ∧
    build m .java (fun guard => some (.ident guard)) = .ok b ∧
    b.KeepsApart m (drafts m .java fun guard => some (.ident guard)) ∧
    (Report.ofFindings m b.locks (detect b.graph defaultMaxExitStates) b.diagnostics
      ⟨"java", 1, 0⟩).NamesLocks b.locks (detect b.graph defaultMaxExitStates) := by
  have hsupers : (Model.declared Model.accounts).namedSupers = #[[], []] := by decide +kernel
  obtain ⟨m, hm, -⟩ := (Model.exists_ofUnits_iff Model.accounts).mpr ⟨_, by rw [hsupers]; rfl⟩
  have hfree : m.Unreserved := Model.unreserved_of_ofUnits hm (by decide +kernel)
  obtain ⟨b, hb, hapart, hreport⟩ :=
    exists_build_namesLocks hm hfree .java fun guard => some (.ident guard)
  exact ⟨m, b, hm, hfree, hb, hapart, hreport _ _ _⟩

end Interlock
