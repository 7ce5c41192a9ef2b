import Interlock.Proofs.CallGraph.Dispatch
import Interlock.Proofs.CallGraph.Layout
import Interlock.Proofs.Program.LockTable

/-! What call sites lead to. Every function that an entry calls is a function of the model, and
every declared lock that a value holds is a lock of its table, as long as the parts of an expression
are like that. -/

namespace Interlock.Program.Model

variable {m : Model} {c : ClassId} {f : FunctionId} {name : String} {args : ArgTypes}

theorem lt_size_of_function? {fn : Function} (h : m.function? f = some fn) :
    f < m.functions.size :=
  (Array.getElem?_eq_some_iff.mp h).1

theorem lt_size_of_best? {p : Function → Bool} (h : m.best? (m.functionsWhere c p) args = some f) :
    f < m.functions.size := by
  obtain ⟨fn, hfn, -⟩ := exists_of_mem_functionsWhere (mem_of_best? h)
  exact lt_size_of_function? hfn

theorem lt_size_of_mem_callees (h : f ∈ (m.dispatch c name args).callees) :
    f < m.functions.size := by
  obtain ⟨fn, hfn, -⟩ := isMember_of_mem_callees h
  exact lt_size_of_function? hfn

theorem lt_size_of_superMethod? (h : m.superMethod? c name args = some f) :
    f < m.functions.size := by
  obtain ⟨owner, -, howner⟩ := List.exists_of_findSome?_eq_some h
  exact lt_size_of_best? (bodyInClass?_eq_some.mp howner).1

theorem lt_size_of_localFunction? {g : FunctionId} (h : m.localFunction? f name args = some g) :
    g < m.functions.size := by
  obtain ⟨fn, -, hbest⟩ := Option.bind_eq_some_iff.mp h
  exact lt_size_of_best? hbest

theorem has_of_fieldLock? (h : m.locks.Valid) {id : LockId}
    (hlock : m.fieldLock? c name = some id) : m.locks.Has id := by
  obtain ⟨scope, -, hscope⟩ := List.exists_of_findSome?_eq_some hlock
  obtain ⟨owner, -, howner⟩ := List.exists_of_findSome?_eq_some hscope
  obtain ⟨cls, -, hfind⟩ := Option.bind_eq_some_iff.mp howner
  exact h.has_of_find? hfind

end Interlock.Program.Model

namespace Interlock.CallGraph

open Interlock.Types Interlock.Program

/-- A declared lock is in the table. -/
def LockTarget.KnownIn (t : LockTable) : LockTarget → Prop
  | .declared id => t.Has id
  | .monitor _ _ => True

/-- The functions and locks of an entry exist. -/
def DraftEntry.KnownIn (m : Model) : DraftEntry → Prop
  | .calls callees => ∀ f ∈ callees, f < m.functions.size
  | .lock _ target => target.KnownIn m.locks
  | .dynamic => True

/-- The lock of a value exists. -/
def Resolved.KnownIn (m : Model) (r : Resolved) : Prop :=
  ∀ target, r.lock = some target → target.KnownIn m.locks

/-- The lock of a value is one of the table and no monitor. -/
def Resolved.DeclaredIn (m : Model) (r : Resolved) : Prop :=
  ∀ target, r.lock = some target → ∃ id, target = .declared id ∧ m.locks.Has id

/-- A value and what its expression leaves lead to functions and locks that exist. -/
structure Sound (m : Model) (made : Resolved × Draft) : Prop where
  value : made.1.KnownIn m
  entries : ∀ e ∈ made.2.entries, e.KnownIn m

variable {m : Model}

namespace Resolved

theorem knownIn_of_lock_none {r : Resolved} (h : r.lock = none) : r.KnownIn m := by
  simp [KnownIn, h]

theorem declaredIn_of_lock_none {r : Resolved} (h : r.lock = none) : r.DeclaredIn m := by
  simp [DeclaredIn, h]

theorem declaredIn_holding (ty : TypeId) {lock : Option LockId}
    (h : ∀ id, lock = some id → m.locks.Has id) :
    (holding ty (lock.map .declared)).DeclaredIn m := by
  intro target htarget
  obtain ⟨id, hid, rfl⟩ := Option.map_eq_some_iff.mp htarget
  exact ⟨id, rfl, h id hid⟩

theorem DeclaredIn.knownIn {r : Resolved} (h : r.DeclaredIn m) : r.KnownIn m := by
  intro target htarget
  obtain ⟨id, rfl, hid⟩ := h target htarget
  exact hid

end Resolved

namespace Sound

theorem silent {r : Resolved} (h : r.KnownIn m) : Sound m (r, {}) := ⟨h, by simp⟩

theorem calls {r : Resolved} {callees : List FunctionId} (h : r.lock = none)
    (hcallees : ∀ f ∈ callees, f < m.functions.size) : Sound m (r, .entry (.calls callees)) := by
  refine ⟨Resolved.knownIn_of_lock_none h, ?_⟩
  simpa [Draft.entry, DraftEntry.KnownIn] using hcallees

/-- A call into code that is not analysed, diagnosed or not. -/
theorem external {r : Resolved} (h : r.KnownIn m) (diagnostics : List Diagnostic) :
    Sound m (r, Site.external ++ { diagnostics }) := by
  refine ⟨h, ?_⟩
  simp [Site.external, Draft.entry, DraftEntry.KnownIn]

end Sound

namespace Site

variable (s : Site)

/-! ## Names and members -/

theorem declaredIn_variableOf (ty : TypeId) {lock : Option LockId}
    (h : ∀ id, lock = some id → s.model.locks.Has id) :
    (s.variableOf ty lock).DeclaredIn s.model := by
  unfold variableOf
  split
  · exact Resolved.declaredIn_holding ty h
  · exact Resolved.declaredIn_of_lock_none rfl

theorem declaredIn_plainName (h : s.model.locks.Valid) (name : String) :
    (s.plainName name).DeclaredIn s.model := by
  unfold plainName
  dsimp only
  split
  · exact s.declaredIn_variableOf _ fun id hid => h.has_of_find? hid
  · split
    · exact s.declaredIn_variableOf _ fun id hid => Model.has_of_fieldLock? h hid
    · repeat' split
      all_goals exact Resolved.declaredIn_of_lock_none rfl

theorem declaredIn_classMember (h : s.model.locks.Valid) (ty : TypeId) (c : ClassId)
    (name : String) : (s.classMember ty c name).DeclaredIn s.model := by
  have hnone : ∀ {r : Resolved}, r.lock = none → r.DeclaredIn s.model :=
    Resolved.declaredIn_of_lock_none
  unfold classMember
  split
  · exact hnone rfl
  · split
    · exact hnone rfl
    · split
      · exact hnone rfl
      · split
        · exact hnone rfl
        · split
          · split
            · exact Resolved.declaredIn_holding _ fun id hid => Model.has_of_fieldLock? h hid
            · exact hnone rfl
          · split
            · exact hnone rfl
            · exact hnone rfl

theorem declaredIn_memberOf (h : s.model.locks.Valid) (name : String) (ty : TypeId) :
    (s.memberOf name ty).DeclaredIn s.model := by
  have hnone : ∀ {r : Resolved}, r.lock = none → r.DeclaredIn s.model :=
    Resolved.declaredIn_of_lock_none
  unfold memberOf
  dsimp only
  split
  · exact hnone rfl
  · split
    · split <;> exact hnone rfl
    · split
      · exact s.declaredIn_classMember h _ _ _
      · split
        · exact hnone rfl
        · split <;> exact hnone rfl

theorem declaredIn_member (h : s.model.locks.Valid) (receiver : Resolved) (name : String) :
    (s.member receiver name).DeclaredIn s.model := by
  unfold member
  split
  · exact Resolved.declaredIn_of_lock_none rfl
  · intro target htarget
    obtain ⟨r, hr, hlock⟩ := List.exists_of_findSome?_eq_some htarget
    obtain ⟨ty, -, rfl⟩ := List.mem_map.mp hr
    exact s.declaredIn_memberOf h name ty target hlock

theorem knownIn_operation (kind : OperationKind) {operands : List Resolved}
    (h : ∀ r ∈ operands, r.KnownIn m) : (operation kind operands).KnownIn m := by
  have hoption : ∀ o : Option Resolved, (∀ r, o = some r → r ∈ operands) →
      (o.getD .unknown).KnownIn m := by
    intro o ho
    cases o with
    | none => exact Resolved.knownIn_of_lock_none rfl
    | some r => exact h r (ho r rfl)
  unfold operation
  split
  · exact Resolved.knownIn_of_lock_none rfl
  · exact hoption _ fun r hr => List.mem_of_getLast? hr
  · exact hoption _ fun r hr => List.mem_of_getElem? hr
  · split
    · exact Resolved.knownIn_of_lock_none rfl
    · split <;> exact Resolved.knownIn_of_lock_none rfl

/-! ## Calls -/

theorem sound_construct (ty : TypeRef) (args : List Resolved) :
    Sound s.model (s.construct ty args) := by
  refine .calls rfl fun f hf => ?_
  obtain ⟨c, -, hconstructor⟩ := Option.bind_eq_some_iff.mp (Option.mem_toList.mp hf)
  exact Model.lt_size_of_best? hconstructor

theorem sound_fallback (call : Expr) (name : String) (receiver : Option TypeId)
    (kind : DiagnosticKind) : Sound s.model (s.fallback call name receiver kind) := by
  unfold fallback
  split
  · exact .calls rfl (by simp)
  · split
    · exact .calls rfl (by simp)
    · exact .external (Resolved.knownIn_of_lock_none rfl) _

theorem sound_lockCall (call : Expr) (name : String) {lock : Option LockTarget}
    (h : ∀ target, lock = some target → target.KnownIn s.model.locks) :
    Sound s.model (s.lockCall call name lock) := by
  have hnone : ∀ {r : Resolved}, r.lock = none → r.KnownIn s.model := Resolved.knownIn_of_lock_none
  unfold lockCall
  dsimp only
  split
  · refine .external ?_ _
    split <;> exact hnone rfl
  · next target =>
    have htarget := h target rfl
    split
    · refine ⟨hnone rfl, ?_⟩
      simpa [Draft.entry, DraftEntry.KnownIn] using htarget
    · refine ⟨?_, by simp [Site.external, Draft.entry, DraftEntry.KnownIn]⟩
      split
      · intro other hother
        cases hother
        exact htarget
      · exact hnone rfl

theorem sound_superCall (name : String) (args : ArgTypes) :
    Sound s.model (s.superCall name args) := by
  unfold superCall
  split
  · next f hf =>
    refine .calls rfl fun g hg => ?_
    exact List.mem_singleton.mp hg ▸ Model.lt_size_of_superMethod? hf
  · exact .calls rfl (by simp)

theorem sound_plainCall (call : Expr) (name : String) (args : ArgTypes) :
    Sound s.model (s.plainCall call name args) := by
  unfold plainCall
  split
  · next f hf =>
    refine .calls rfl fun g hg => ?_
    exact List.mem_singleton.mp hg ▸ Model.lt_size_of_localFunction? hf
  · dsimp only
    split
    · exact s.sound_fallback ..
    · exact .calls rfl fun f hf => Model.lt_size_of_mem_callees hf

theorem lt_size_of_callOnClass {ty : TypeId} {c : ClassId} {name : String} {args : ArgTypes}
    {found : List FunctionId × List TypeId} (h : s.callOnClass ty c name args = .ok found) :
    ∀ f ∈ found.1, f < s.model.functions.size := by
  unfold callOnClass at h
  dsimp only at h
  split at h
  · cases h
    simp
  · split at h
    · cases h
    · cases h
      exact fun f hf => Model.lt_size_of_mem_callees hf

/-- Only declared classes have bodies to run. -/
theorem lt_size_of_callOnType {name : String} {args : ArgTypes} {ty : TypeId}
    {found : List FunctionId × List TypeId} (h : s.callOnType name args ty = .ok found) :
    ∀ f ∈ found.1, f < s.model.functions.size := by
  have hreturns : ∀ {result : TypeId}, returns result = .ok found →
      ∀ f ∈ found.1, f < s.model.functions.size := by
    intro result hresult
    cases hresult
    simp
  unfold callOnType at h
  dsimp only at h
  split at h
  · exact hreturns h
  · split at h
    · exact s.lt_size_of_callOnClass h
    · split at h
      · split at h <;> exact hreturns h
      · split at h
        · exact hreturns h
        · split at h
          · exact hreturns h
          · split at h
            · exact hreturns h
            · cases h

theorem sound_typedCall (call : Expr) (name : String) (args : ArgTypes) (receiver : Resolved) :
    Sound s.model (s.typedCall call name args receiver) := by
  unfold typedCall
  dsimp only
  split
  · exact s.sound_fallback ..
  · refine .calls rfl fun f hf => ?_
    obtain ⟨found, hfound, hf⟩ := List.mem_flatMap.mp (Ordered.mem_ofList.mp hf)
    obtain ⟨outcome, houtcome, hok⟩ := List.mem_filterMap.mp hfound
    obtain ⟨ty, -, rfl⟩ := List.mem_map.mp houtcome
    cases hcall : s.callOnType name args ty with
    | error kind => simp [hcall, Except.toOption] at hok
    | ok found' =>
      obtain rfl : found' = found := by simpa [hcall, Except.toOption] using hok
      exact s.lt_size_of_callOnType hcall f hf

theorem sound_callOn (call : Expr) (name : String) {receiver : Resolved} (args : List Resolved)
    (h : receiver.KnownIn s.model) : Sound s.model (s.callOn call name receiver args) := by
  unfold callOn
  split
  · exact s.sound_lockCall _ _ h
  · split
    · exact ⟨Resolved.knownIn_of_lock_none rfl, by simp [Draft.entry, DraftEntry.KnownIn]⟩
    · split
      · exact s.sound_fallback ..
      · exact s.sound_typedCall ..

/-! ## Expressions -/

section

variable {mo : MonitorOf} (hmo : ∀ guard, (mo guard).KnownIn s.model.locks)
  (hlocks : s.model.locks.Valid)

include hmo hlocks

theorem knownIn_name (n : String) : (s.name mo n).KnownIn s.model := by
  unfold name
  split
  · intro target htarget
    cases htarget
    exact hmo _
  · exact (s.declaredIn_plainName hlocks n).knownIn

theorem sound_own (e : Expr) {values : List Resolved} (h : ∀ v ∈ values, v.KnownIn s.model) :
    Sound s.model (s.own mo e values) := by
  have hnone : ∀ {r : Resolved}, r.lock = none → r.KnownIn s.model := Resolved.knownIn_of_lock_none
  have hhead : (values.headD .unknown).KnownIn s.model := by
    cases values with
    | nil => exact hnone rfl
    | cons v vs => exact h v List.mem_cons_self
  cases e with
  | ident n => exact .silent (s.knownIn_name hmo hlocks n)
  | super =>
    refine .silent ?_
    split <;> exact hnone rfl
  | new ty args => exact s.sound_construct ty values
  | paren inner => exact .silent hhead
  | index target indices =>
    refine .silent ?_
    unfold index
    split <;> exact hnone rfl
  | member target n => exact .silent (s.declaredIn_member hlocks _ n).knownIn
  | call n args => exact s.sound_plainCall ..
  | callOn target n args =>
    cases target with
    | super => exact s.sound_superCall ..
    | _ => exact s.sound_callOn _ _ _ hhead
  | operation kind operands => exact .silent (knownIn_operation kind h)
  | literal _ | this | classLiteral _ | newArray _ _ | cast _ _ | other _ =>
    exact .silent (hnone rfl)

theorem sound_expr (e : Expr) : Sound s.model (s.expr mo e) := by
  induction e using Expr.partsInduction with
  | step e ih =>
    have hvalues : ∀ v ∈ e.children.map fun c => (s.expr mo c).1, v.KnownIn s.model := by
      simpa using fun c hc => (ih c hc).value
    have hown := s.sound_own hmo hlocks e hvalues
    rw [expr_eq]
    refine ⟨hown.value, fun entry hentry => ?_⟩
    rcases List.mem_append.mp hentry with hentry | hentry
    · simp only [Draft.entries_join, List.mem_flatMap, List.mem_map] at hentry
      obtain ⟨d, ⟨c, hc, rfl⟩, hd⟩ := hentry
      exact (ih c hc).entries entry hd
    · exact hown.entries entry hentry

end

/-- The monitor of a guard is never taken for a declared lock. -/
theorem monitor_eq_monitor (guard : String) :
    ∃ c segment, s.monitor guard = .monitor c segment := by
  unfold monitor monitorAt
  split <;> exact ⟨_, _, rfl⟩

theorem knownIn_resolveAll (hlocks : s.model.locks.Valid) (es : List Expr) :
    ∀ entry ∈ (s.resolveAll es).entries, entry.KnownIn s.model := by
  have hmo : ∀ guard, (s.monitor guard).KnownIn s.model.locks := by
    intro guard
    obtain ⟨c, segment, hmonitor⟩ := s.monitor_eq_monitor guard
    rw [hmonitor]
    trivial
  intro entry hentry
  simp only [resolveAll, exprs_eq, Draft.entries_join, List.mem_flatMap, List.mem_map] at hentry
  obtain ⟨d, ⟨e, -, rfl⟩, hd⟩ := hentry
  exact (s.sound_expr hmo hlocks e).entries entry hd

end Site

end Interlock.CallGraph
