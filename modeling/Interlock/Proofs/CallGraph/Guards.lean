import Interlock.Proofs.CallGraph.Targets

/-! Reading guards. The guard of a region is read once more to name its monitor. That reading may
change which monitor an entry is about, and nothing else: with the names of monitors left out, what
an expression leaves does not depend on how guards are read. The monitors inside a guard belong to
shorter guards, so that reading them comes to an end. -/

namespace Interlock.CallGraph

open Interlock.Types Interlock.Program

/-! ## Monitors without names -/

def LockTarget.anonymous : LockTarget → LockTarget
  | .declared id => .declared id
  | .monitor _ _ => .monitor 0 ""

def DraftEntry.anonymous : DraftEntry → DraftEntry
  | .calls callees => .calls callees
  | .lock effect target => .lock effect target.anonymous
  | .dynamic => .dynamic

/-- What call sites leave, without the names of monitors. -/
def Draft.anonymous (d : Draft) : Draft := { d with entries := d.entries.map DraftEntry.anonymous }

def Resolved.anonymous (r : Resolved) : Resolved :=
  { r with lock := r.lock.map LockTarget.anonymous }

/-- A value and what its expression leaves, without the names of monitors. -/
def anonymous (made : Resolved × Draft) : Resolved × Draft :=
  (made.1.anonymous, made.2.anonymous)

namespace Draft

@[simp] theorem anonymous_append (a b : Draft) :
    (a ++ b).anonymous = a.anonymous ++ b.anonymous := by
  apply eq_of_parts <;> simp [anonymous]

@[simp] theorem anonymous_join (ds : List Draft) :
    (join ds).anonymous = join (ds.map anonymous) := by
  induction ds with
  | nil => rfl
  | cons d ds ih => simp [ih]

end Draft

theorem Resolved.DeclaredIn.anonymous_eq {m : Model} {r : Resolved} (h : r.DeclaredIn m) :
    r.anonymous = r := by
  obtain ⟨types, lock, isTypeName⟩ := r
  cases lock with
  | none => rfl
  | some target =>
    obtain ⟨id, rfl, -⟩ := h target rfl
    rfl

namespace Site

variable (s : Site)

/-- All monitors under one name. -/
def unnamed : MonitorOf := fun _ => .monitor 0 ""

/-! ### One step -/

theorem argTypes_anonymous (values : List Resolved) :
    (values.map Resolved.anonymous).map s.argType = values.map s.argType := by
  rw [List.map_map]
  rfl

theorem anonymous_fallback (call : Expr) (name : String) (receiver : Option TypeId)
    (kind : DiagnosticKind) :
    anonymous (s.fallback call name receiver kind) = s.fallback call name receiver kind := by
  unfold fallback
  split
  · rfl
  · split <;> rfl

theorem anonymous_superCall (name : String) (args : ArgTypes) :
    anonymous (s.superCall name args) = s.superCall name args := by
  unfold superCall
  split <;> rfl

theorem anonymous_plainCall (call : Expr) (name : String) (args : ArgTypes) :
    anonymous (s.plainCall call name args) = s.plainCall call name args := by
  unfold plainCall
  split
  · rfl
  · dsimp only
    split
    · exact s.anonymous_fallback ..
    · rfl

theorem anonymous_typedCall (call : Expr) (name : String) (args : ArgTypes) (receiver : Resolved) :
    anonymous (s.typedCall call name args receiver) = s.typedCall call name args receiver := by
  unfold typedCall
  dsimp only
  split
  · exact s.anonymous_fallback ..
  · rfl

/-- Whether a call enters or leaves a monitor does not depend on the name of the monitor. -/
theorem anonymous_lockCall (call : Expr) (name : String) (lock : Option LockTarget) :
    anonymous (s.lockCall call name lock) =
      s.lockCall call name (lock.map LockTarget.anonymous) := by
  cases lock with
  | none =>
    unfold lockCall
    simp only [Option.map_none]
    split <;> rfl
  | some target =>
    have heffect : s.effectOn? call name target.anonymous = s.effectOn? call name target := by
      cases target <;> rfl
    unfold lockCall
    simp only [Option.map_some, heffect]
    split
    · rfl
    · split <;> rfl

theorem anonymous_callOn (call : Expr) (name : String) (receiver : Resolved)
    (args : List Resolved) :
    anonymous (s.callOn call name receiver args) =
      s.callOn call name receiver.anonymous (args.map Resolved.anonymous) := by
  have hargs := s.argTypes_anonymous args
  have htypes : receiver.anonymous.types = receiver.types := rfl
  have htyped : s.typedCall call name (args.map s.argType) receiver.anonymous =
    s.typedCall call name (args.map s.argType) receiver := rfl
  unfold callOn
  rw [hargs, htypes, htyped]
  split
  · exact s.anonymous_lockCall call name receiver.lock
  · split
    · rfl
    · show anonymous (if receiver.isUnresolved then _ else _) =
        if receiver.isUnresolved then _ else _
      split
      · exact s.anonymous_fallback ..
      · exact s.anonymous_typedCall ..

theorem anonymous_operation (kind : OperationKind) (values : List Resolved) :
    (operation kind values).anonymous = operation kind (values.map Resolved.anonymous) := by
  cases kind with
  | comparison => rfl
  | assignment =>
    simp only [operation, List.getLast?_map]
    cases values.getLast? <;> rfl
  | conditional =>
    simp only [operation, List.getElem?_map]
    cases values[1]? <;> rfl
  | arithmetic =>
    have htext : (values.map Resolved.anonymous).any
        (fun o => o.types.contains (Registry.primitive .string)) =
        values.any fun o => o.types.contains (Registry.primitive .string) := by
      rw [List.any_map]
      rfl
    simp only [operation, htext]
    split
    · rfl
    · cases values <;> rfl

theorem anonymous_index (target : Resolved) :
    (s.index target).anonymous = s.index target.anonymous := by
  have hunresolved : target.anonymous.isUnresolved = target.isUnresolved := rfl
  unfold index
  rw [hunresolved]
  split <;> rfl

section

variable {mo : MonitorOf} (hmo : ∀ guard, (mo guard).anonymous = .monitor 0 "")
  (hlocks : s.model.locks.Valid)

include hmo hlocks

theorem anonymous_own (e : Expr) (values : List Resolved) :
    anonymous (s.own mo e values) = s.own unnamed e (values.map Resolved.anonymous) := by
  have hhead : (values.headD .unknown).anonymous =
      (values.map Resolved.anonymous).headD .unknown := by
    cases values <;> rfl
  cases e with
  | ident n =>
    have hname : (s.name mo n).anonymous = s.name unnamed n := by
      unfold name
      split
      · simp [Resolved.anonymous, Resolved.holding, hmo, unnamed]
      · exact (s.declaredIn_plainName hlocks n).anonymous_eq
    exact Prod.ext hname rfl
  | super =>
    refine Prod.ext ?_ rfl
    simp only [own, anonymous]
    split <;> rfl
  | new ty args =>
    simp only [own, construct, s.argTypes_anonymous]
    rfl
  | paren inner => exact Prod.ext hhead rfl
  | index target indices =>
    refine Prod.ext ?_ rfl
    simp only [own, anonymous, ← hhead]
    exact s.anonymous_index _
  | member target n =>
    refine Prod.ext ?_ rfl
    simp only [own, anonymous, ← hhead]
    exact (s.declaredIn_member hlocks _ n).anonymous_eq
  | call n args =>
    simp only [own, s.argTypes_anonymous]
    exact s.anonymous_plainCall ..
  | callOn target n args =>
    have htail : values.tail.map Resolved.anonymous = (values.map Resolved.anonymous).tail := by
      cases values <;> rfl
    cases target with
    | super =>
      simp only [own, ← htail, s.argTypes_anonymous]
      exact s.anonymous_superCall ..
    | _ =>
      simp only [own, ← htail, ← hhead]
      exact s.anonymous_callOn ..
  | operation kind operands => exact Prod.ext (anonymous_operation kind values) rfl
  | literal _ | this | classLiteral _ | newArray _ _ | cast _ _ | other _ => rfl

/-- Leaving the names of monitors out afterwards is the same as giving them none. -/
theorem anonymous_expr (e : Expr) : anonymous (s.expr mo e) = s.expr unnamed e := by
  induction e using Expr.partsInduction with
  | step e ih =>
    have hvalues : (e.children.map fun c => (s.expr mo c).1).map Resolved.anonymous =
        e.children.map fun c => (s.expr unnamed c).1 := by
      rw [List.map_map]
      exact List.map_congr_left fun c hc => congrArg Prod.fst (ih c hc)
    have hdrafts : (e.children.map fun c => (s.expr mo c).2).map Draft.anonymous =
        e.children.map fun c => (s.expr unnamed c).2 := by
      rw [List.map_map]
      exact List.map_congr_left fun c hc => congrArg Prod.snd (ih c hc)
    have hown := s.anonymous_own hmo hlocks e (e.children.map fun c => (s.expr mo c).1)
    rw [hvalues] at hown
    rw [s.expr_eq mo, s.expr_eq unnamed, ← hown, ← hdrafts, ← Draft.anonymous_join]
    exact Prod.ext rfl (Draft.anonymous_append _ _)

end

/-- What an expression leaves is what it would leave if no guard were read, but for the names of
monitors. -/
theorem anonymous_resolve (hlocks : s.model.locks.Valid) (e : Expr) :
    anonymous (s.resolve e) = s.expr unnamed e := by
  refine s.anonymous_expr (fun guard => ?_) hlocks e
  obtain ⟨c, segment, hguard⟩ := s.monitor_eq_monitor guard
  rw [hguard]
  rfl

end Site

end Interlock.CallGraph

/-! ## Guards inside guards -/

namespace Interlock.Program.Expr

/-- A name occurs in an expression, at any depth. -/
inductive Mentions : Expr → String → Prop
  | ident (n : String) : Mentions (.ident n) n
  | part {e c : Expr} {n : String} (hc : c ∈ e.children) (h : Mentions c n) : Mentions e n

theorem length_dropStartChars? {start cs rest : List Char}
    (h : Text.dropStartChars? start cs = some rest) : rest.length ≤ cs.length := by
  induction start generalizing cs with
  | nil =>
    cases h
    exact Nat.le_refl _
  | cons p ps ih =>
    cases cs with
    | nil => cases h
    | cons c cs =>
      simp only [Text.dropStartChars?] at h
      split at h
      · exact Nat.le_succ_of_le (ih h)
      · cases h

/-- The field that stands for a monitor is longer than the guard it is named after. -/
theorem length_monitorGuard? {name guard : String} (h : monitorGuard? name = some guard) :
    guard.length < name.length := by
  obtain ⟨rest, hrest, hcut⟩ := Option.bind_eq_some_iff.mp h
  obtain ⟨⟨front, sequence⟩, hfront, hguard⟩ := Option.bind_eq_some_iff.mp hcut
  obtain rfl : front = guard := by
    dsimp only at hguard
    split at hguard
    · exact Option.some.inj hguard
    · cases hguard
  obtain ⟨cs, hcs, rfl⟩ := Option.map_eq_some_iff.mp hrest
  have hdropped := length_dropStartChars? hcs
  unfold Text.cutLast? at hfront
  dsimp only at hfront
  split at hfront
  · cases hfront
  · next separator chars hchars =>
    obtain ⟨rfl, -⟩ := Prod.mk.inj (Option.some.inj hfront)
    have hback := (List.dropWhile_suffix (· != '_')
      (l := (String.ofList cs).toList.reverse)).length_le
    rw [hchars, List.length_reverse, String.toList_ofList] at hback
    rw [String.length_ofList, List.length_reverse, ← String.length_toList]
    exact Nat.lt_of_lt_of_le hback hdropped

end Interlock.Program.Expr

namespace Interlock.CallGraph.Site

open Interlock.Program

variable (s : Site) {mo mo' : MonitorOf}

/-- Two ways to name monitors that agree on the guards inside an expression. -/
def Agree (mo mo' : MonitorOf) (e : Expr) : Prop :=
  ∀ n guard, e.Mentions n → Expr.monitorGuard? n = some guard → mo guard = mo' guard

theorem Agree.part {e c : Expr} (h : Agree mo mo' e) (hc : c ∈ e.children) : Agree mo mo' c :=
  fun n guard hn hguard => h n guard (.part hc hn) hguard

theorem expr_congr {e : Expr} (h : Agree mo mo' e) : s.expr mo e = s.expr mo' e := by
  induction e using Expr.partsInduction with
  | step e ih =>
    have hparts : e.children.map (s.expr mo) = e.children.map (s.expr mo') :=
      List.map_congr_left fun c hc => ih c hc (h.part hc)
    have hvalues := congrArg (List.map Prod.fst) hparts
    have hdrafts := congrArg (List.map Prod.snd) hparts
    simp only [List.map_map, Function.comp_def] at hvalues hdrafts
    have hown : ∀ values, s.own mo e values = s.own mo' e values := by
      intro values
      cases e with
      | ident n =>
        simp only [own, name]
        split
        · next guard hguard => rw [h n guard (.ident n) hguard]
        · rfl
      | callOn target n args => cases target <;> rfl
      | _ => rfl
    rw [expr_eq, s.expr_eq mo', hvalues, hdrafts, hown]

theorem guardMonitor?_congr {e : Expr} (h : Agree mo mo' e) :
    s.guardMonitor? mo e = s.guardMonitor? mo' e := by
  induction e using Expr.partsInduction with
  | step e ih =>
    cases e with
    | paren inner =>
      simp only [guardMonitor?]
      exact ih inner (by simp [Expr.children]) (h.part (by simp [Expr.children]))
    | cast ty inner =>
      simp only [guardMonitor?]
      exact ih inner (by simp [Expr.children]) (h.part (by simp [Expr.children]))
    | ident n =>
      simp only [guardMonitor?, valueClass?, s.expr_congr h]
    | member target n =>
      have htarget : Agree mo mo' target := h.part (by simp [Expr.children])
      simp only [guardMonitor?, valueClass?, s.expr_congr h, s.expr_congr htarget]
    | _ => rfl

/-- The expression that is read from a guard mentions only names that the guard writes. -/
def ReadsText (s : Site) : Prop :=
  ∀ guard e n, s.readGuard guard = some e → e.Mentions n → n.toList <:+: guard.toList

variable {s}

/-- Any depth beyond the length of the guard gives the same monitor. -/
theorem ReadsText.monitorAt_eq (h : s.ReadsText) {depth : Nat} {guard : String}
    (hdepth : guard.length < depth) : s.monitorAt depth guard = s.monitor guard := by
  induction hlength : guard.length using Nat.strongRecOn generalizing depth guard with
  | ind length ih =>
    subst hlength
    obtain ⟨depth, rfl⟩ := Nat.exists_eq_succ_of_ne_zero (Nat.ne_zero_of_lt hdepth)
    have hguards : ∀ e, s.readGuard guard = some e →
        Agree (s.monitorAt depth) (s.monitorAt guard.length) e := by
      intro e he n inner hn hinner
      have hname := (h guard e n he hn).length_le
      have hshorter := Expr.length_monitorGuard? hinner
      rw [String.length_toList, String.length_toList] at hname
      rw [ih inner.length (by omega) (by omega) rfl, ih inner.length (by omega) (by omega) rfl]
    rw [monitor, monitorAt, monitorAt]
    cases hread : s.readGuard guard with
    | none => rfl
    | some e =>
      simp only [Option.bind_some]
      rw [s.guardMonitor?_congr (hguards e hread)]

/-- The monitor of a guard, with the guards inside it read in the same way. -/
theorem ReadsText.monitor_eq (h : s.ReadsText) (guard : String) :
    s.monitor guard = ((s.readGuard guard).bind (s.guardMonitor? s.monitor)).elim
      (.monitor s.cls (compact guard)) fun found => .monitor found.1 found.2 := by
  rw [← h.monitorAt_eq (Nat.lt_succ_of_lt (Nat.lt_succ_self guard.length)), monitorAt]
  cases hread : s.readGuard guard with
  | none => rfl
  | some e =>
    have hagree : Agree (s.monitorAt (guard.length + 1)) s.monitor e := by
      intro n inner hn hinner
      have hname := (h guard e n hread hn).length_le
      have hshorter := Expr.length_monitorGuard? hinner
      rw [String.length_toList, String.length_toList] at hname
      exact h.monitorAt_eq (by omega)
    simp only [Option.bind_some, s.guardMonitor?_congr hagree]
    cases s.guardMonitor? s.monitor e with
    | none => rfl
    | some found => rfl

end Interlock.CallGraph.Site
