import Interlock.Proofs.CallGraph.Build
import Interlock.Proofs.Program.GenericMembers
import Interlock.Proofs.Text.Occurrence

/-! The monitors of guarded regions. A region is entered and left by two calls that know nothing of
each other but the text of the guard. The text is read back from the name of the field in both, so
that both are about one monitor, and one monitor is one lock. -/

namespace Interlock.Program.Expr

open Interlock.Text

/-- Digits after the last separator are cut off, whatever stands before. -/
theorem cutLast?_append {front : String} {sep : Char} {back : String} (h : sep ∉ back.toList) :
    cutLast? sep (front ++ String.singleton sep ++ back) = some (front, back) := by
  have hback : ∀ c ∈ back.toList.reverse, (c != sep) = true := by
    intro c hc
    rw [bne_iff_ne]
    rintro rfl
    exact h (List.mem_reverse.mp hc)
  have htext : (front ++ String.singleton sep ++ back).toList.reverse =
      back.toList.reverse ++ (sep :: front.toList.reverse) := by simp
  rw [cutLast?, htext, List.dropWhile_append_of_pos hback, List.takeWhile_append_of_pos hback]
  simp

/-- The guard is read back from the field that stands for its monitor. -/
theorem monitorGuard?_monitorField {guard : String} (h : guard ≠ "") (n : Nat) :
    monitorGuard? (monitorField guard n) = some guard := by
  have hdrop : dropStart? monitorMark (monitorField guard n) =
      some (guard ++ String.singleton '_' ++ toString n) := by
    have htext : (monitorField guard n).toList =
        monitorMark.toList ++ (guard ++ String.singleton '_' ++ toString n).toList := by
      simp [monitorField]
    rw [dropStart?, htext, dropStartChars?_append, Option.map_some, String.ofList_toList]
  have hdigits : ∀ c ∈ (toString n).toList, c.isDigit = true := fun _ => isDigit_of_mem_toString
  have hsep : '_' ∉ (toString n).toList := fun hmem => by
    have hdigit := hdigits '_' hmem
    revert hdigit
    decide
  rw [monitorGuard?, hdrop]
  simp only [Option.bind_eq_bind, Option.bind_some, cutLast?_append hsep]
  rw [if_pos]
  rw [Bool.and_eq_true, List.all_eq_true]
  exact ⟨by simpa using h, hdigits⟩

/-- The text of the call that enters a region does not look like that of one that leaves. -/
theorem isUnlockText_monitorCall (guard : String) (n : Nat) (acquire : Bool) :
    isUnlockText (monitorCall guard n acquire).render = !acquire := by
  have hrender : (monitorCall guard n acquire).render =
      monitorField guard n ++ (if acquire then ".lock()" else ".unlock()") := by
    cases acquire <;> simp [monitorCall, render, renderAll, String.append_assoc]
  have hend : isBlank ')' = false := by decide
  rw [isUnlockText, hrender]
  cases acquire <;> simp [endsWith, dropEnd?, hend, dropStartChars?]

end Interlock.Program.Expr

namespace Interlock.CallGraph

open Interlock.Types Interlock.Types.Registry Interlock.Program

variable {units : List SourceUnit} {m : Model}

/-- The entry of a lock operation is about the lock that its target has in the end. -/
theorem exists_lock_of_target (m : Model) (target : LockTarget) (es : List DraftEntry)
    (t : LockTable) : ∃ lock, ∀ {i : Nat} {effect : LockEffect},
      es[i]? = some (.lock effect target) →
        (mapThrough (materialize m) es t).1[i]? = some (effectEntry effect lock) := by
  refine ⟨(lockOf m target (mapThrough (materialize m) es t).2).1, fun {i effect} hi => ?_⟩
  rw [(settles_materialize m).mapThrough_eq es (le_refl _), List.getElem?_map, hi, Option.map_some,
    materialize_lock]

namespace Site

variable {s : Site} {mo : MonitorOf}

/-- The field of a monitor is a lock, and nothing else is looked at. -/
theorem name_monitorField {guard : String} (hguard : guard ≠ "") (n : Nat) :
    s.name mo (Expr.monitorField guard n) =
      .holding (primitive .lock) (some (mo guard)) := by
  rw [name, Expr.monitorGuard?_monitorField hguard]

theorem expr_monitorCall (hlock : s.registry.kindOf (primitive .lock) = .lock) {guard : String}
    (hguard : guard ≠ "") {c : ClassId} {segment : String} (hmo : mo guard = .monitor c segment)
    (n : Nat) (acquire : Bool) :
    s.expr mo (Expr.monitorCall guard n acquire) = (.of (primitive .bool),
      .entry (.lock (if acquire then .acquire else .release) (.monitor c segment))) := by
  have hreceiver : (Resolved.holding (primitive .lock) (some (mo guard))).types.any s.isLock =
      true := by
    simp [Resolved.holding, isLock, hlock]
  have htext := Expr.isUnlockText_monitorCall guard n acquire
  rw [Expr.monitorCall] at htext ⊢
  simp only [expr, exprs, name_monitorField hguard, callOn, if_pos hreceiver]
  simp only [lockCall, Resolved.holding, hmo, effectOn?, htext]
  cases acquire <;> rfl

end Site

/-! ## Finished models -/

/-- The regions of a guard in a function, which share one monitor. -/
structure SharesMonitor (s : Site) (guard : String) (c : ClassId) (segment : String) : Prop where
  /-- The guard is read back from the field of every region. -/
  field : ∀ n, Expr.monitorGuard? (Expr.monitorField guard n) = some guard
  monitor : s.monitor guard = .monitor c segment
  /-- Guards inside the guard are read in the same way, as deep as they go. -/
  monitor_eq : s.ReadsText → s.monitor guard =
    ((s.readGuard guard).bind (s.guardMonitor? s.monitor)).elim
      (.monitor s.cls (Site.compact guard)) fun found => .monitor found.1 found.2
  /-- Entering a region is one entry and no diagnostic. -/
  enter : ∀ n, (s.resolve (Expr.monitorCall guard n true)).2 =
    { entries := [.lock .acquire (.monitor c segment)], diagnostics := [] }
  leave : ∀ n, (s.resolve (Expr.monitorCall guard n false)).2 =
    { entries := [.lock .release (.monitor c segment)], diagnostics := [] }
  /-- Wherever these entries stand among others and whatever the table holds, they are about one
  lock. -/
  lock : ∀ (es : List DraftEntry) (t : LockTable), ∃ lock, ∀ i : Nat,
    (es[i]? = some (.lock .acquire (.monitor c segment)) →
      (mapThrough (materialize s.model) es t).1[i]? = some (.acquire lock)) ∧
    (es[i]? = some (.lock .release (.monitor c segment)) →
      (mapThrough (materialize s.model) es t).1[i]? = some (.release lock))

/-- All regions of a function that are guarded by the same text are entered and left through the
same lock, whatever the guard means. -/
theorem exists_sharesMonitor {s : Site} (h : Model.ofUnits units = .ok s.model) {guard : String}
    (hguard : guard ≠ "") : ∃ c segment, SharesMonitor s guard c segment := by
  have hlock : s.registry.kindOf (primitive .lock) = .lock := (Model.ready_of_ofUnits h).kindOf_lock
  obtain ⟨c, segment, hmonitor⟩ := s.monitor_eq_monitor guard
  have hcall := Site.expr_monitorCall hlock hguard hmonitor
  refine ⟨c, segment, Expr.monitorGuard?_monitorField hguard, hmonitor,
    fun hreads => hreads.monitor_eq guard, fun n => congrArg Prod.snd (hcall n true),
    fun n => congrArg Prod.snd (hcall n false), fun es t => ?_⟩
  obtain ⟨lock, hlock⟩ := exists_lock_of_target s.model (.monitor c segment) es t
  exact ⟨lock, fun i => ⟨hlock, hlock⟩⟩

/-- A guard that looks like the field of a monitor itself, in the method that paints. -/
theorem shapes_sharesMonitor : ∃ s c segment, Model.ofUnits Model.shapes = .ok s.model ∧
    (∃ fn, s.model.function? 2 = some fn ∧
      s = siteOf s.model .java (fun guard => some (.ident guard)) 2 fn) ∧
    "synchLock_tile_7" ≠ "" ∧ SharesMonitor s "synchLock_tile_7" c segment := by
  obtain ⟨m, hm, -⟩ := Model.exists_shapes
  have hpaint : ((Numbered.ofUnits Model.shapes).toModel.function? 2).isSome = true := by
    decide +kernel
  obtain ⟨before, hbefore⟩ := Option.isSome_iff_exists.mp hpaint
  obtain ⟨fn, hfn, -⟩ := (Model.sameOutline_of_ofUnits hm).symm.function? hbefore
  have hguard : "synchLock_tile_7" ≠ "" := by decide
  obtain ⟨c, segment, hshares⟩ :=
    exists_sharesMonitor (s := siteOf m .java (fun guard => some (.ident guard)) 2 fn) hm hguard
  exact ⟨_, c, segment, hm, ⟨fn, hfn, rfl⟩, hguard, hshares⟩

end Interlock.CallGraph
