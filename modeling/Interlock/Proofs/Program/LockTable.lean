import Mathlib.Order.Defs.PartialOrder
import Interlock.Program.LockTable

/-! The locks of a table go by their positions, and a paired view leads to a lock of the table;
every declaration keeps this. Once the declarations are read the table only gains monitors, which
are unpaired, so that what a declared lock stands for never changes again. -/

namespace Interlock.Program.LockTable

variable {t t' : LockTable} {id rw view : LockId} {name : String}

/-! ## Identities -/

/-- The table has a lock of this identity. -/
def Has (t : LockTable) (id : LockId) : Prop := ∃ lock, t.get? id = some lock

theorem has_iff : t.Has id ↔ 0 < id ∧ id ≤ t.size := by
  unfold Has get? size
  cases id with
  | zero => simp
  | succ n =>
    have hlt : (∃ lock, t.locks[n]? = some lock) ↔ n < t.locks.length := by
      rw [← Option.isSome_iff_exists]
      simp
    simpa [Nat.succ_le_iff] using hlt

theorem mem_of_get? {lock : Lock} (h : t.get? id = some lock) : lock ∈ t.locks := by
  cases id with
  | zero => simp [get?] at h
  | succ n => exact List.mem_of_getElem? h

/-- Locks go by their positions, and pairing leads to locks. -/
structure Valid (t : LockTable) : Prop where
  id : ∀ {i lock}, t.locks[i]? = some lock → lock.id = i + 1
  paired : ∀ {lock rw}, lock ∈ t.locks → lock.paired = some rw → t.Has rw
  openRead : ∀ rw ∈ t.openRead, t.Has rw
  openWrite : ∀ rw ∈ t.openWrite, t.Has rw

theorem Valid.get?_id (h : t.Valid) {lock : Lock} (hget : t.get? id = some lock) :
    lock.id = id := by
  cases id with
  | zero => simp [get?] at hget
  | succ n => exact h.id hget

theorem Valid.has_of_find? (h : t.Valid) (hfind : t.find? name = some id) : t.Has id := by
  obtain ⟨lock, hlock, rfl⟩ := Option.map_eq_some_iff.mp hfind
  obtain ⟨i, hi⟩ := List.mem_iff_getElem?.mp (List.mem_of_find?_eq_some hlock)
  exact ⟨lock, by rw [h.id hi]; exact hi⟩

theorem Valid.has_canonical (h : t.Valid) (hid : t.Has id) : t.Has (t.canonical id) := by
  unfold canonical
  cases hpaired : (t.get? id).bind (·.paired) with
  | none => exact hid
  | some rw =>
    obtain ⟨lock, hget, hrw⟩ := Option.bind_eq_some_iff.mp hpaired
    cases id with
    | zero => simp [get?] at hget
    | succ n => exact h.paired (List.mem_of_getElem? hget) hrw

/-! ## Declarations -/

theorem Valid.empty : Valid {} := ⟨by simp, by simp, by simp, by simp⟩

section

variable (owner : ClassId) (name field : String) (kind : LockKind)

@[simp] theorem size_push : (t.push owner name field kind).size = t.size + 1 := by
  simp [size, push]

theorem has_push (h : t.Has id) : (t.push owner name field kind).Has id := by
  rw [has_iff] at h ⊢
  rw [size_push]
  exact ⟨h.1, Nat.le_succ_of_le h.2⟩

theorem has_nextId : (t.push owner name field kind).Has t.nextId := by
  rw [has_iff, size_push, nextId]
  exact ⟨Nat.succ_pos _, Nat.le_refl _⟩

theorem Valid.push (h : t.Valid) : (t.push owner name field kind).Valid where
  id {i lock} hget := by
    rw [LockTable.push, List.getElem?_append] at hget
    split at hget
    · exact h.id hget
    · next hi =>
      rw [List.getElem?_singleton] at hget
      split at hget
      · cases hget
        simp only [nextId, size]
        omega
      · cases hget
  paired {lock rw} hlock hrw := by
    rcases List.mem_append.mp hlock with hlock | hlock
    · exact has_push _ _ _ _ (h.paired hlock hrw)
    · cases List.mem_singleton.mp hlock
      cases hrw
  openRead rw hrw := has_push _ _ _ _ (h.openRead rw hrw)
  openWrite rw hrw := has_push _ _ _ _ (h.openWrite rw hrw)

end

@[simp] theorem size_pair : (t.pair view rw).size = t.size := by
  unfold pair size
  dsimp only
  split <;> simp

theorem has_pair (h : t.Has id) : (t.pair view rw).Has id := by
  rw [has_iff] at h ⊢
  rwa [size_pair]

theorem Valid.pair (h : t.Valid) (hrw : t.Has rw) : (t.pair view rw).Valid := by
  have hlocks : (t.pair view rw).locks =
      t.locks.map fun l => if l.id = view then { l with paired := some rw } else l := by
    unfold LockTable.pair
    dsimp only
    split <;> rfl
  have hopen : (∀ x ∈ (t.pair view rw).openRead, x ∈ t.openRead) ∧
      ∀ x ∈ (t.pair view rw).openWrite, x ∈ t.openWrite := by
    unfold LockTable.pair
    dsimp only
    split
    · exact ⟨fun x hx => (List.mem_filter.mp hx).1, fun x hx => hx⟩
    · exact ⟨fun x hx => hx, fun x hx => (List.mem_filter.mp hx).1⟩
  refine ⟨fun {i lock} hget => ?_, fun {lock x} hlock hx => ?_,
    fun x hx => has_pair (h.openRead x (hopen.1 x hx)),
    fun x hx => has_pair (h.openWrite x (hopen.2 x hx))⟩
  · rw [hlocks, List.getElem?_map] at hget
    obtain ⟨before, hbefore, rfl⟩ := Option.map_eq_some_iff.mp hget
    rw [← h.id hbefore]
    split <;> rfl
  · rw [hlocks] at hlock
    obtain ⟨before, hbefore, rfl⟩ := List.mem_map.mp hlock
    split at hx
    · cases hx
      exact has_pair hrw
    · exact has_pair (h.paired hbefore hx)

theorem Valid.addView (h : t.Valid) (d : LockDecl) (kind : LockKind) (reference : String) :
    (t.addView d kind reference).Valid := by
  have hpush := h.push d.owner d.name d.field kind
  have hwait : ∀ waiting, Valid { t.push d.owner d.name d.field kind with waiting } := fun _ =>
    ⟨hpush.id, hpush.paired, hpush.openRead, hpush.openWrite⟩
  unfold LockTable.addView
  dsimp only
  split
  · next rw hfind =>
    split
    · exact hpush.pair (hpush.has_of_find? hfind)
    · exact hwait _
  · exact hwait _

/-- A view without an initializer is paired with an open lock, or waits. -/
theorem Valid.addReadView (h : t.Valid) (d : LockDecl) : (t.addReadView d).Valid := by
  have hpush := h.push d.owner d.name d.field .readView
  unfold LockTable.addReadView
  dsimp only
  split
  · next rw _ hopen => exact hpush.pair (hpush.openRead rw (hopen ▸ List.mem_cons_self))
  · exact ⟨hpush.id, hpush.paired, hpush.openRead, hpush.openWrite⟩

theorem Valid.addWriteView (h : t.Valid) (d : LockDecl) : (t.addWriteView d).Valid := by
  have hpush := h.push d.owner d.name d.field .writeView
  unfold LockTable.addWriteView
  dsimp only
  split
  · next rw _ hopen => exact hpush.pair (hpush.openWrite rw (hopen ▸ List.mem_cons_self))
  · exact ⟨hpush.id, hpush.paired, hpush.openRead, hpush.openWrite⟩

/-- A valid table to which a read/write lock was added. -/
structure Ready (t : LockTable) (rw : LockId) : Prop where
  valid : t.Valid
  has : t.Has rw

theorem Ready.pair (h : t.Ready rw) (view : LockId) : (t.pair view rw).Ready rw :=
  ⟨h.valid.pair h.has, has_pair h.has⟩

theorem Ready.readQueue (h : t.Ready rw) :
    Ready (match t.readQueue with
      | view :: rest =>
        if t.openRead.contains rw then { t with readQueue := rest }.pair view rw else t
      | [] => t) rw := by
  split
  · next view rest _ =>
    have hrest : Ready { t with readQueue := rest } rw :=
      ⟨⟨h.valid.id, h.valid.paired, h.valid.openRead, h.valid.openWrite⟩, h.has⟩
    split
    · exact hrest.pair view
    · exact h
  · exact h

theorem Ready.writeQueue (h : t.Ready rw) :
    Ready (match t.writeQueue with
      | view :: rest =>
        if t.openWrite.contains rw then { t with writeQueue := rest }.pair view rw else t
      | [] => t) rw := by
  split
  · next view rest _ =>
    have hrest : Ready { t with writeQueue := rest } rw :=
      ⟨⟨h.valid.id, h.valid.paired, h.valid.openRead, h.valid.openWrite⟩, h.has⟩
    split
    · exact hrest.pair view
    · exact h
  · exact h

theorem Valid.addReadWrite (h : t.Valid) (d : LockDecl) : (t.addReadWrite d).Valid := by
  have hpush := h.push d.owner d.name d.field .readWrite
  have hnew : (t.push d.owner d.name d.field .readWrite).Has t.nextId := has_nextId ..
  have hopen : ∀ (queue : List LockId),
      (∀ rw ∈ queue, (t.push d.owner d.name d.field .readWrite).Has rw) →
      ∀ rw ∈ queue ++ [t.nextId], (t.push d.owner d.name d.field .readWrite).Has rw := by
    intro queue hqueue rw hrw
    rcases List.mem_append.mp hrw with hrw | hrw
    · exact hqueue rw hrw
    · exact List.mem_singleton.mp hrw ▸ hnew
  unfold LockTable.addReadWrite
  -- the views that name the lock are paired first, then the oldest ones that wait for any
  refine Ready.valid (Ready.writeQueue (Ready.readQueue ?_))
  refine List.foldlRecOn (motive := fun t' => Ready t' t.nextId) _ _ ?_
    fun t' ht' w _ => ht'.pair w.2
  exact ⟨⟨hpush.id, hpush.paired, hopen _ hpush.openRead, hopen _ hpush.openWrite⟩, hnew⟩

theorem Valid.declare (h : t.Valid) (d : LockDecl) : (t.declare d).2.Valid := by
  unfold LockTable.declare
  split
  · exact h
  · dsimp only
    split
    · exact h.addView d _ _
    · split
      · exact h.addReadWrite d
      · exact h.addReadView d
      · exact h.addWriteView d
      · exact h.push _ _ _ _

/-- Whatever is declared, the table stays valid. -/
theorem valid_foldl_declare (ds : List LockDecl) (h : t.Valid) :
    (ds.foldl (fun t d => (t.declare d).2) t).Valid :=
  List.foldlRecOn ds _ h fun _ ht d _ => ht.declare d

/-! ## Monitors -/

/-- One table is above another if it has the same locks first, and only monitors that are unpaired
after them. -/
instance : Preorder LockTable where
  le t t' := ∃ monitors, t'.locks = t.locks ++ monitors ∧
    ∀ lock ∈ monitors, lock.kind = .monitor ∧ lock.paired = none
  le_refl t := ⟨[], by simp, by simp⟩
  le_trans _ _ _ h h' := by
    obtain ⟨ms, heq, hms⟩ := h
    obtain ⟨ms', heq', hms'⟩ := h'
    refine ⟨ms ++ ms', by rw [heq', heq, List.append_assoc], fun lock hlock => ?_⟩
    rcases List.mem_append.mp hlock with hlock | hlock
    · exact hms lock hlock
    · exact hms' lock hlock

theorem le_monitor (t : LockTable) (owner : ClassId) (ownerName segment : String) :
    t ≤ (t.monitor owner ownerName segment).2 := by
  unfold monitor
  dsimp only
  split
  · exact le_refl t
  · exact ⟨_, rfl, by simp⟩

/-- A declared lock keeps its identity and all that is known about it. -/
theorem get?_mono (h : t ≤ t') {lock : Lock} (hget : t.get? id = some lock) :
    t'.get? id = some lock := by
  obtain ⟨ms, heq, -⟩ := h
  cases id with
  | zero => simp [get?] at hget
  | succ n =>
    have hlt := (List.getElem?_eq_some_iff.mp hget).1
    simpa [get?, heq, List.getElem?_append_left hlt] using hget

/-- What was added is an unpaired monitor. -/
theorem get?_added (h : t ≤ t') {lock : Lock} (hnone : t.get? id = none)
    (hget : t'.get? id = some lock) : lock.kind = .monitor ∧ lock.paired = none := by
  obtain ⟨ms, heq, hms⟩ := h
  cases id with
  | zero => simp [get?] at hget
  | succ n =>
    have hle := List.getElem?_eq_none_iff.mp hnone
    simp only [get?, heq, List.getElem?_append_right hle] at hget
    exact hms lock (List.mem_of_getElem? hget)

theorem find?_mono (h : t ≤ t') (hfind : t.find? name = some id) : t'.find? name = some id := by
  obtain ⟨ms, heq, -⟩ := h
  obtain ⟨lock, hlock, rfl⟩ := Option.map_eq_some_iff.mp hfind
  simp [find?, heq, List.find?_append, hlock]

/-- Monitors change nothing about what a lock stands for. -/
theorem canonical_mono (h : t ≤ t') (id : LockId) : t'.canonical id = t.canonical id := by
  unfold canonical
  cases hget : t.get? id with
  | some lock => rw [get?_mono h hget]
  | none =>
    cases hget' : t'.get? id with
    | none => rfl
    | some lock => simp [(get?_added h hget hget').2]

theorem find?_monitor (t : LockTable) (owner : ClassId) (ownerName segment : String) :
    (t.monitor owner ownerName segment).2.find?
      (ownerName ++ "." ++ (Expr.monitorMark ++ segment)) =
      some (t.monitor owner ownerName segment).1 := by
  unfold monitor
  dsimp only
  split
  · next id hfind => exact hfind
  · next hfind =>
    have hnone : t.locks.find? (fun l => l.name == ownerName ++ "." ++
        (Expr.monitorMark ++ segment)) = none := by simpa [find?] using hfind
    simp [find?, push, List.find?_append, hnone]

/-- A monitor that is met again, however many others were met since, is the same lock. -/
theorem monitor_again (owner : ClassId) (ownerName segment : String)
    (h : (t.monitor owner ownerName segment).2 ≤ t') :
    t'.monitor owner ownerName segment = ((t.monitor owner ownerName segment).1, t') := by
  have hfind := find?_mono h (find?_monitor t owner ownerName segment)
  rw [monitor]
  simp only [hfind]

theorem Valid.monitor (h : t.Valid) (owner : ClassId) (ownerName segment : String) :
    (t.monitor owner ownerName segment).2.Valid ∧
      (t.monitor owner ownerName segment).2.Has (t.monitor owner ownerName segment).1 := by
  unfold LockTable.monitor
  dsimp only
  split
  · next id hfind => exact ⟨h, h.has_of_find? hfind⟩
  · exact ⟨h.push .., has_nextId ..⟩

end Interlock.Program.LockTable
