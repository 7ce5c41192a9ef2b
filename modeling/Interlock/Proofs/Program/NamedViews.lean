import Interlock.Proofs.Program.LockHistory

/-! Views whose initializer names a lock. Such a view waits under the name that it refers to, or it
belongs to the read/write lock of that name. Which of the two it is depends on what is declared, and
not on the order in which it is declared. -/

namespace Interlock.Program

open Interlock.Types

namespace LockDecl

variable {d : LockDecl}

/-- The declaration makes a read/write lock: its type says so, and its initializer makes no view. -/
structure MakesReadWrite (d : LockDecl) : Prop where
  noView : d.view? = none
  read : namesRead d.typeName = true
  write : namesWrite d.typeName = true

theorem makesReadWrite_iff : d.MakesReadWrite ↔ d.kind = .readWrite := by
  constructor
  · intro h
    rw [kind_of_no_view h.noView, kindByType, h.read, h.write]
  · intro h
    cases hview : d.view? with
    | some view =>
      obtain ⟨kind, reference⟩ := view
      obtain ⟨s, rfl⟩ := LockTable.view?_kind hview
      rw [kind_of_view hview] at h
      exact absurd h s.kind_ne_readWrite
    | none =>
      rw [kind_of_no_view hview, kindByType] at h
      split at h
      · next hread hwrite => exact ⟨hview, hread, hwrite⟩
      · cases h
      · cases h
      · cases h

/-- A view refers to a lock of its own class. -/
theorem view?_of_init {source : ViewSource} (hinit : d.init = some source)
    (hview : d.view?.isSome = true) :
    ∃ kind, d.view? = some (kind, d.ownerName ++ "." ++ source.reference) := by
  unfold view? at hview ⊢
  rw [hinit] at hview ⊢
  simp only [Option.bind_some] at hview ⊢
  split
  · exact ⟨_, rfl⟩
  · next hread =>
    split
    · exact ⟨_, rfl⟩
    · next hwrite => simp [hread, hwrite] at hview

end LockDecl

namespace LockTable

variable {t t' : LockTable} {free : String → Bool} {d : LockDecl} {view view' : Lock}
  {reference : String}

/-! ## Waiting and belonging -/

/-- The view waits for a lock of this name, and no read/write lock has the name. -/
structure Awaits (t : LockTable) (view : Lock) (reference : String) : Prop where
  waiting : (reference, view.id) ∈ t.waiting
  absent : ∀ lock ∈ t.locks, lock.name = reference → lock.kind ≠ .readWrite

/-- The view belongs to the read/write lock of this name. -/
def BelongsTo (t : LockTable) (view : Lock) (reference : String) : Prop :=
  ∃ lock ∈ t.locks, lock.name = reference ∧ lock.kind = .readWrite ∧ view.paired = some lock.id

theorem BelongsTo.follows (h : t.BelongsTo view reference) (hfollows : t.Follows t')
    (hview : view.Grows view') : t'.BelongsTo view' reference := by
  obtain ⟨lock, hlock, hname, hkind, hpaired⟩ := h
  obtain ⟨lock', hlock', hgrows⟩ := hfollows lock hlock
  refine ⟨lock', hlock', hgrows.name.trans hname, hgrows.kind.trans hkind, ?_⟩
  rw [hgrows.id]
  exact hview.paired hpaired

/-- A view goes on waiting unless a read/write lock of the name is made. -/
theorem Awaits.of_outlines (h : t.Awaits view reference) (hview : view.Grows view')
    {id : LockId} {name : String} {kind : LockKind}
    (houtlines : t'.locks.map Lock.outline = t.locks.map Lock.outline ++ [(id, name, kind)])
    (hother : name = reference → kind ≠ .readWrite)
    (hwaiting : (reference, view.id) ∈ t'.waiting) : t'.Awaits view' reference := by
  refine ⟨by rw [hview.id]; exact hwaiting, ?_⟩
  intro lock hlock hname
  have hmem : lock.outline ∈ t.locks.map Lock.outline ++ [(id, name, kind)] :=
    houtlines ▸ List.mem_map_of_mem hlock
  rcases List.mem_append.mp hmem with hold | hnew
  · obtain ⟨old, hold, heq⟩ := List.mem_map.mp hold
    obtain ⟨-, hsame, hkind⟩ : old.id = lock.id ∧ old.name = lock.name ∧ old.kind = lock.kind := by
      simpa [Lock.outline] using heq
    rw [← hkind]
    exact h.absent old hold (hsame.trans hname)
  · obtain ⟨-, hsame, hkind⟩ : lock.id = id ∧ lock.name = name ∧ lock.kind = kind := by
      simpa [Lock.outline] using hnew
    rw [hkind]
    exact hother (hsame.symm.trans hname)

/-! ## Who waits after a declaration -/

theorem takeOldest_waiting (rw : LockId) (s : ViewSort) :
    (t.takeOldest rw s).waiting = t.waiting := by
  unfold takeOldest
  split
  · split
    · rw [pair_waiting, setQueue_waiting]
    · rfl
  · rfl

theorem takeNamed_waiting (name : String) (rw : LockId) :
    (t.takeNamed name rw).waiting = t.waiting.filter (!·.1 == name) :=
  List.foldlRecOn
    (motive := fun t' : LockTable => t'.waiting = t.waiting.filter (!·.1 == name)) _ _ rfl
    fun _ ht' w _ => (pair_waiting w.2 rw).trans ht'

theorem addReadWrite_waiting :
    (t.addReadWrite d).waiting = t.waiting.filter (!·.1 == d.name) := by
  rw [addReadWrite_eq, takeOldest_waiting, takeOldest_waiting, takeNamed_waiting]
  rfl

theorem addFree_waiting (s : ViewSort) : (t.addFree s d).waiting = t.waiting := by
  unfold addFree
  dsimp only
  split
  · rw [pair_waiting]
    rfl
  · rw [setQueue_waiting]
    rfl

theorem mem_waiting_addView {kind : LockKind} {w : String × LockId} (hw : w ∈ t.waiting) :
    w ∈ (t.addView d kind reference).waiting := by
  unfold addView
  dsimp only
  split
  · split
    · rw [pair_waiting]
      exact hw
    · exact List.mem_append_left _ hw
  · exact List.mem_append_left _ hw

/-- Only a read/write lock of the name that is waited for ends the waiting. -/
theorem mem_waiting_declare (hfind : t.find? d.name = none) {w : String × LockId}
    (hw : w ∈ t.waiting) (hother : d.name = w.1 → d.kind ≠ .readWrite) :
    w ∈ (t.declare d).2.waiting := by
  simp only [declare, hfind]
  split
  · exact mem_waiting_addView hw
  · next hview =>
    rw [LockDecl.kind_of_no_view hview] at hother
    split
    · next hkind =>
      have hne : w.1 ≠ d.name := fun heq => hother heq.symm hkind
      rw [addReadWrite_waiting, List.mem_filter]
      exact ⟨hw, by simpa using hne⟩
    · rw [addReadView_eq, addFree_waiting]
      exact hw
    · rw [addWriteView_eq, addFree_waiting]
      exact hw
    · exact hw

/-! ## Views that get the lock they name -/

/-- The lock of an identity is paired with `rw`, if there is one. -/
def Gives (t : LockTable) (rw id : LockId) : Prop :=
  ∀ lock ∈ t.locks, lock.id = id → lock.paired = some rw

theorem gives_pair (view rw : LockId) : (t.pair view rw).Gives rw view := by
  intro lock hlock hid
  rw [pair_locks] at hlock
  obtain ⟨old, -, rfl⟩ := List.mem_map.mp hlock
  rw [Lock.give_id] at hid
  rw [Lock.give_paired, if_pos hid]

theorem Gives.pair {rw id : LockId} (h : t.Gives rw id) (view : LockId) :
    (t.pair view rw).Gives rw id := by
  intro lock hlock hid
  rw [pair_locks] at hlock
  obtain ⟨old, hold, rfl⟩ := List.mem_map.mp hlock
  rw [Lock.give_id] at hid
  rw [Lock.give_paired]
  split
  · rfl
  · exact h old hold hid

theorem Gives.takeOldest {rw id : LockId} (h : t.Gives rw id) (s : ViewSort) :
    (t.takeOldest rw s).Gives rw id := by
  unfold LockTable.takeOldest
  split
  · split
    · refine Gives.pair ?_ _
      intro lock hlock
      exact h lock (setQueue_locks _ s ▸ hlock)
    · exact h
  · exact h

/-- Every view of a list gets the lock, whatever is paired with it later. -/
theorem gives_foldl_pair {rw : LockId} (ws : List (String × LockId)) {w : String × LockId}
    (hw : w ∈ ws) : (ws.foldl (fun t w => t.pair w.2 rw) t).Gives rw w.2 := by
  induction ws generalizing t with
  | nil => exact absurd hw List.not_mem_nil
  | cons x ws ih =>
    rcases List.mem_cons.mp hw with rfl | hw
    · exact List.foldlRecOn (motive := fun t' : LockTable => t'.Gives rw w.2) ws _
        (gives_pair w.2 rw) fun _ ht' x _ => ht'.pair x.2
    · exact ih hw

theorem gives_addReadWrite {w : String × LockId} (hw : w ∈ t.waiting) (hname : w.1 = d.name) :
    (t.addReadWrite d).Gives t.nextId w.2 := by
  rw [addReadWrite_eq]
  refine ((gives_foldl_pair _ ?_).takeOldest .read).takeOldest .write
  exact List.mem_filter.mpr ⟨hw, by simpa using hname⟩

/-- A new read/write lock gets the views that wait for its name. -/
theorem gives_declare (hfind : t.find? d.name = none) (hkind : d.kind = .readWrite)
    {w : String × LockId} (hw : w ∈ t.waiting) (hname : w.1 = d.name) :
    (t.declare d).2.Gives t.nextId w.2 := by
  have hview : d.view? = none := (LockDecl.makesReadWrite_iff.mpr hkind).noView
  rw [LockDecl.kind_of_no_view hview] at hkind
  simp only [declare, hfind, hview, hkind]
  exact gives_addReadWrite hw hname

/-- A new view that names a lock belongs to it, or waits for it. -/
theorem Books.settles_addView (h : t.Books free) (hfind : t.find? d.name = none)
    (hnamed : free d.name = false) {kind : LockKind} (hkind : kind ≠ .readWrite) :
    ∃ view ∈ (t.addView d kind reference).locks, view.name = d.name ∧
      ((t.addView d kind reference).Awaits view reference ∨
        (t.addView d kind reference).BelongsTo view reference) := by
  have hpush : (t.push d.owner d.name d.field kind).Books free :=
    (h.push_other hfind d.owner d.field hkind fun s hfree => by simp [hnamed] at hfree).1
  let view : Lock := { id := t.nextId, name := d.name, kind, owner := d.owner, field := d.field }
  have hview : view ∈ (t.push d.owner d.name d.field kind).locks := by simp [push, view]
  have hmark : (reference, view.id) ∈ t.waiting ++ [(reference, t.nextId)] :=
    List.mem_append_right _ (List.mem_singleton_self _)
  unfold LockTable.addView
  dsimp only
  split
  · next rw hrw =>
    obtain ⟨lock, hlock, rfl, hname⟩ := mem_of_find? hrw
    split
    · next hget =>
      have hkindOf : lock.kind = .readWrite := by simpa [hpush.get?_id hlock] using hget
      have hgive : ∀ l ∈ (t.push d.owner d.name d.field kind).locks, l.give t.nextId lock.id ∈
          ((t.push d.owner d.name d.field kind).pair t.nextId lock.id).locks := by
        intro l hl
        rw [pair_locks]
        exact List.mem_map_of_mem hl
      refine ⟨_, hgive view hview, by simp [view], .inr ⟨_, hgive lock hlock, ?_, ?_, ?_⟩⟩
      · rw [Lock.give_name, hname]
      · rw [Lock.give_kind, hkindOf]
      · rw [Lock.give_paired, Lock.give_id, if_pos rfl]
    · next hget =>
      refine ⟨view, hview, rfl, .inl ⟨hmark, ?_⟩⟩
      intro other hother hsame
      obtain rfl : other = lock :=
        List.inj_on_of_nodup_map hpush.names hother hlock (hsame.trans hname.symm)
      intro hrw
      simp [hpush.get?_id hother, hrw] at hget
  · next hnone =>
    refine ⟨view, hview, rfl, .inl ⟨hmark, ?_⟩⟩
    intro other hother hsame
    exact absurd (hsame ▸ List.mem_map_of_mem hother) (find?_eq_none_iff.mp hnone)

/-! ## All lists of declarations -/

/-- The table after the declarations of a program, in their order. -/
def declared (decls : List LockDecl) : LockTable := after (decls.map .declare)

theorem declared_append (decls : List LockDecl) (d : LockDecl) :
    declared (decls ++ [d]) = ((declared decls).declare d).2 := by
  rw [declared, List.map_append]
  exact after_append _ _

section

variable {decls : List LockDecl}

theorem find?_declared_eq_none (hname : d.name ∉ decls.map LockDecl.name) :
    (declared decls).find? d.name = none := by
  rw [find?_eq_none_iff, declared, names_after, List.mem_eraseDups, List.map_map]
  exact hname

/-- Different names make different locks, in the order of the declarations. -/
theorem outlines_declared (hnames : (decls.map LockDecl.name).Nodup) :
    (declared decls).locks.map (fun lock => (lock.name, lock.kind)) =
      decls.map fun d => (d.name, d.kind) := by
  induction decls using List.reverseRecOn with
  | nil => rfl
  | append_singleton decls d ih =>
    rw [List.map_append, List.nodup_append] at hnames
    obtain ⟨hnodup, -, hne⟩ := hnames
    have hnew : d.name ∉ decls.map LockDecl.name := by
      intro hmem
      exact hne d.name hmem d.name (List.mem_singleton_self _) rfl
    have happly := congrArg (List.map Prod.snd)
      (outlines_apply (declared decls) (.declare d) (find?_declared_eq_none hnew))
    rw [List.map_append, List.map_map, List.map_map] at happly
    rw [declared_append, List.map_append, ← ih hnodup]
    exact happly

theorem exists_readWrite_iff (hnames : (decls.map LockDecl.name).Nodup) :
    (∃ lock ∈ (declared decls).locks, lock.name = reference ∧ lock.kind = .readWrite) ↔
      ∃ rw ∈ decls, rw.name = reference ∧ rw.MakesReadWrite := by
  have hmem : (reference, LockKind.readWrite) ∈ (declared decls).locks.map
      (fun lock => (lock.name, lock.kind)) ↔
        (reference, LockKind.readWrite) ∈ decls.map fun d => (d.name, d.kind) := by
    rw [outlines_declared hnames]
  simpa [LockDecl.makesReadWrite_iff] using hmem

/-- The name of a new declaration says whether it names a lock, and what was known stays so. -/
theorem grows_declared (hnew : d.name ∉ decls.map LockDecl.name) :
    (∃ free, (declared decls).Books free ∧ free d.name = d.view?.isNone) ∧
      (declared decls).Follows (declared (decls ++ [d])) := by
  have hname : (Request.declare d).name ∉ (decls.map Request.declare).map Request.name := by
    rw [List.map_map]
    exact hnew
  refine ⟨⟨_, (kept_after (decls.map .declare) [.declare d]).books, isFree_of_new hname []⟩, ?_⟩
  rw [declared, declared, List.map_append]
  exact follows_after _ _

/-- One more declaration: a view that is there goes on waiting, or belongs to the new lock. -/
theorem settled_declare (hnew : d.name ∉ decls.map LockDecl.name)
    (hview : view ∈ (declared decls).locks)
    (h : (declared decls).Awaits view reference ∨ (declared decls).BelongsTo view reference) :
    ∃ view' ∈ (declared (decls ++ [d])).locks, view'.name = view.name ∧
      ((declared (decls ++ [d])).Awaits view' reference ∨
        (declared (decls ++ [d])).BelongsTo view' reference) := by
  obtain ⟨-, hfollows⟩ := grows_declared hnew
  have hfind := find?_declared_eq_none hnew
  obtain ⟨view', hview', hgrows⟩ := hfollows view hview
  refine ⟨view', hview', hgrows.name, ?_⟩
  have houtlines : (declared (decls ++ [d])).locks.map Lock.outline =
      (declared decls).locks.map Lock.outline ++ [((declared decls).nextId, d.name, d.kind)] := by
    rw [declared_append]
    exact outlines_apply _ (.declare d) hfind
  rcases h with hwaits | hbelongs
  · by_cases hlock : d.name = reference ∧ d.kind = .readWrite
    · obtain ⟨rfl, hkind⟩ := hlock
      right
      have hmem : ((declared decls).nextId, d.name, d.kind) ∈
          (declared (decls ++ [d])).locks.map Lock.outline :=
        houtlines ▸ List.mem_append_right _ (List.mem_singleton_self _)
      obtain ⟨lock, hlock, houtline⟩ := List.mem_map.mp hmem
      obtain ⟨hid, hname, hsame⟩ : lock.id = (declared decls).nextId ∧ lock.name = d.name ∧
          lock.kind = d.kind := by
        simpa [Lock.outline] using houtline
      have hgives := gives_declare hfind hkind hwaits.waiting rfl
      rw [← declared_append] at hgives
      refine ⟨lock, hlock, hname, hsame.trans hkind, ?_⟩
      rw [hid]
      exact hgives view' hview' hgrows.id
    · left
      have hother : d.name = reference → d.kind ≠ .readWrite :=
        fun hname hkind => hlock ⟨hname, hkind⟩
      refine hwaits.of_outlines hgrows houtlines hother ?_
      rw [declared_append]
      exact mem_waiting_declare hfind hwaits.waiting hother
  · exact .inr (hbelongs.follows hfollows hgrows)

/-- The view of a declaration belongs to the lock that it names, or waits for it. -/
theorem exists_settled (hnames : (decls.map LockDecl.name).Nodup) (hd : d ∈ decls)
    {kind : LockKind} (hview : d.view? = some (kind, reference)) :
    ∃ view ∈ (declared decls).locks, view.name = d.name ∧
      ((declared decls).Awaits view reference ∨ (declared decls).BelongsTo view reference) := by
  induction decls using List.reverseRecOn with
  | nil => exact absurd hd List.not_mem_nil
  | append_singleton decls last ih =>
    rw [List.map_append, List.nodup_append] at hnames
    obtain ⟨hnodup, -, hne⟩ := hnames
    have hnew : last.name ∉ decls.map LockDecl.name := by
      intro hmem
      exact hne last.name hmem last.name (List.mem_singleton_self _) rfl
    rcases List.mem_append.mp hd with hd | hd
    · obtain ⟨view, hmem, hname, hsettled⟩ := ih hnodup hd
      obtain ⟨view', hmem', hname', hsettled'⟩ := settled_declare hnew hmem hsettled
      exact ⟨view', hmem', hname'.trans hname, hsettled'⟩
    · obtain rfl := List.mem_singleton.mp hd
      obtain ⟨⟨free, hbooks, hfree⟩, -⟩ := grows_declared hnew
      have hfind := find?_declared_eq_none hnew
      obtain ⟨s, rfl⟩ := view?_kind hview
      have hnamed : free d.name = false := by rw [hfree, hview]; rfl
      rw [declared_append]
      simp only [declare, hfind, hview]
      exact hbooks.settles_addView hfind hnamed s.kind_ne_readWrite

/-- What a view that names a lock is paired with, and what it stands for in reports. -/
theorem exists_view_declared (hnames : (decls.map LockDecl.name).Nodup) (hd : d ∈ decls)
    {kind : LockKind} (hview : d.view? = some (kind, reference)) :
    ∃ view, (declared decls).find? d.name = some view.id ∧
      (declared decls).get? view.id = some view ∧
      (view.paired ≠ none ↔ ∃ rw ∈ decls, rw.name = reference ∧ rw.MakesReadWrite) ∧
      (∀ rw, view.paired = some rw → (declared decls).find? reference = some rw) ∧
      (declared decls).nameOf? view.id =
        some (if view.paired = none then d.name else reference) := by
  have hbooks := (kept_after (decls.map .declare) []).books
  obtain ⟨view, hmem, hname, hsettled⟩ := exists_settled hnames hd hview
  have hget : (declared decls).get? view.id = some view := hbooks.get?_id hmem
  have hfind : (declared decls).find? d.name = some view.id :=
    hbooks.find?_eq_some_iff.mpr ⟨view, hget, hname⟩
  refine ⟨view, hfind, hget, ?_⟩
  rw [← exists_readWrite_iff hnames, nameOf?, canonical, hget]
  rcases hsettled with hwaits | ⟨lock, hlock, hlockName, hkind, hpaired⟩
  · have hnone : view.paired = none := by
      obtain ⟨waiting, hwaiting, hid, -, hnone, -⟩ := hbooks.waiting hwaits.waiting
      rw [← hbooks.eq_of_id_eq hwaiting hmem hid, hnone]
    refine ⟨⟨fun h => absurd hnone h, ?_⟩, ?_, ?_⟩
    · rintro ⟨lock, hlock, hlockName, hkind⟩
      exact absurd hkind (hwaits.absent lock hlock hlockName)
    · intro rw hrw
      rw [hnone] at hrw
      cases hrw
    · rw [Option.bind_some, hnone, Option.getD_none, hget, if_pos rfl, Option.map_some, hname]
  · have hgetLock : (declared decls).get? lock.id = some lock := hbooks.get?_id hlock
    refine ⟨⟨fun _ => ⟨lock, hlock, hlockName, hkind⟩, fun _ => by simp [hpaired]⟩, ?_, ?_⟩
    · intro rw hrw
      rw [hpaired] at hrw
      obtain rfl := Option.some.inj hrw
      exact hbooks.find?_eq_some_iff.mpr ⟨lock, hgetLock, hlockName⟩
    · rw [Option.bind_some, hpaired, Option.getD_some, hgetLock, if_neg (by simp),
        Option.map_some, hlockName]

end

/-- Views that name a lock pair in whatever order everything is declared, with views that name none
and other locks in between: such a view is paired if and only if one of the declarations makes a
read/write lock of the name that it refers to, and then with the lock of that name. What it stands
for in reports is the same for all orders. -/
theorem namedViews_any_order {decls order : List LockDecl}
    (hnames : (decls.map LockDecl.name).Nodup) (horder : order.Perm decls) {d : LockDecl}
    (hd : d ∈ decls) {source : ViewSource} (hinit : d.init = some source)
    (hview : d.view?.isSome = true) :
    let reference := d.ownerName ++ "." ++ source.reference
    (∃ view, (declared order).find? d.name = some view.id ∧
      (declared order).get? view.id = some view ∧
      (view.paired ≠ none ↔ ∃ rw ∈ decls, rw.name = reference ∧ rw.MakesReadWrite) ∧
      ∀ rw, view.paired = some rw → (declared order).find? reference = some rw) ∧
    ((declared order).find? d.name).bind (declared order).nameOf? =
      ((declared decls).find? d.name).bind (declared decls).nameOf? := by
  intro reference
  obtain ⟨kind, hnamed⟩ := LockDecl.view?_of_init hinit hview
  have hmem : (∃ rw ∈ order, rw.name = reference ∧ rw.MakesReadWrite) ↔
      ∃ rw ∈ decls, rw.name = reference ∧ rw.MakesReadWrite := by
    simp only [horder.mem_iff]
  obtain ⟨view, hfind, hget, hpaired, hlock, hstands⟩ :=
    exists_view_declared ((horder.map _).nodup_iff.mpr hnames) (horder.mem_iff.mpr hd) hnamed
  obtain ⟨view', hfind', hget', hpaired', hlock', hstands'⟩ :=
    exists_view_declared hnames hd hnamed
  have halike : view.paired = none ↔ view'.paired = none :=
    not_iff_not.mp (hpaired.trans (hmem.trans hpaired'.symm))
  refine ⟨⟨view, hfind, hget, hpaired.trans hmem, hlock⟩, ?_⟩
  rw [hfind, hfind', Option.bind_some, Option.bind_some, hstands, hstands']
  simp only [halike]

def cacheLock (field typeName : String) (init : Option ViewSource) : LockDecl :=
  { owner := 0, ownerName := "Cache", field, typeName, init }

def cacheReader : LockDecl := cacheLock "reader" "Lock" (some ⟨"rw", "readLock"⟩)

/-- A view before its lock, one after it, one that names none, and one that names a lock which is no
read/write lock. -/
def cacheLocks : List LockDecl :=
  [cacheReader, cacheLock "spare" "ReadLock" none, cacheLock "plain" "ReentrantLock" none,
    cacheLock "rw" "ReentrantReadWriteLock" none,
    cacheLock "writer" "Lock" (some ⟨"rw", "writeLock"⟩),
    cacheLock "lost" "Lock" (some ⟨"plain", "readLock"⟩)]

theorem cacheLocks_any_order :
    (cacheLocks.map LockDecl.name).Nodup ∧ cacheLocks.reverse.Perm cacheLocks ∧
    cacheReader ∈ cacheLocks ∧ cacheReader.view?.isSome = true ∧
    (∃ view : Lock, (declared cacheLocks.reverse).find? "Cache.reader" = some view.id ∧
      view.paired ≠ none ∧
      ∀ rw, view.paired = some rw → (declared cacheLocks.reverse).find? "Cache.rw" = some rw) ∧
    ((declared cacheLocks.reverse).find? "Cache.reader").bind
        (declared cacheLocks.reverse).nameOf? =
      ((declared cacheLocks).find? "Cache.reader").bind (declared cacheLocks).nameOf? := by
  have hnames : (cacheLocks.map LockDecl.name).Nodup := by decide +kernel
  have horder : cacheLocks.reverse.Perm cacheLocks := List.reverse_perm _
  have hreader : cacheReader ∈ cacheLocks := List.mem_cons_self
  have hview : cacheReader.view?.isSome = true := by decide +kernel
  have hlock : ∃ rw ∈ cacheLocks, rw.name = "Cache.rw" ∧ rw.MakesReadWrite :=
    ⟨cacheLock "rw" "ReentrantReadWriteLock" none, by simp [cacheLocks], by decide +kernel,
      rfl, by decide +kernel, by decide +kernel⟩
  obtain ⟨⟨view, hfind, -, hpaired, hrw⟩, hstands⟩ :=
    namedViews_any_order hnames horder hreader rfl hview
  exact ⟨hnames, horder, hreader, hview, ⟨view, hfind, hpaired.mpr hlock, hrw⟩, hstands⟩

end LockTable

end Interlock.Program
