import Interlock.Proofs.Program.LockBooks

/-! Declarations and the books of a lock table. A view that names its lock gets it, now or when the
lock is declared; a view that names none gets the oldest lock that lacks a view of its sort, and a
new lock gets the oldest of them that waits. -/

namespace Interlock.Program.LockTable

variable {t t' : LockTable} {free : String → Bool} {s : ViewSort}

section

variable (view rw : LockId)

theorem pair_locks : (t.pair view rw).locks = t.locks.map (Lock.give view rw) := by
  unfold pair
  dsimp only
  split <;> rfl

theorem pair_waiting : (t.pair view rw).waiting = t.waiting := by
  unfold pair
  dsimp only
  split <;> rfl

theorem pair_queue (s : ViewSort) : (t.pair view rw).queue s = t.queue s := by
  unfold pair
  dsimp only
  cases s <;> split <;> rfl

variable {view}

theorem pair_openFor (hkind : (t.get? view).map (·.kind) = some s.kind) (s' : ViewSort) :
    (t.pair view rw).openFor s' =
      if s' = s then (t.openFor s').filter (· != rw) else t.openFor s' := by
  unfold pair
  dsimp only
  rw [hkind]
  cases s <;> cases s' <;> rfl

theorem setQueue_queue (views : List LockId) (s s' : ViewSort) :
    (t.setQueue s views).queue s' = if s' = s then views else t.queue s' := by
  cases s <;> cases s' <;> rfl

theorem setQueue_openFor (views : List LockId) (s s' : ViewSort) :
    (t.setQueue s views).openFor s' = t.openFor s' := by
  cases s <;> cases s' <;> rfl

theorem setQueue_locks (views : List LockId) (s : ViewSort) :
    (t.setQueue s views).locks = t.locks := by
  cases s <;> rfl

theorem setQueue_waiting (views : List LockId) (s : ViewSort) :
    (t.setQueue s views).waiting = t.waiting := by
  cases s <;> rfl

end

theorem find?_eq_none_iff {name : String} :
    t.find? name = none ↔ name ∉ t.locks.map (·.name) := by
  simp [find?, List.find?_eq_none]

/-- A later table in which views that name their lock may have got it. -/
structure Gains (t t' : LockTable) : Prop where
  follows : t.Follows t'
  queue : ∀ s, t'.queue s = t.queue s
  openFor : ∀ s, (t'.openFor s).Sublist (t.openFor s)

theorem Gains.trans {t'' : LockTable} (h : t.Gains t') (h' : t'.Gains t'') : t.Gains t'' :=
  ⟨h.follows.trans h'.follows, fun s => (h'.queue s).trans (h.queue s),
    fun s => (h'.openFor s).trans (h.openFor s)⟩

/-- No view that names no lock waits while some lock lacks a view of its sort. -/
def Idle (t : LockTable) (s : ViewSort) : Prop := t.queue s = [] ∨ t.openFor s = []

theorem Gains.idle (h : t.Gains t') (hidle : t.Idle s) : t'.Idle s := by
  rcases hidle with hqueue | hopen
  · exact .inl ((h.queue s).trans hqueue)
  · exact .inr (List.sublist_nil.mp (hopen ▸ h.openFor s))

theorem Books.push_other (h : t.Books free) {name : String} (hname : t.find? name = none)
    (owner : ClassId) (field : String) {kind : LockKind} (hrw : kind ≠ .readWrite)
    (hother : ∀ s : ViewSort, ¬(kind = s.kind ∧ free name = true)) :
    (t.push owner name field kind).Books free ∧ t.Gains (t.push owner name field kind) := by
  have hlocks : (t.push owner name field kind).locks = t.locks ++
    [{ id := t.nextId, name, kind, owner, field }] := rfl
  refine ⟨h.add rfl rfl hlocks (find?_eq_none_iff.mp hname) (.inl rfl) (fun s => ?_) fun s => ?_,
    follows_add hlocks, fun s => ?_, fun s => ?_⟩
  · rw [if_neg (hother s), List.append_nil]
    cases s <;> rfl
  · rw [if_neg hrw, List.append_nil]
    cases s <;> rfl
  · cases s <;> rfl
  · cases s <;> exact List.Sublist.refl _

/-- A view that names its lock gets it. -/
theorem Books.pair_named (h : t.Books free) {view lock : Lock} (hview : view ∈ t.locks)
    (hkind : view.kind = s.kind) (hunpaired : view.paired = none) (hnamed : free view.name = false)
    (hout : view.id ∉ t.waiting.map (·.2)) (hlock : lock ∈ t.locks) (hrw : lock.kind = .readWrite) :
    (t.pair view.id lock.id).Books free ∧ t.Gains (t.pair view.id lock.id) := by
  have hget : (t.get? view.id).map (·.kind) = some s.kind := by rw [h.get?_id hview, ← hkind]; rfl
  have hpairs : t.Pairs (t.pair view.id lock.id) view lock := ⟨pair_locks _ _, hview, hunpaired⟩
  have hopen := pair_openFor lock.id hget
  refine ⟨hpairs.books h hkind hlock hrw ?_ ?_ (fun s' => ?_) hopen ?_, hpairs.follows h,
    pair_queue _ _, fun s' => ?_⟩
  · rw [pair_waiting]
  · rwa [pair_waiting]
  · rw [pair_queue, eq_comm, List.filter_eq_self]
    intro id hid
    rw [h.queue] at hid
    obtain ⟨w, hw, rfl⟩ := List.mem_map.mp hid
    obtain ⟨hw, -, hfree, -⟩ := mem_unmatched.mp hw
    refine bne_iff_ne.mpr fun heq => ?_
    rw [h.eq_of_id_eq hw hview heq, hnamed] at hfree
    cases hfree
  · rw [hnamed]
    exact fun hfree => Bool.noConfusion hfree
  · rw [hopen]
    split
    · exact List.filter_sublist
    · exact List.Sublist.refl _

theorem Books.wait (h : t.Books free) {view : Lock} (hview : view ∈ t.locks)
    (hkind : view.kind = s.kind) (hunpaired : view.paired = none) (hnamed : free view.name = false)
    (hout : view.id ∉ t.waiting.map (·.2)) (reference : String) :
    Books { t with waiting := t.waiting ++ [(reference, view.id)] } free := by
  refine ⟨h.ids, h.names, h.paired, fun {w} hw => ?_, ?_, h.queue, h.openFor,
    fun s => ⟨(h.fair s).views, (h.fair s).locks, (h.fair s).inOrder⟩⟩
  · rcases List.mem_append.mp hw with hw | hw
    · exact h.waiting hw
    · rw [List.mem_singleton.mp hw]
      exact ⟨view, hview, rfl, ⟨s, hkind⟩, hunpaired, hnamed⟩
  · rw [List.map_append, List.map_singleton]
    refine List.nodup_append.mpr ⟨h.waiting_nodup, by simp, fun a ha b hb heq => hout ?_⟩
    have hid : a = view.id := heq.trans (List.mem_singleton.mp hb)
    exact hid ▸ ha

theorem Books.nextId_not_waiting (h : t.Books free) : t.nextId ∉ t.waiting.map (·.2) := by
  intro hmem
  obtain ⟨w, hw, hid⟩ := List.mem_map.mp hmem
  obtain ⟨l, hl, hlid, -⟩ := h.waiting hw
  exact absurd (h.id_lt hl) (by rw [hlid, hid]; exact Nat.lt_irrefl _)

theorem mem_of_find? {name : String} {id : LockId}
    (hfind : t.find? name = some id) : ∃ l ∈ t.locks, l.id = id ∧ l.name = name := by
  obtain ⟨l, hl, rfl⟩ := Option.map_eq_some_iff.mp hfind
  exact ⟨l, List.mem_of_find?_eq_some hl, rfl, by simpa using List.find?_some hl⟩

theorem Books.addView (h : t.Books free) {d : LockDecl} (hname : t.find? d.name = none)
    (hnamed : free d.name = false) {kind : LockKind} (hkind : kind = s.kind) (reference : String) :
    (t.addView d kind reference).Books free ∧ t.Gains (t.addView d kind reference) := by
  obtain ⟨hpush, hgains⟩ := h.push_other hname d.owner d.field (hkind ▸ s.kind_ne_readWrite)
    fun s' hfree => by simp [hnamed] at hfree
  let view : Lock := { id := t.nextId, name := d.name, kind, owner := d.owner, field := d.field }
  have hview : view ∈ (t.push d.owner d.name d.field kind).locks := by simp [push, view]
  have hout := h.nextId_not_waiting
  have hwait := hpush.wait hview hkind rfl hnamed hout reference
  have hgainsWait : t.Gains { t.push d.owner d.name d.field kind with
      waiting := t.waiting ++ [(reference, t.nextId)] } :=
    ⟨hgains.follows, hgains.queue, hgains.openFor⟩
  unfold LockTable.addView
  dsimp only
  split
  · next rw hfind =>
    split
    · next hget =>
      obtain ⟨lock, hlock, rfl, -⟩ := mem_of_find? hfind
      have hrw : lock.kind = .readWrite := by simpa [hpush.get?_id hlock] using hget
      obtain ⟨hbooks, hpair⟩ := hpush.pair_named hview hkind rfl hnamed hout hlock hrw
      exact ⟨hbooks, hgains.trans hpair⟩
    · exact ⟨hwait, hgainsWait⟩
  · exact ⟨hwait, hgainsWait⟩

/-- Some of the locks, in their order: the first is the oldest. -/
theorem Books.first_le (h : t.Books free) {ls : List Lock} (hsub : ls.Sublist t.locks)
    {first : LockId} {rest : List LockId} (heq : ls.map (·.id) = first :: rest) :
    (∀ l ∈ ls, first ≤ l.id) ∧ (first :: rest).filter (· != first) = rest := by
  have hsorted : (first :: rest).Pairwise (· < ·) := heq ▸ h.ids_lt.sublist (hsub.map _)
  rw [List.pairwise_cons] at hsorted
  constructor
  · intro l hl
    rcases List.mem_cons.mp (heq ▸ List.mem_map_of_mem hl) with hid | hrest
    · exact Nat.le_of_eq hid.symm
    · exact Nat.le_of_lt (hsorted.1 _ hrest)
  · rw [List.filter_cons_of_neg (by simp), List.filter_eq_self]
    exact fun id hid => bne_iff_ne.mpr (Nat.ne_of_gt (hsorted.1 id hid))

/-- The oldest view of a sort that waits gets the oldest lock that lacks one. -/
theorem Books.pair_oldest (h : t.Books free) {view rw : LockId} {views locks : List LockId}
    (hqueue : t.queue s = view :: views) (hopen : t.openFor s = rw :: locks) :
    ((t.setQueue s views).pair view rw).Books free ∧
      t.Follows ((t.setQueue s views).pair view rw) ∧
      ∀ s', ((t.setQueue s views).pair view rw).queue s' =
          (if s' = s then views else t.queue s') ∧
        ((t.setQueue s views).pair view rw).openFor s' =
          if s' = s then locks else t.openFor s' := by
  have hviewmem : view ∈ (t.unmatched free s).map (·.id) := by
    rw [← h.queue, hqueue]
    exact List.mem_cons_self
  have hlockmem : rw ∈ (t.lacking s).map (·.id) := by
    rw [← h.openFor, hopen]
    exact List.mem_cons_self
  obtain ⟨v, hv, rfl⟩ := List.mem_map.mp hviewmem
  obtain ⟨lock, hlock, rfl⟩ := List.mem_map.mp hlockmem
  obtain ⟨hvmem, hkind, hfree, hunpaired⟩ := mem_unmatched.mp hv
  obtain ⟨hlockmem, hrw, -⟩ := mem_lacking.mp hlock
  have hget : ((t.setQueue s views).get? v.id).map (·.kind) = some s.kind := by
    have hsame : (t.setQueue s views).get? v.id = t.get? v.id := by
      cases v.id <;> simp [get?, setQueue_locks]
    rw [hsame, h.get?_id hvmem, ← hkind]
    rfl
  have hpairs : t.Pairs ((t.setQueue s views).pair v.id lock.id) v lock :=
    ⟨by rw [pair_locks, setQueue_locks], hvmem, hunpaired⟩
  have hvout : v.id ∉ t.waiting.map (·.2) := by
    intro hmem
    obtain ⟨w, hw, hid⟩ := List.mem_map.mp hmem
    obtain ⟨l, hl, hlid, -, -, hnamed⟩ := h.waiting hw
    rw [h.eq_of_id_eq hl hvmem (hlid.trans hid), hfree] at hnamed
    cases hnamed
  have hqueue' : ∀ s', ((t.setQueue s views).pair v.id lock.id).queue s' =
      if s' = s then views else t.queue s' := fun s' => by rw [pair_queue, setQueue_queue]
  have hopen' := pair_openFor lock.id hget
  obtain ⟨holdest, hviews⟩ := h.first_le List.filter_sublist ((h.queue s).symm.trans hqueue)
  obtain ⟨hfirst, hlocks⟩ := h.first_le List.filter_sublist ((h.openFor s).symm.trans hopen)
  have hgone : ∀ s', ((t.setQueue s views).pair v.id lock.id).queue s' =
      (t.queue s').filter (· != v.id) := by
    intro s'
    rw [hqueue']
    split
    · next heq => rw [heq, hqueue, hviews]
    · next hne =>
      rw [eq_comm, List.filter_eq_self]
      intro id hid
      rw [h.queue] at hid
      obtain ⟨w, hw, rfl⟩ := List.mem_map.mp hid
      obtain ⟨hw, hwkind, -⟩ := mem_unmatched.mp hw
      refine bne_iff_ne.mpr fun heq => hne ?_
      rw [← ViewSort.kind_inj, ← hwkind, h.eq_of_id_eq hw hvmem heq, hkind]
  refine ⟨hpairs.books h hkind hlockmem hrw ?_ ?_ hgone ?_ fun _ => ⟨hlock, holdest, hfirst⟩,
    hpairs.follows h,
    fun s' => ⟨hqueue' s', ?_⟩⟩
  · rw [pair_waiting, setQueue_waiting]
  · rwa [pair_waiting, setQueue_waiting]
  · intro s'
    rw [hopen', setQueue_openFor]
  · rw [hopen', setQueue_openFor]
    split
    · next heq => rw [heq, hopen, hlocks]
    · rfl

/-- The books agree with the locks, and nobody waits in vain. -/
structure Kept (t : LockTable) (free : String → Bool) : Prop where
  books : t.Books free
  idle : ∀ s, t.Idle s

theorem Kept.addFree (h : t.Kept free) {d : LockDecl} (hname : t.find? d.name = none)
    (hfree : free d.name = true) (s : ViewSort) :
    (t.addFree s d).Kept free ∧ t.Follows (t.addFree s d) := by
  let pushed := t.push d.owner d.name d.field s.kind
  let waits := pushed.setQueue s (t.queue s ++ [t.nextId])
  have hpushed : ∀ s', pushed.queue s' = t.queue s' ∧ pushed.openFor s' = t.openFor s' := fun s' => by
    cases s' <;> exact ⟨rfl, rfl⟩
  have hlocks : waits.locks = t.locks ++
      [{ id := t.nextId, name := d.name, kind := s.kind, owner := d.owner, field := d.field }] :=
    setQueue_locks _ _
  have hqueue : ∀ s', waits.queue s' = if s' = s then t.queue s ++ [t.nextId] else t.queue s' :=
    fun s' => by rw [setQueue_queue, (hpushed s').1]
  have hopen : ∀ s', waits.openFor s' = t.openFor s' := fun s' => by
    rw [setQueue_openFor, (hpushed s').2]
  have hbooks : waits.Books free := by
    refine h.books.add rfl rfl hlocks (find?_eq_none_iff.mp hname) (.inl (setQueue_waiting _ _))
      (fun s' => ?_) fun s' => ?_
    · rw [hqueue]
      by_cases heq : s' = s
      · simp [heq, hfree]
      · simp [heq, ViewSort.kind_inj, Ne.symm heq]
    · rw [hopen, if_neg s.kind_ne_readWrite, List.append_nil]
  unfold LockTable.addFree
  dsimp only
  split
  · next rw locks heq =>
    have hempty : t.queue s = [] := (h.idle s).resolve_right (by simp [heq])
    have hagain : (waits.setQueue s []).pair t.nextId rw = pushed.pair t.nextId rw := by
      have hself : waits.setQueue s [] = pushed := by
        have hnone : pushed.queue s = [] := (hpushed s).1.trans hempty
        cases s
        · exact congrArg (fun q => { pushed with readQueue := q }) hnone.symm
        · exact congrArg (fun q => { pushed with writeQueue := q }) hnone.symm
      rw [hself]
    have hwaits : waits.queue s = [t.nextId] := by
      rw [hqueue, if_pos rfl, hempty]
      rfl
    obtain ⟨hnext, hfollows, hlists⟩ := hbooks.pair_oldest hwaits ((hopen s).trans heq)
    rw [hagain] at hnext hfollows hlists
    refine ⟨⟨hnext, fun s' => ?_⟩, (follows_add hlocks).trans hfollows⟩
    unfold Idle
    rw [(hlists s').1, (hlists s').2, hqueue, hopen]
    split
    · exact .inl rfl
    · exact h.idle s'
  · next heq =>
    refine ⟨⟨hbooks, fun s' => ?_⟩, follows_add hlocks⟩
    unfold Idle
    rw [hqueue, hopen]
    split
    · next hs => exact .inr (hs ▸ heq)
    · exact h.idle s'

theorem mem_pair_of_ne {l : Lock} {view rw : LockId} (hl : l ∈ t.locks) (hne : l.id ≠ view) :
    l ∈ (t.pair view rw).locks := by
  rw [pair_locks]
  exact List.mem_map.mpr ⟨l, hl, by simp [Lock.give, hne]⟩

/-- Views that name a lock get it, one after another. -/
theorem Books.pair_all {rw : LockId} (ws : List (String × LockId)) (h : t.Books free)
    (hviews : ∀ w ∈ ws, ∃ l ∈ t.locks, l.id = w.2 ∧ (∃ s : ViewSort, l.kind = s.kind) ∧
      l.paired = none ∧ free l.name = false)
    (hnodup : (ws.map (·.2)).Nodup) (hout : ∀ w ∈ ws, w.2 ∉ t.waiting.map (·.2))
    (hlock : ∃ r ∈ t.locks, r.id = rw ∧ r.kind = .readWrite) :
    (ws.foldl (fun t w => t.pair w.2 rw) t).Books free ∧
      t.Gains (ws.foldl (fun t w => t.pair w.2 rw) t) := by
  induction ws generalizing t with
  | nil => exact ⟨h, .refl t, fun _ => rfl, fun _ => List.Sublist.refl _⟩
  | cons w ws ih =>
    rw [List.map_cons, List.nodup_cons] at hnodup
    obtain ⟨view, hview, hid, ⟨s, hkind⟩, hunpaired, hnamed⟩ := hviews w List.mem_cons_self
    obtain ⟨lock, hlock, rfl, hrw⟩ := hlock
    have hwout := hout w List.mem_cons_self
    rw [← hid] at hwout
    obtain ⟨hbooks, hgains⟩ := h.pair_named hview hkind hunpaired hnamed hwout hlock hrw
    rw [hid] at hbooks hgains
    have hviews' : ∀ x ∈ ws, ∃ l ∈ (t.pair w.2 lock.id).locks, l.id = x.2 ∧
        (∃ s : ViewSort, l.kind = s.kind) ∧ l.paired = none ∧ free l.name = false := by
      intro x hx
      obtain ⟨l, hl, hlid, hkeep⟩ := hviews x (List.mem_cons_of_mem _ hx)
      refine ⟨l, mem_pair_of_ne hl fun heq => hnodup.1 ?_, hlid, hkeep⟩
      rw [← heq, hlid]
      exact List.mem_map_of_mem hx
    have hlock' : ∃ r ∈ (t.pair w.2 lock.id).locks, r.id = lock.id ∧ r.kind = .readWrite := by
      refine ⟨lock, mem_pair_of_ne hlock fun heq => ?_, rfl, hrw⟩
      rw [h.eq_of_id_eq hlock hview (heq.trans hid.symm), hkind] at hrw
      exact s.kind_ne_readWrite hrw
    obtain ⟨hall, hgainsAll⟩ := ih hbooks hviews' hnodup.2
      (fun x hx => by rw [pair_waiting]; exact hout x (List.mem_cons_of_mem _ hx)) hlock'
    exact ⟨hall, hgains.trans hgainsAll⟩

theorem Books.takeNamed (h : t.Books free) (name : String) {rw : LockId}
    (hlock : ∃ r ∈ t.locks, r.id = rw ∧ r.kind = .readWrite) :
    (t.takeNamed name rw).Books free ∧ t.Gains (t.takeNamed name rw) := by
  let others := t.waiting.filter (!·.1 == name)
  have hothers : Books { t with waiting := others } free :=
    ⟨h.ids, h.names, h.paired, fun hw => h.waiting (List.mem_of_mem_filter hw),
      h.waiting_nodup.sublist (List.filter_sublist.map _), h.queue, h.openFor,
      fun s => ⟨(h.fair s).views, (h.fair s).locks, (h.fair s).inOrder⟩⟩
  have hout : ∀ w ∈ t.waiting.filter (·.1 == name), w.2 ∉ others.map (·.2) := by
    intro w hw hmem
    obtain ⟨w', hw', heq⟩ := List.mem_map.mp hmem
    have hsame : w' = w := List.inj_on_of_nodup_map h.waiting_nodup (List.mem_of_mem_filter hw')
      (List.mem_of_mem_filter hw) heq
    have hnot := (List.mem_filter.mp hw').2
    rw [hsame, (List.mem_filter.mp hw).2] at hnot
    cases hnot
  obtain ⟨hbooks, hgains⟩ := hothers.pair_all (t.waiting.filter (·.1 == name))
    (fun w hw => h.waiting (List.mem_of_mem_filter hw))
    (h.waiting_nodup.sublist (List.filter_sublist.map _)) hout hlock
  exact ⟨hbooks, hgains.follows, hgains.queue, hgains.openFor⟩

theorem Books.takeOldest (h : t.Books free) (rw : LockId) (s : ViewSort)
    (hready : t.queue s = [] ∨ ∀ x ∈ t.openFor s, x = rw) :
    (t.takeOldest rw s).Books free ∧ t.Follows (t.takeOldest rw s) ∧ (t.takeOldest rw s).Idle s ∧
      ∀ s', s' ≠ s → (t.takeOldest rw s).queue s' = t.queue s' ∧
        (t.takeOldest rw s).openFor s' = t.openFor s' := by
  unfold LockTable.takeOldest
  split
  · next view views hqueue =>
    have honly : ∀ x ∈ t.openFor s, x = rw := hready.resolve_left (by simp [hqueue])
    cases hopen : t.openFor s with
    | nil => exact ⟨h, .refl t, .inr hopen, fun _ _ => ⟨rfl, rfl⟩⟩
    | cons x locks =>
      rw [hopen] at honly
      obtain rfl : x = rw := honly x List.mem_cons_self
      obtain ⟨hbooks, hfollows, hlists⟩ := h.pair_oldest hqueue hopen
      have hnone : locks = [] := by
        rw [← (h.first_le List.filter_sublist ((h.openFor s).symm.trans hopen)).2,
          List.filter_eq_nil_iff]
        exact fun y hy => by simp [honly y hy]
      rw [if_pos (by simp)]
      refine ⟨hbooks, hfollows, .inr ?_, fun s' hne => ?_⟩
      · rw [(hlists s).2, if_pos rfl, hnone]
      · rw [(hlists s').1, (hlists s').2, if_neg hne, if_neg hne]
        exact ⟨rfl, rfl⟩
  · next hqueue => exact ⟨h, .refl t, .inl hqueue, fun _ _ => ⟨rfl, rfl⟩⟩

theorem Kept.addReadWrite (h : t.Kept free) {d : LockDecl} (hname : t.find? d.name = none) :
    (t.addReadWrite d).Kept free ∧ t.Follows (t.addReadWrite d) := by
  have hlocks : (t.addOpen d).locks = t.locks ++
    [{ id := t.nextId, name := d.name, kind := .readWrite, owner := d.owner, field := d.field }] := rfl
  have hopen : (t.addOpen d).Books free := by
    refine h.books.add rfl rfl hlocks (find?_eq_none_iff.mp hname) (.inl rfl) (fun s => ?_)
      fun s => ?_
    · rw [if_neg fun hk => s.kind_ne_readWrite hk.1.symm, List.append_nil]
      cases s <;> rfl
    · cases s <;> rfl
  have hnew : ∃ r ∈ (t.addOpen d).locks, r.id = t.nextId ∧ r.kind = .readWrite :=
    ⟨_, hlocks ▸ List.mem_append_right _ (List.mem_singleton_self _), rfl, rfl⟩
  obtain ⟨hnamed, hgains⟩ := hopen.takeNamed d.name hnew
  -- a view still waits for any lock only if the new one is the only lock that may lack one
  have hready : ∀ s, ((t.addOpen d).takeNamed d.name t.nextId).queue s = [] ∨
      ∀ x ∈ ((t.addOpen d).takeNamed d.name t.nextId).openFor s, x = t.nextId := by
    intro s
    have hlists : (t.addOpen d).queue s = t.queue s ∧
        (t.addOpen d).openFor s = t.openFor s ++ [t.nextId] := by cases s <;> exact ⟨rfl, rfl⟩
    rcases h.idle s with hqueue | hnone
    · exact .inl ((hgains.queue s).trans (hlists.1.trans hqueue))
    · refine .inr fun x hx => ?_
      have hx := (hgains.openFor s).subset hx
      rwa [hlists.2, hnone, List.nil_append, List.mem_singleton] at hx
  obtain ⟨hread, hfollowsRead, hidleRead, hother⟩ := hnamed.takeOldest t.nextId .read (hready _)
  have hwrite := hother .write (by simp)
  obtain ⟨hboth, hfollowsBoth, hidleWrite, hother⟩ := hread.takeOldest t.nextId .write
    (by rw [hwrite.1, hwrite.2]; exact hready .write)
  have hreadKept := hother .read (by simp)
  rw [addReadWrite_eq]
  refine ⟨⟨hboth, fun s => ?_⟩,
    (((follows_add hlocks).trans hgains.follows).trans hfollowsRead).trans hfollowsBoth⟩
  cases s with
  | write => exact hidleWrite
  | read =>
    unfold Idle
    rw [hreadKept.1, hreadKept.2]
    exact hidleRead

end Interlock.Program.LockTable
