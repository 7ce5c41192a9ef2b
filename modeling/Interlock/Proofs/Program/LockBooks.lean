import Mathlib.Data.List.Nodup
import Interlock.Proofs.Program.LockTable

/-! The books of a lock table.

The table keeps lists of who waits for a named lock, who waits for any lock, and which locks lack a
view of a sort. Here they are compared with what they stand for, and it is shown how the books
follow a new lock and a new pairing. -/

namespace Interlock.Program

/-- The two sorts of views of a read/write lock. -/
inductive ViewSort where
  | read
  | write
  deriving DecidableEq

def ViewSort.kind : ViewSort → LockKind
  | read => .readView
  | write => .writeView

theorem ViewSort.kind_inj {s s' : ViewSort} : s.kind = s'.kind ↔ s = s' := by
  cases s <;> cases s' <;> simp [kind]

theorem ViewSort.kind_ne_readWrite (s : ViewSort) : s.kind ≠ .readWrite := by
  cases s <;> simp [kind]

/-- A lock later in a history: only a missing pairing may have been added. -/
structure Lock.Grows (l l' : Lock) : Prop where
  id : l'.id = l.id
  name : l'.name = l.name
  kind : l'.kind = l.kind
  owner : l'.owner = l.owner
  field : l'.field = l.field
  paired : ∀ {rw}, l.paired = some rw → l'.paired = some rw

theorem Lock.Grows.refl (l : Lock) : l.Grows l := ⟨rfl, rfl, rfl, rfl, rfl, fun h => h⟩

theorem Lock.Grows.trans {l l' l'' : Lock} (h : l.Grows l') (h' : l'.Grows l'') : l.Grows l'' :=
  ⟨h'.id.trans h.id, h'.name.trans h.name, h'.kind.trans h.kind, h'.owner.trans h.owner,
    h'.field.trans h.field, fun hp => h'.paired (h.paired hp)⟩

/-- The lock after a view of the given identity got its read/write lock. -/
def Lock.give (view rw : LockId) (l : Lock) : Lock :=
  if l.id = view then { l with paired := some rw } else l

section

variable (view rw : LockId) (l : Lock)

@[simp] theorem Lock.give_id : (l.give view rw).id = l.id := by unfold give; split <;> rfl

@[simp] theorem Lock.give_name : (l.give view rw).name = l.name := by unfold give; split <;> rfl

@[simp] theorem Lock.give_kind : (l.give view rw).kind = l.kind := by unfold give; split <;> rfl

theorem Lock.give_paired :
    (l.give view rw).paired = if l.id = view then some rw else l.paired := by
  unfold give; split <;> rfl

/-- What a pairing leaves as it is. -/
def Lock.outline (l : Lock) : LockId × String × LockKind := (l.id, l.name, l.kind)

@[simp] theorem Lock.give_outline : (l.give view rw).outline = l.outline := by
  simp [outline]

end

namespace LockTable

/-! ## The books by sort -/

/-- The views of a sort that wait for any lock. -/
def queue (t : LockTable) : ViewSort → List LockId
  | .read => t.readQueue
  | .write => t.writeQueue

/-- The locks that are noted to lack a view of a sort. -/
def openFor (t : LockTable) : ViewSort → List LockId
  | .read => t.openRead
  | .write => t.openWrite

def setQueue (t : LockTable) : ViewSort → List LockId → LockTable
  | .read, views => { t with readQueue := views }
  | .write, views => { t with writeQueue := views }

/-- Adds a view that names no lock. -/
def addFree (t : LockTable) (s : ViewSort) (d : LockDecl) : LockTable :=
  let pushed := t.push d.owner d.name d.field s.kind
  match t.openFor s with
  | rw :: _ => pushed.pair t.nextId rw
  | [] => pushed.setQueue s (t.queue s ++ [t.nextId])

theorem addReadView_eq (t : LockTable) (d : LockDecl) : t.addReadView d = t.addFree .read d := rfl

theorem addWriteView_eq (t : LockTable) (d : LockDecl) : t.addWriteView d = t.addFree .write d :=
  rfl

/-- Gives a lock the oldest view of a sort that waits for any, if it lacks one. -/
def takeOldest (t : LockTable) (rw : LockId) (s : ViewSort) : LockTable :=
  match t.queue s with
  | view :: rest => if (t.openFor s).contains rw then (t.setQueue s rest).pair view rw else t
  | [] => t

/-- A new read/write lock, before it gets any view. -/
def addOpen (t : LockTable) (d : LockDecl) : LockTable :=
  { t.push d.owner d.name d.field .readWrite with
    openRead := t.openRead ++ [t.nextId]
    openWrite := t.openWrite ++ [t.nextId] }

/-- Gives a lock the views that wait for its name. -/
def takeNamed (t : LockTable) (name : String) (rw : LockId) : LockTable :=
  (t.waiting.filter (·.1 == name)).foldl (fun t w => t.pair w.2 rw)
    { t with waiting := t.waiting.filter (!·.1 == name) }

theorem addReadWrite_eq (t : LockTable) (d : LockDecl) :
    t.addReadWrite d =
      (((t.addOpen d).takeNamed d.name t.nextId).takeOldest t.nextId .read).takeOldest t.nextId
        .write := by
  simp only [addReadWrite, List.partition_eq_filter_filter, Function.comp_def]
  rfl

/-! ## What the books stand for -/

/-- Some view of the sort belongs to the lock. -/
def served (t : LockTable) (s : ViewSort) (rw : LockId) : Bool :=
  t.locks.any fun l => l.kind == s.kind && l.paired == some rw

/-- The read/write locks that no view of the sort belongs to, the oldest first. -/
def lacking (t : LockTable) (s : ViewSort) : List Lock :=
  t.locks.filter fun l => l.kind == .readWrite && !t.served s l.id

/-- The views of a sort that name no lock and belong to none, the oldest first. -/
def unmatched (t : LockTable) (free : String → Bool) (s : ViewSort) : List Lock :=
  t.locks.filter fun l => l.kind == s.kind && free l.name && l.paired.isNone

/-- Views that name no lock are matched with locks first come, first served. -/
structure Fair (t : LockTable) (free : String → Bool) (s : ViewSort) : Prop where
  /-- No view is passed over by a younger one. -/
  views : ∀ {v w}, v ∈ t.unmatched free s → w ∈ t.locks → w.kind = s.kind → free w.name = true →
    w.paired ≠ none → w.id < v.id
  /-- No lock is passed over by a younger one. -/
  locks : ∀ {rw w r}, rw ∈ t.lacking s → w ∈ t.locks → w.kind = s.kind → free w.name = true →
    w.paired = some r → r < rw.id
  /-- The older of two views has the older lock. -/
  inOrder : ∀ {v w r r'}, v ∈ t.locks → w ∈ t.locks → v.kind = s.kind → w.kind = s.kind →
    free v.name = true → free w.name = true → v.paired = some r → w.paired = some r' →
    v.id < w.id → r < r'

/-- The books agree with the locks. The views for which `free` holds are those that name no lock. -/
structure Books (t : LockTable) (free : String → Bool) : Prop where
  ids : t.locks.map (·.id) = List.range' 1 t.size
  names : (t.locks.map (·.name)).Nodup
  /-- Only views are paired, and only with read/write locks. -/
  paired : ∀ {l rw}, l ∈ t.locks → l.paired = some rw →
    (∃ s : ViewSort, l.kind = s.kind) ∧ ∃ r ∈ t.locks, r.id = rw ∧ r.kind = .readWrite
  waiting : ∀ {w}, w ∈ t.waiting → ∃ l ∈ t.locks, l.id = w.2 ∧
    (∃ s : ViewSort, l.kind = s.kind) ∧ l.paired = none ∧ free l.name = false
  waiting_nodup : (t.waiting.map (·.2)).Nodup
  queue : ∀ s, t.queue s = (t.unmatched free s).map (·.id)
  openFor : ∀ s, t.openFor s = (t.lacking s).map (·.id)
  fair : ∀ s, t.Fair free s

variable {t t' : LockTable} {free : String → Bool} {s : ViewSort}

theorem served_iff {rw : LockId} :
    t.served s rw = true ↔ ∃ l ∈ t.locks, l.kind = s.kind ∧ l.paired = some rw := by
  simp [served]

theorem mem_lacking {l : Lock} :
    l ∈ t.lacking s ↔ l ∈ t.locks ∧ l.kind = .readWrite ∧ t.served s l.id = false := by
  simp [lacking]

theorem mem_unmatched {l : Lock} :
    l ∈ t.unmatched free s ↔
      l ∈ t.locks ∧ l.kind = s.kind ∧ free l.name = true ∧ l.paired = none := by
  simp [unmatched, and_assoc]

namespace Books

variable (h : t.Books free)

include h

theorem ids_lt : (t.locks.map (·.id)).Pairwise (· < ·) := by
  rw [h.ids]
  exact List.pairwise_lt_range'

theorem eq_of_id_eq {l l' : Lock} (hl : l ∈ t.locks) (hl' : l' ∈ t.locks) (heq : l.id = l'.id) :
    l = l' :=
  List.inj_on_of_nodup_map (h.ids_lt.imp Nat.ne_of_lt) hl hl' heq

theorem id_lt {l : Lock} (hl : l ∈ t.locks) : l.id < t.nextId := by
  have hid : l.id ∈ List.range' 1 t.size := h.ids ▸ List.mem_map_of_mem hl
  rw [List.mem_range'_1, Nat.add_comm] at hid
  exact hid.2

theorem id_eq {i : Nat} {l : Lock} (hi : t.locks[i]? = some l) : l.id = i + 1 := by
  have hmap : (t.locks.map (·.id))[i]? = some l.id := by simp [hi]
  have hlt : i < t.size := (List.getElem?_eq_some_iff.mp hi).1
  rw [h.ids, List.getElem?_range' hlt, Nat.one_mul, Nat.add_comm] at hmap
  exact (Option.some.inj hmap).symm

theorem get?_eq_some_iff {id : LockId} {l : Lock} :
    t.get? id = some l ↔ l ∈ t.locks ∧ l.id = id := by
  constructor
  · intro hget
    cases id with
    | zero => simp [get?] at hget
    | succ n => exact ⟨List.mem_of_getElem? hget, h.id_eq hget⟩
  · rintro ⟨hmem, rfl⟩
    obtain ⟨i, hi⟩ := List.mem_iff_getElem?.mp hmem
    rw [h.id_eq hi]
    exact hi

theorem get?_id {l : Lock} (hl : l ∈ t.locks) : t.get? l.id = some l :=
  h.get?_eq_some_iff.mpr ⟨hl, rfl⟩

end Books

/-- Every lock of a table is still there in the other, with what was known about it. -/
def Follows (t t' : LockTable) : Prop := ∀ l ∈ t.locks, ∃ l' ∈ t'.locks, l.Grows l'

theorem Follows.refl (t : LockTable) : t.Follows t := fun l hl => ⟨l, hl, .refl l⟩

theorem Follows.trans {t'' : LockTable} (h : t.Follows t') (h' : t'.Follows t'') :
    t.Follows t'' := by
  intro l hl
  obtain ⟨l', hl', hgrows⟩ := h l hl
  obtain ⟨l'', hl'', hgrows'⟩ := h' l' hl'
  exact ⟨l'', hl'', hgrows.trans hgrows'⟩

/-! ## A new lock -/

section Add

variable {l : Lock} (hid : l.id = t.nextId) (hpaired : l.paired = none)
  (hlocks : t'.locks = t.locks ++ [l])

include hpaired hlocks

theorem served_add (rw : LockId) : t'.served s rw = t.served s rw := by
  simp [served, hlocks, hpaired]

theorem unmatched_add (s : ViewSort) : t'.unmatched free s =
    t.unmatched free s ++ if l.kind = s.kind ∧ free l.name = true then [l] else [] := by
  simp only [unmatched, hlocks, List.filter_append, List.filter_singleton, hpaired]
  congr 1
  by_cases hk : l.kind = s.kind <;> by_cases hf : free l.name = true <;>
    simp [hk, hf, beq_eq_false_iff_ne.mpr]

include hid

theorem Books.lacking_add (h : t.Books free) (s : ViewSort) :
    t'.lacking s = t.lacking s ++ if l.kind = .readWrite then [l] else [] := by
  have hnew : t.served s l.id = false := by
    refine Bool.eq_false_iff.mpr fun hserved => ?_
    obtain ⟨w, hw, -, hwp⟩ := served_iff.mp hserved
    obtain ⟨-, r, hr, hrid, -⟩ := h.paired hw hwp
    exact absurd (h.id_lt hr) (by rw [hrid, hid]; exact Nat.lt_irrefl _)
  simp only [lacking, served_add hpaired hlocks, hlocks, List.filter_append, List.filter_singleton,
    hnew]
  congr 1
  by_cases hk : l.kind = .readWrite <;> simp [hk, beq_eq_false_iff_ne.mpr]

/-- A new lock is entered into the books: a view that names no lock into the queue of its sort, a
read/write lock among those that lack views. -/
theorem Books.add (h : t.Books free) (hname : l.name ∉ t.locks.map (·.name))
    (hwaiting : t'.waiting = t.waiting ∨ ∃ reference, t'.waiting = t.waiting ++ [(reference, l.id)] ∧
      (∃ s : ViewSort, l.kind = s.kind) ∧ free l.name = false)
    (hqueue : ∀ s, t'.queue s =
      t.queue s ++ if l.kind = s.kind ∧ free l.name = true then [l.id] else [])
    (hopen : ∀ s, t'.openFor s = t.openFor s ++ if l.kind = .readWrite then [l.id] else []) :
    t'.Books free := by
  have hmem : ∀ {w : Lock}, w ∈ t'.locks ↔ w ∈ t.locks ∨ w = l := by simp [hlocks]
  have hold : ∀ {w : Lock}, w ∈ t'.locks → w.paired ≠ none → w ∈ t.locks := by
    intro w hw hwp
    exact (hmem.mp hw).resolve_right fun heq => hwp (heq ▸ hpaired)
  refine ⟨?_, ?_, fun {w rw} hw hwp => ?_, fun {w} hw => ?_, ?_, fun s => ?_, fun s => ?_,
    fun s => ⟨fun {v w} hv hw hkind hfree hwp => ?_, fun {rw w r} hrw hw hkind hfree hwp => ?_,
      fun {v w r r'} hv hw hvk hwk hvf hwf hvp hwp hlt => ?_⟩⟩
  · rw [size, hlocks, List.map_append, h.ids, List.length_append, List.map_singleton, hid,
      List.length_singleton, List.range'_1_concat, nextId, Nat.add_comm 1]
    rfl
  · rw [hlocks, List.map_append, List.map_singleton]
    exact List.nodup_append.mpr ⟨h.names, by simp, fun a ha b hb heq =>
      hname (by rw [← List.mem_singleton.mp hb, ← heq]; exact ha)⟩
  · obtain ⟨hkind, r, hr, hrw⟩ := h.paired (hold hw (by simp [hwp])) hwp
    exact ⟨hkind, r, hmem.mpr (.inl hr), hrw⟩
  · rcases hwaiting with hwaiting | ⟨reference, hwaiting, hkind, hfree⟩
    · obtain ⟨x, hx, hrest⟩ := h.waiting (hwaiting ▸ hw)
      exact ⟨x, hmem.mpr (.inl hx), hrest⟩
    · rw [hwaiting, List.mem_append, List.mem_singleton] at hw
      rcases hw with hw | rfl
      · obtain ⟨x, hx, hrest⟩ := h.waiting hw
        exact ⟨x, hmem.mpr (.inl hx), hrest⟩
      · exact ⟨l, hmem.mpr (.inr rfl), rfl, hkind, hpaired, hfree⟩
  · rcases hwaiting with hwaiting | ⟨reference, hwaiting, -⟩
    · exact hwaiting ▸ h.waiting_nodup
    · rw [hwaiting, List.map_append, List.map_singleton]
      refine List.nodup_append.mpr ⟨h.waiting_nodup, by simp, fun a ha b hb heq => ?_⟩
      obtain ⟨w, hw, rfl⟩ := List.mem_map.mp ha
      obtain ⟨x, hx, hxid, -⟩ := h.waiting hw
      refine absurd (h.id_lt hx) ?_
      rw [hxid, heq, List.mem_singleton.mp hb, hid]
      exact Nat.lt_irrefl _
  · rw [hqueue, h.queue, unmatched_add hpaired hlocks, List.map_append]
    split <;> rfl
  · rw [hopen, h.openFor, h.lacking_add hid hpaired hlocks, List.map_append]
    split <;> rfl
  · have hwold := hold hw hwp
    rw [mem_unmatched] at hv
    rcases hmem.mp hv.1 with hvold | rfl
    · exact (h.fair s).views (mem_unmatched.mpr ⟨hvold, hv.2⟩) hwold hkind hfree hwp
    · exact hid ▸ h.id_lt hwold
  · have hwold := hold hw (by simp [hwp])
    rw [mem_lacking, served_add hpaired hlocks] at hrw
    rcases hmem.mp hrw.1 with hrwold | rfl
    · exact (h.fair s).locks (mem_lacking.mpr ⟨hrwold, hrw.2⟩) hwold hkind hfree hwp
    · obtain ⟨-, x, hx, rfl, -⟩ := h.paired hwold hwp
      exact hid ▸ h.id_lt hx
  · exact (h.fair s).inOrder (hold hv (by simp [hvp])) (hold hw (by simp [hwp])) hvk hwk hvf hwf
      hvp hwp hlt

omit hid hpaired in
theorem follows_add : t.Follows t' := fun x hx => ⟨x, by simp [hlocks, hx], .refl x⟩

end Add

/-! ## A new pairing -/

section Pair

variable {view lock : Lock}

/-- A table in which one view more is paired. -/
structure Pairs (t t' : LockTable) (view lock : Lock) : Prop where
  locks : t'.locks = t.locks.map (Lock.give view.id lock.id)
  mem : view ∈ t.locks
  unpaired : view.paired = none

namespace Pairs

variable (p : t.Pairs t' view lock) (h : t.Books free)

include p

theorem names : t'.locks.map (·.name) = t.locks.map (·.name) := by
  simp [p.locks, Function.comp_def]

theorem ids : t'.locks.map (·.id) = t.locks.map (·.id) := by
  simp [p.locks, Function.comp_def]

/-- Which locks pass a test after the pairing, by what they pass before. -/
theorem ids_filter {f f' : Lock → Bool} {g : LockId → Bool}
    (hf : ∀ l ∈ t.locks, f' (l.give view.id lock.id) = (g l.id && f l)) :
    (t'.locks.filter f').map (·.id) = ((t.locks.filter f).map (·.id)).filter g := by
  rw [p.locks, List.filter_map, List.map_map, List.filter_map, List.filter_filter]
  simp only [Function.comp_def, Lock.give_id]
  rw [List.filter_congr hf]

theorem ids_unmatched (s : ViewSort) : (t'.unmatched free s).map (·.id) =
    ((t.unmatched free s).map (·.id)).filter (· != view.id) := by
  refine p.ids_filter fun l _ => ?_
  by_cases hid : l.id = view.id <;> simp [hid, Lock.give_paired]

include h

theorem follows : t.Follows t' := by
  intro l hl
  refine ⟨_, p.locks ▸ List.mem_map_of_mem hl, ?_⟩
  unfold Lock.give
  split
  · next hid =>
    have hunpaired : l.paired = none := h.eq_of_id_eq hl p.mem hid ▸ p.unpaired
    exact ⟨rfl, rfl, rfl, rfl, rfl, by simp [hunpaired]⟩
  · exact .refl l

theorem mem_locks {l : Lock} : l ∈ t'.locks ↔
    l = { view with paired := some lock.id } ∨ l ∈ t.locks ∧ l.id ≠ view.id := by
  rw [p.locks, List.mem_map]
  constructor
  · rintro ⟨x, hx, rfl⟩
    unfold Lock.give
    split
    · next hid => exact .inl (by rw [h.eq_of_id_eq hx p.mem hid])
    · next hid => exact .inr ⟨hx, hid⟩
  · rintro (rfl | ⟨hl, hid⟩)
    · exact ⟨view, p.mem, by simp [Lock.give]⟩
    · exact ⟨l, hl, by simp [Lock.give, hid]⟩

theorem served_iff {rw : LockId} : t'.served s rw = true ↔
    t.served s rw = true ∨ view.kind = s.kind ∧ rw = lock.id := by
  simp only [LockTable.served_iff, p.mem_locks h]
  constructor
  · rintro ⟨l, rfl | ⟨hl, -⟩, hkind, hpaired⟩
    · exact .inr ⟨hkind, (Option.some.inj hpaired).symm⟩
    · exact .inl ⟨l, hl, hkind, hpaired⟩
  · rintro (⟨l, hl, hkind, hpaired⟩ | ⟨hkind, rfl⟩)
    · refine ⟨l, .inr ⟨hl, fun hid => ?_⟩, hkind, hpaired⟩
      rw [h.eq_of_id_eq hl p.mem hid, p.unpaired] at hpaired
      cases hpaired
    · exact ⟨_, .inl rfl, hkind, rfl⟩

theorem ids_lacking (s : ViewSort) : (t'.lacking s).map (·.id) =
    ((t.lacking s).map (·.id)).filter fun rw => !decide (view.kind = s.kind ∧ rw = lock.id) := by
  refine p.ids_filter fun l _ => ?_
  have hserved : t'.served s l.id = true ↔
      t.served s l.id = true ∨ view.kind = s.kind ∧ l.id = lock.id := p.served_iff h
  rw [Bool.eq_iff_iff] at *
  simp only [Lock.give_id, Lock.give_kind, Bool.and_eq_true, Bool.not_eq_true', beq_iff_eq,
    Bool.eq_false_iff, ne_eq, decide_eq_true_eq]
  grind

theorem of_mem_unmatched {v : Lock} (hv : v ∈ t'.unmatched free s) :
    v ∈ t.unmatched free s ∧ v.id ≠ view.id := by
  rw [mem_unmatched, p.mem_locks h] at hv
  obtain ⟨rfl | ⟨hold, hne⟩, hrest⟩ := hv
  · cases hrest.2.2
  · exact ⟨mem_unmatched.mpr ⟨hold, hrest⟩, hne⟩

theorem of_mem_lacking (hkind : view.kind ≠ .readWrite) {r : Lock} (hr : r ∈ t'.lacking s) :
    r ∈ t.lacking s ∧ ¬(view.kind = s.kind ∧ r.id = lock.id) := by
  rw [mem_lacking, p.mem_locks h, ← Bool.not_eq_true, p.served_iff h, not_or,
    Bool.not_eq_true] at hr
  obtain ⟨rfl | ⟨hold, -⟩, hrw, hserved, hother⟩ := hr
  · exact absurd hrw hkind
  · exact ⟨mem_lacking.mpr ⟨hold, hrw, hserved⟩, hother⟩

/-- A pairing is entered into the books: the view waits no more, and the lock lacks no view of this
sort. A view that names no lock must be the oldest one that waits, and get the oldest lock. -/
theorem books {s : ViewSort} (hkind : view.kind = s.kind) (hlock : lock ∈ t.locks)
    (hrw : lock.kind = .readWrite) (hwaiting : t'.waiting.Sublist t.waiting)
    (hout : view.id ∉ t'.waiting.map (·.2))
    (hqueue : ∀ s', t'.queue s' = (t.queue s').filter (· != view.id))
    (hopen : ∀ s', t'.openFor s' =
      if s' = s then (t.openFor s').filter (· != lock.id) else t.openFor s')
    (hfirst : free view.name = true → lock ∈ t.lacking s ∧
      (∀ w ∈ t.unmatched free s, view.id ≤ w.id) ∧ ∀ r ∈ t.lacking s, lock.id ≤ r.id) :
    t'.Books free := by
  have hview : view.kind ≠ .readWrite := hkind ▸ s.kind_ne_readWrite
  have hmem : ∀ {l : Lock}, l ∈ t.locks → l.id ≠ view.id → l ∈ t'.locks := fun hl hne =>
    (p.mem_locks h).mpr (.inr ⟨hl, hne⟩)
  have hne_of_rw : ∀ {l : Lock}, l ∈ t.locks → l.kind = .readWrite → l.id ≠ view.id :=
    fun hl hlrw hid => hview (h.eq_of_id_eq hl p.mem hid ▸ hlrw)
  -- a paired view is the new one, or was paired before
  have hcases : ∀ {w : Lock}, w ∈ t'.locks →
      w.id = view.id ∧ w.kind = view.kind ∧ w.name = view.name ∧ w.paired = some lock.id ∨
        w ∈ t.locks := by
    intro w hw
    rcases (p.mem_locks h).mp hw with rfl | hw
    · exact .inl ⟨rfl, rfl, rfl, rfl⟩
    · exact .inr hw.1
  refine ⟨?_, p.names ▸ h.names, fun {l rw} hl hlp => ?_, fun {w} hw => ?_,
    h.waiting_nodup.sublist (hwaiting.map _), fun s' => ?_, fun s' => ?_,
    fun s' => ⟨fun {v w} hv hw hwk hwf hwp => ?_, fun {r w x} hr hw hwk hwf hwp => ?_,
      fun {v w r r'} hv hw hvk hwk hvf hwf hvp hwp hlt => ?_⟩⟩
  · rw [p.ids, h.ids, size, size, p.locks, List.length_map]
  · rcases hcases hl with ⟨-, hlk, -, hlp'⟩ | hold
    · obtain rfl : lock.id = rw := Option.some.inj (hlp'.symm.trans hlp)
      exact ⟨⟨s, hlk.trans hkind⟩, lock, hmem hlock (hne_of_rw hlock hrw), rfl, hrw⟩
    · obtain ⟨hlk, r, hr, hrid, hrrw⟩ := h.paired hold hlp
      exact ⟨hlk, r, hmem hr (hne_of_rw hr hrrw), hrid, hrrw⟩
  · obtain ⟨l, hl, hlid, hrest⟩ := h.waiting (hwaiting.subset hw)
    refine ⟨l, hmem hl fun hid => hout ?_, hlid, hrest⟩
    rw [← hid, hlid]
    exact List.mem_map_of_mem hw
  · rw [hqueue, h.queue, p.ids_unmatched]
  · rw [hopen, h.openFor, p.ids_lacking h, hkind]
    split
    · next heq =>
      subst heq
      refine List.filter_congr fun rw _ => ?_
      simp [bne, Bool.beq_eq_decide_eq]
    · next hne => simp [ViewSort.kind_inj, Ne.symm hne]
  · obtain ⟨hvold, hvne⟩ := p.of_mem_unmatched h hv
    rcases hcases hw with ⟨hwid, hwk', hwn, -⟩ | hwold
    · obtain rfl : s' = s := ViewSort.kind_inj.mp (hwk.symm.trans (hwk'.trans hkind))
      have hle := (hfirst (hwn ▸ hwf)).2.1 v hvold
      exact hwid ▸ Nat.lt_of_le_of_ne hle (Ne.symm hvne)
    · exact (h.fair s').views hvold hwold hwk hwf hwp
  · obtain ⟨hrold, hrne⟩ := p.of_mem_lacking h hview hr
    rcases hcases hw with ⟨-, hwk', hwn, hwp'⟩ | hwold
    · obtain rfl : s' = s := ViewSort.kind_inj.mp (hwk.symm.trans (hwk'.trans hkind))
      obtain rfl : lock.id = x := Option.some.inj (hwp'.symm.trans hwp)
      have hle := (hfirst (hwn ▸ hwf)).2.2 r hrold
      exact Nat.lt_of_le_of_ne hle fun heq => hrne ⟨hkind, heq.symm⟩
    · exact (h.fair s').locks hrold hwold hwk hwf hwp
  · rcases hcases hv with ⟨hvid, hvk', hvn, hvp'⟩ | hvold
    · obtain rfl : s' = s := ViewSort.kind_inj.mp (hvk.symm.trans (hvk'.trans hkind))
      have hunmatched : view ∈ t.unmatched free s' :=
        mem_unmatched.mpr ⟨p.mem, hkind, hvn ▸ hvf, p.unpaired⟩
      rcases hcases hw with ⟨hwid, -⟩ | hwold
      · exact absurd hlt (by rw [hvid, hwid]; exact Nat.lt_irrefl _)
      · have hyounger := (h.fair s').views hunmatched hwold hwk hwf (by simp [hwp])
        exact absurd hlt (by rw [hvid]; exact Nat.lt_asymm hyounger)
    · rcases hcases hw with ⟨-, hwk', hwn, hwp'⟩ | hwold
      · obtain rfl : s' = s := ViewSort.kind_inj.mp (hwk.symm.trans (hwk'.trans hkind))
        obtain rfl : lock.id = r' := Option.some.inj (hwp'.symm.trans hwp)
        exact (h.fair s').locks (hfirst (hwn ▸ hwf)).1 hvold hvk hvf hvp
      · exact (h.fair s').inOrder hvold hwold hvk hwk hvf hwf hvp hwp hlt

end Pairs

end Pair

end LockTable

end Interlock.Program
