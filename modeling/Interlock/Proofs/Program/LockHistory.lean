import Mathlib.Data.List.Induction
import Interlock.Proofs.Program.LockPairing

/-! Lock tables over all histories of declarations and monitors. Every request keeps the books of
the table, so that views that name no lock are matched with read/write locks first come, first
served, and what is known about a lock never changes. -/

namespace Interlock.Program

/-- The kind of lock that a declaration makes: a view by its initializer, else what its type
tells. -/
def LockDecl.kind (d : LockDecl) : LockKind :=
  match d.view? with
  | some (kind, _) => kind
  | none => d.kindByType

theorem LockDecl.kind_of_view {d : LockDecl} {kind : LockKind} {reference : String}
    (h : d.view? = some (kind, reference)) : d.kind = kind := by
  rw [LockDecl.kind, h]

theorem LockDecl.kind_of_no_view {d : LockDecl} (h : d.view? = none) : d.kind = d.kindByType := by
  rw [LockDecl.kind, h]

theorem LockDecl.kindByType_ne_monitor (d : LockDecl) : d.kindByType ≠ .monitor := by
  unfold kindByType
  split <;> simp

namespace LockTable

variable {t : LockTable} {free : String → Bool}

/-! ## Histories -/

/-- What a table is asked for. -/
inductive Request where
  | declare (d : LockDecl)
  | monitor (owner : ClassId) (ownerName segment : String)

namespace Request

/-- The name of the lock that is asked for. -/
def name : Request → String
  | declare d => d.name
  | monitor _ ownerName segment => ownerName ++ "." ++ (Expr.monitorMark ++ segment)

def apply : Request → LockTable → LockId × LockTable
  | declare d, t => t.declare d
  | monitor owner ownerName segment, t => t.monitor owner ownerName segment

/-- The kind of lock that is asked for. -/
def kind : Request → LockKind
  | declare d => d.kind
  | monitor _ _ _ => .monitor

/-- A declaration without an initializer that makes a view. -/
def isFree : Request → Bool
  | declare d => d.view?.isNone
  | monitor _ _ _ => false

end Request

/-- The table after a history of requests. -/
def after (history : List Request) : LockTable := history.foldl (fun t r => (r.apply t).2) {}

/-- The lock of this name was declared without an initializer that makes a view. The first request
for a name makes the lock. -/
def isFree (history : List Request) (name : String) : Bool :=
  (history.find? fun r => r.name == name).any Request.isFree

theorem apply_of_find? {r : Request} {id : LockId} (hfind : t.find? r.name = some id) :
    r.apply t = (id, t) := by
  cases r with
  | declare d =>
    change t.find? d.name = some id at hfind
    simp only [Request.apply, declare, hfind]
  | monitor owner ownerName segment =>
    change t.find? (ownerName ++ "." ++ (Expr.monitorMark ++ segment)) = some id at hfind
    simp only [Request.apply, monitor, hfind]

theorem view?_kind {d : LockDecl} {kind : LockKind} {reference : String}
    (hview : d.view? = some (kind, reference)) : ∃ s : ViewSort, kind = s.kind := by
  obtain ⟨source, -, hview⟩ := Option.bind_eq_some_iff.mp hview
  dsimp only at hview
  split at hview
  · cases hview
    exact ⟨.read, rfl⟩
  · split at hview
    · cases hview
      exact ⟨.write, rfl⟩
    · cases hview

/-- One request keeps the books, whatever it asks for. -/
theorem Kept.apply (h : t.Kept free) (r : Request)
    (hfree : t.find? r.name = none → free r.name = r.isFree) :
    (r.apply t).2.Kept free ∧ t.Follows (r.apply t).2 := by
  cases hfind : t.find? r.name with
  | some id =>
    rw [apply_of_find? hfind]
    exact ⟨h, .refl t⟩
  | none =>
    have hkept : ∀ {t' : LockTable}, t'.Books free ∧ t.Gains t' → t'.Kept free ∧ t.Follows t' :=
      fun hnext => ⟨⟨hnext.1, fun s => hnext.2.idle (h.idle s)⟩, hnext.2.follows⟩
    have hfree := hfree hfind
    cases r with
    | monitor owner ownerName segment =>
      change t.find? (ownerName ++ "." ++ (Expr.monitorMark ++ segment)) = none at hfind
      simp only [Request.apply, monitor, hfind]
      exact hkept (h.books.push_other hfind owner _ (by simp) fun s hk => by
        cases s <;> cases hk.1)
    | declare d =>
      change t.find? d.name = none at hfind
      change free d.name = d.view?.isNone at hfree
      simp only [Request.apply, LockTable.declare, hfind]
      split
      · next kind reference hview =>
        obtain ⟨s, hs⟩ := view?_kind hview
        exact hkept (h.books.addView hfind (by rw [hfree, hview]; rfl) hs reference)
      · next hview =>
        have hfree : free d.name = true := by rw [hfree, hview]; rfl
        split
        · exact h.addReadWrite hfind
        · exact addReadView_eq t d ▸ h.addFree hfind hfree .read
        · exact addWriteView_eq t d ▸ h.addFree hfind hfree .write
        · exact hkept (h.books.push_other hfind d.owner d.field (by simp) fun s hk => by
            cases s <;> cases hk.1)

theorem Kept.empty (free : String → Bool) : Kept {} free where
  books := ⟨rfl, by simp, by simp, by simp, by simp, fun s => by cases s <;> rfl,
    fun s => by cases s <;> rfl, fun s => ⟨by simp, by simp, by simp⟩⟩
  idle s := by cases s <;> exact .inl rfl

/-! ## Names and kinds -/

@[simp] theorem outlines_pair (view rw : LockId) :
    (t.pair view rw).locks.map Lock.outline = t.locks.map Lock.outline := by
  simp [pair_locks, Function.comp_def]

@[simp] theorem outlines_takeOldest (rw : LockId) (s : ViewSort) :
    (t.takeOldest rw s).locks.map Lock.outline = t.locks.map Lock.outline := by
  unfold takeOldest
  split
  · split
    · rw [outlines_pair, setQueue_locks]
    · rfl
  · rfl

@[simp] theorem outlines_takeNamed (name : String) (rw : LockId) :
    (t.takeNamed name rw).locks.map Lock.outline = t.locks.map Lock.outline :=
  List.foldlRecOn
    (motive := fun t' : LockTable => t'.locks.map Lock.outline = t.locks.map Lock.outline) _ _
    rfl fun _ ht' w _ => (outlines_pair w.2 rw).trans ht'

/-- A request for a new name makes one lock, of the kind that was asked for. -/
theorem outlines_apply (t : LockTable) (r : Request) (hfind : t.find? r.name = none) :
    (r.apply t).2.locks.map Lock.outline =
      t.locks.map Lock.outline ++ [(t.nextId, r.name, r.kind)] := by
  cases r with
  | monitor owner ownerName segment =>
    change t.find? (ownerName ++ "." ++ (Expr.monitorMark ++ segment)) = none at hfind
    simp [Request.apply, Request.name, Request.kind, monitor, hfind, push, Lock.outline]
  | declare d =>
    change t.find? d.name = none at hfind
    have hpush : ∀ kind, (t.push d.owner d.name d.field kind).locks.map Lock.outline =
        t.locks.map Lock.outline ++ [(t.nextId, d.name, kind)] := by simp [push, Lock.outline]
    have hfreeView : ∀ s, (t.addFree s d).locks.map Lock.outline =
        t.locks.map Lock.outline ++ [(t.nextId, d.name, s.kind)] := by
      intro s
      unfold addFree
      dsimp only
      split
      · rw [outlines_pair, hpush]
      · rw [setQueue_locks, hpush]
    simp only [Request.apply, Request.name, Request.kind, LockTable.declare, hfind]
    split
    · next kind reference hview =>
      rw [LockDecl.kind_of_view hview]
      unfold addView
      dsimp only
      split
      · split
        · rw [outlines_pair, hpush]
        · exact hpush _
      · exact hpush _
    · next hview =>
      rw [LockDecl.kind_of_no_view hview]
      split
      · next hkind =>
        rw [addReadWrite_eq, outlines_takeOldest, outlines_takeOldest, outlines_takeNamed]
        exact hkind ▸ hpush _
      · next hkind => exact hkind ▸ hfreeView .read
      · next hkind => exact hkind ▸ hfreeView .write
      · next hrw hread hwrite =>
        have hplain : d.kindByType = .plain := by
          cases hkind : d.kindByType with
          | plain => rfl
          | readWrite => exact absurd hkind hrw
          | readView => exact absurd hkind hread
          | writeView => exact absurd hkind hwrite
          | monitor => exact absurd hkind d.kindByType_ne_monitor
        exact hplain ▸ hpush _

theorem names_apply (t : LockTable) (r : Request) (hfind : t.find? r.name = none) :
    (r.apply t).2.locks.map (·.name) = t.locks.map (·.name) ++ [r.name] := by
  have hnames := congrArg (List.map (·.2.1)) (outlines_apply t r hfind)
  rwa [List.map_append, List.map_map, List.map_map] at hnames

/-! ## All histories -/

theorem after_append (history : List Request) (r : Request) :
    after (history ++ [r]) = (r.apply (after history)).2 := by
  simp [after]

theorem names_after (history : List Request) :
    (after history).locks.map (·.name) = (history.map Request.name).eraseDups := by
  induction history using List.reverseRecOn with
  | nil => rfl
  | append_singleton history r ih =>
    rw [after_append, List.map_append, List.eraseDups_append, ← ih]
    cases hfind : (after history).find? r.name with
    | some id =>
      have hmem : r.name ∈ history.map Request.name := by
        obtain ⟨l, hl, -, hname⟩ := mem_of_find? hfind
        rw [← List.mem_eraseDups, ← ih, ← hname]
        exact List.mem_map_of_mem hl
      rw [apply_of_find? hfind]
      simp only [List.map_singleton, List.removeAll, List.filter_cons, List.elem_eq_mem, hmem,
        decide_true, Bool.not_true, Bool.false_eq_true, if_false, List.filter_nil, List.eraseDups_nil,
        List.append_nil]
    | none =>
      have hmem : r.name ∉ history.map Request.name := by
        rw [← List.mem_eraseDups, ← ih]
        exact find?_eq_none_iff.mp hfind
      rw [names_apply _ _ hfind]
      simp only [List.map_singleton, List.removeAll, List.filter_cons, List.elem_eq_mem, hmem,
        decide_false, Bool.not_false, if_true, List.filter_nil]
      rfl

/-- The first request for a name says how its lock was declared. -/
theorem isFree_of_new {history : List Request} {r : Request}
    (hname : r.name ∉ history.map Request.name) (more : List Request) :
    isFree (history ++ r :: more) r.name = r.isFree := by
  have hnone : history.find? (fun x => x.name == r.name) = none := by
    rw [List.find?_eq_none]
    intro x hx hsame
    exact hname (List.mem_map.mpr ⟨x, hx, by simpa using hsame⟩)
  simp [isFree, List.find?_append, hnone]

/-- At any time of a history, by what its whole says about the locks. -/
theorem kept_after (history more : List Request) :
    (after history).Kept (isFree (history ++ more)) := by
  induction history using List.reverseRecOn generalizing more with
  | nil => exact .empty _
  | append_singleton history r ih =>
    rw [after_append, List.append_assoc]
    refine ((ih _).apply r fun hfind => isFree_of_new ?_ more).1
    rw [← List.mem_eraseDups, ← names_after]
    exact find?_eq_none_iff.mp hfind

theorem follows_after (history more : List Request) :
    (after history).Follows (after (history ++ more)) := by
  induction more using List.reverseRecOn with
  | nil => rw [List.append_nil]; exact .refl _
  | append_singleton more r ih =>
    rw [← List.append_assoc, after_append]
    refine ih.trans ((kept_after (history ++ more) [r]).apply r fun hfind => isFree_of_new ?_ []).2
    rw [← List.mem_eraseDups, ← names_after]
    exact find?_eq_none_iff.mp hfind

/-- What holds of a table after a history. -/
structure Consistent (t : LockTable) (history : List Request) : Prop where
  /-- Locks are numbered from one on, in the order in which they are made: that of the first
  requests for their names. -/
  ids : t.locks.map (·.id) = List.range' 1 t.size
  names : t.locks.map (·.name) = (history.map Request.name).eraseDups
  unique : (t.locks.map (·.name)).Nodup
  find? : ∀ {name id}, t.find? name = some id ↔ ∃ lock, t.get? id = some lock ∧ lock.name = name
  /-- A name that is known keeps its lock, and nothing changes. -/
  again : ∀ {r : Request} {id}, t.find? r.name = some id → r.apply t = (id, t)
  /-- A lock never changes but for getting its pairing, once. -/
  grows : ∀ more {id lock}, t.get? id = some lock →
    ∃ lock', (after (history ++ more)).get? id = some lock' ∧ lock.Grows lock'
  paired : ∀ {lock rw}, lock ∈ t.locks → lock.paired = some rw →
    (lock.kind = .readView ∨ lock.kind = .writeView) ∧
      ∃ r, t.get? rw = some r ∧ r.kind = .readWrite ∧ r.paired = none
  canonical : ∀ id, t.canonical (t.canonical id) = t.canonical id
  /-- No view that names no lock waits while a lock lacks a view of its sort. -/
  idle : ∀ s, t.unmatched (isFree history) s = [] ∨ t.lacking s = []
  fair : ∀ s, t.Fair (isFree history) s

theorem Books.find?_eq_some_iff (h : t.Books free) {name : String} {id : LockId} :
    t.find? name = some id ↔ ∃ lock, t.get? id = some lock ∧ lock.name = name := by
  constructor
  · intro hfind
    obtain ⟨l, hl, rfl, hname⟩ := mem_of_find? hfind
    exact ⟨l, h.get?_id hl, hname⟩
  · rintro ⟨lock, hget, rfl⟩
    obtain ⟨hlock, rfl⟩ := h.get?_eq_some_iff.mp hget
    cases hfind : t.find? lock.name with
    | none => exact absurd (List.mem_map_of_mem hlock) (find?_eq_none_iff.mp hfind)
    | some id =>
      obtain ⟨l, hl, rfl, hname⟩ := mem_of_find? hfind
      rw [List.inj_on_of_nodup_map h.names hl hlock hname]

/-- A read/write lock is no view, so it is unpaired. -/
theorem Books.unpaired_of_readWrite (h : t.Books free) {lock : Lock} (hlock : lock ∈ t.locks)
    (hrw : lock.kind = .readWrite) : lock.paired = none := by
  cases hpaired : lock.paired with
  | none => rfl
  | some rw =>
    obtain ⟨⟨s, hkind⟩, -⟩ := h.paired hlock hpaired
    exact absurd (hkind.symm.trans hrw) s.kind_ne_readWrite

theorem Books.paired_readWrite (h : t.Books free) {lock : Lock} {rw : LockId}
    (hlock : lock ∈ t.locks) (hpaired : lock.paired = some rw) :
    (lock.kind = .readView ∨ lock.kind = .writeView) ∧
      ∃ r, t.get? rw = some r ∧ r.kind = .readWrite ∧ r.paired = none := by
  obtain ⟨⟨s, hkind⟩, r, hr, rfl, hrw⟩ := h.paired hlock hpaired
  refine ⟨?_, r, h.get?_id hr, hrw, h.unpaired_of_readWrite hr hrw⟩
  cases s with
  | read => exact .inl hkind
  | write => exact .inr hkind

/-- What a lock stands for stands for itself: it is not paired. -/
theorem Books.paired_canonical (h : t.Books free) (id : LockId) :
    (t.get? (t.canonical id)).bind (·.paired) = none := by
  cases hpaired : (t.get? id).bind (·.paired) with
  | none =>
    rw [show t.canonical id = id by rw [LockTable.canonical, hpaired]; rfl]
    exact hpaired
  | some rw =>
    obtain ⟨lock, hget, hlock⟩ := Option.bind_eq_some_iff.mp hpaired
    obtain ⟨-, r, hr, -, hnone⟩ := h.paired_readWrite (h.get?_eq_some_iff.mp hget).1 hlock
    rw [show t.canonical id = rw by rw [LockTable.canonical, hpaired]; rfl, hr]
    exact hnone

/-- Whatever is declared and whatever monitors are met, in any order, the table is consistent. -/
theorem consistent_after (history : List Request) : (after history).Consistent history := by
  have hkept : (after history).Kept (isFree history) := by
    simpa using kept_after history []
  have hbooks := hkept.books
  refine ⟨hbooks.ids, names_after history, hbooks.names, hbooks.find?_eq_some_iff, apply_of_find?,
    fun more {id lock} hget => ?_, hbooks.paired_readWrite, fun id => ?_, fun s => ?_, hbooks.fair⟩
  · obtain ⟨hlock, rfl⟩ := hbooks.get?_eq_some_iff.mp hget
    obtain ⟨lock', hlock', hgrows⟩ := follows_after history more lock hlock
    refine ⟨lock', ?_, hgrows⟩
    exact (kept_after (history ++ more) []).books.get?_eq_some_iff.mpr ⟨hlock', hgrows.id⟩
  · rw [LockTable.canonical, hbooks.paired_canonical id]
    rfl
  · rcases hkept.idle s with hqueue | hopen
    · rw [hbooks.queue, List.map_eq_nil_iff] at hqueue
      exact .inl hqueue
    · rw [hbooks.openFor, List.map_eq_nil_iff] at hopen
      exact .inr hopen

end LockTable

end Interlock.Program
