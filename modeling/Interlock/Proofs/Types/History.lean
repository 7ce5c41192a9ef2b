import Interlock.Proofs.Types.Substitution

/-! Registries over all histories of requests. As long as a request mentions only types that the
registry has handed out, the registry stays interned, and what it says about a type never changes:
it is what the tree of the type says. -/

namespace Interlock.Types.Registry

variable {r t : Registry} {ty : TypeId}

/-- What a registry is asked for. -/
inductive Request where
  | register (key : TypeKey)
  | instantiate (ty : TypeId) (owner : ClassId) (args : List TypeId)

namespace Request

/-- The types that a request mentions. -/
def mentions : Request → List TypeId
  | register key => key.parts
  | instantiate ty _ args => ty :: args

def apply : Request → Registry → TypeId × Registry
  | register key, r => r.register key
  | instantiate ty owner args, r => r.instantiate ty owner args

end Request

/-- Every request mentions types that are registered by then, or one of the two that never are. -/
def Proper : List Request → Registry → Prop
  | [], _ => True
  | q :: qs, r => (∀ ty ∈ q.mentions, r.Covers ty) ∧ Proper qs (q.apply r).2

/-- The answers to a history of requests, and the registry after it. -/
def answers (history : List Request) (r : Registry) : List TypeId × Registry :=
  mapThrough Request.apply history r

/-- The registry after a history of requests. -/
def after (history : List Request) : Registry := (answers history .initial).2

theorem proper_append {history more : List Request} :
    Proper (history ++ more) r ↔ Proper history r ∧ Proper more (answers history r).2 := by
  induction history generalizing r with
  | nil => exact (and_iff_right trivial).symm
  | cons q qs ih =>
    have hcons : (answers (q :: qs) r).2 = (answers qs (q.apply r).2).2 := rfl
    rw [hcons, List.cons_append, Proper, Proper, ih, and_assoc]

theorem after_append_requests (history more : List Request) :
    after (history ++ more) = (answers more (after history)).2 := by
  rw [after, answers, mapThrough_append]
  rfl

theorem Request.le_apply (q : Request) (r : Registry) : r ≤ (q.apply r).2 := by
  cases q with
  | register key => exact le_register r key
  | instantiate ty owner args => exact le_instantiate r ty owner args

/-- Whatever is asked for, a registry only grows. -/
theorem le_answers (history : List Request) (r : Registry) : r ≤ (answers history r).2 :=
  mapThrough_keeps (I := (r ≤ ·)) (fun q s hs => le_trans hs (q.le_apply s)) history (le_refl r)

theorem initial_le_after (history : List Request) : initial ≤ after history :=
  le_answers history .initial

/-- One request, by the tree of its answer. -/
theorem Interned.makes_apply (h : r.Interned) {q : Request}
    (hq : ∀ ty ∈ q.mentions, r.Covers ty) : ∃ τ, Makes r (q.apply r) τ := by
  cases q with
  | register key => exact ⟨_, h.makes_register key hq⟩
  | instantiate ty owner args =>
    exact ⟨_, h.makes_instantiate _ (fun arg harg => hq arg (List.mem_cons_of_mem _ harg))
      (hq ty List.mem_cons_self)⟩

/-- A history of requests, by the trees of its answers. -/
theorem Interned.makesAll_answers (h : r.Interned) {history : List Request}
    (hproper : Proper history r) : ∃ τs, MakesAll r (answers history r) τs := by
  induction history generalizing r with
  | nil => exact ⟨[], makesAll_nil h⟩
  | cons q qs ih =>
    obtain ⟨hq, hqs⟩ := hproper
    obtain ⟨τ, hfirst⟩ := h.makes_apply hq
    obtain ⟨τs, hrest⟩ := ih hfirst.interned hqs
    exact ⟨τ :: τs, makesAll_cons hfirst hrest⟩

section

variable {history : List Request} (h : Proper history .initial)
include h

theorem interned_after : (after history).Interned := by
  obtain ⟨_, hmade⟩ := interned_initial.makesAll_answers h
  exact hmade.interned

theorem covers_answers : ∀ ty ∈ (answers history .initial).1, (after history).Covers ty := by
  obtain ⟨_, hmade⟩ := interned_initial.makesAll_answers h
  exact hmade.covers

end

/-- What a registry says about a type, given the names of classes. -/
structure SameAnswers (r t : Registry) (ty : TypeId) : Prop where
  key? : t.key? ty = r.key? ty
  kindOf : t.kindOf ty = r.kindOf ty
  isUntracked : t.isUntracked ty = r.isUntracked ty
  knownClassOf? : t.knownClassOf? ty = r.knownClassOf? ty
  describe : ∀ className, t.describe className ty = r.describe className ty

theorem key?_eq_of_covers (hty : r.Covers ty) (hle : r ≤ t) : t.key? ty = r.key? ty := by
  cases ty with
  | id n =>
    obtain ⟨key, hkey⟩ := exists_key?_of_covers hty
    rw [hkey, key?_mono hkey hle]
  | unknown => rfl
  | unresolved => rfl

/-- A registry that grows goes on saying the same of the types that it holds. -/
theorem Interned.sameAnswers (h : r.Interned) (ht : t.Interned) (hle : r ≤ t)
    (hty : r.Covers ty) : r.SameAnswers t ty := by
  have hkey := key?_eq_of_covers hty hle
  have htree := h.tree_mono ht hle hty
  have hlater := covers_mono hty hle
  refine ⟨hkey, kindOf_mono hty hle, ?_, ?_, fun className => ?_⟩
  · rw [ht.isUntracked_eq hlater, htree, h.isUntracked_eq hty]
  · rw [knownClassOf?, hkey, ← knownClassOf?]
  · rw [ht.describe_eq hlater, htree, h.describe_eq hty]

/-- What holds of the registry after a history of requests. -/
structure Sharing (history : List Request) : Prop where
  /-- The identities are the numbers up to the size. -/
  ids : ∀ n, n < (after history).size ↔ ∃ key, (after history).key? (.id n) = some key
  /-- Keys and identities are inverse to each other. -/
  inverse : ∀ ty key, (after history).find? key = some ty ↔ (after history).key? ty = some key
  smaller : ∀ {n key}, (after history).key? (.id n) = some key → ∀ part ∈ key.parts, part.Below n
  again : ∀ {ty key}, (after history).find? key = some ty →
    (after history).register key = (ty, after history)
  answered : ∀ ty ∈ (answers history .initial).1, (after history).Covers ty
  keeps : ∀ {ty more}, (after history).Covers ty → Proper (history ++ more) .initial →
    (after history).SameAnswers (after (history ++ more)) ty
  kind : ∀ {ty components base}, (after history).key? ty = some (.compound components) →
    components.getLast? = some base → (after history).kindOf ty = (after history).kindOf base
  unfolds : ∀ {ty key}, (after history).key? ty = some key →
    (after history).tree ty = key.treeBy (after history).tree
  eq_iff : ∀ {a b}, (after history).Covers a → (after history).Covers b →
    (a = b ↔ (after history).tree a = (after history).tree b)

/-- Whatever is registered and instantiated, in any order, the registry shares its types. -/
theorem sharing_after {history : List Request} (h : Proper history .initial) :
    Sharing history := by
  obtain ⟨τs, hmade⟩ := interned_initial.makesAll_answers h
  have hinterned : (after history).Interned := hmade.interned
  refine
    { ids := fun n => ⟨fun hn => exists_key?_of_covers hn, fun ⟨key, hkey⟩ => covers_of_key? hkey⟩
      inverse := fun ty key => hinterned.find?_eq_some_iff
      smaller := hinterned.parts
      again := register_of_find?
      answered := hmade.covers
      keeps := fun {ty more} hty hmore => ?_
      kind := fun {ty components base} hkey hbase => ?_
      unfolds := hinterned.tree_eq
      eq_iff := fun ha hb => ⟨fun hab => congrArg _ hab, hinterned.tree_injective ha hb⟩ }
  · obtain ⟨τs, hlater⟩ := hinterned.makesAll_answers (proper_append.mp hmore).2
    rw [after_append_requests]
    exact hinterned.sameAnswers hlater.interned hlater.le hty
  · rw [hinterned.kind hkey, kindFor, hbase]

/-- A generic class with its parameter, an array of it, and that array for strings. -/
def boxes : List Request :=
  let box := initial.register (.declared 0)
  let param := box.2.register (.param 0 0)
  let generic := param.2.register (.compound [param.1, box.1])
  let array := generic.2.register (.array generic.1)
  [.register (.declared 0), .register (.param 0 0), .register (.compound [param.1, box.1]),
    .register (.array generic.1), .instantiate array.1 0 [primitive .string]]

theorem proper_boxes : Proper boxes .initial := by
  have hmade : ∀ (r : Registry) key, (r.register key).2.Covers (r.register key).1 :=
    fun r key => (knows_register r key).covers
  have hbox : ∀ key, ((initial.register (.declared 0)).2.register key).2.Covers
      (initial.register (.declared 0)).1 :=
    fun key => covers_mono (hmade _ _) (le_register _ key)
  have hstring : ∀ {r}, initial ≤ r → r.Covers (primitive .string) :=
    fun hle => (knows_primitive hle .string).covers
  have hnone : ∀ {r : Registry}, ∀ ty ∈ ([] : List TypeId), r.Covers ty := by simp
  refine ⟨hnone, hnone, List.forall_mem_cons.mpr ⟨hmade _ _, ?_⟩, ?_,
    List.forall_mem_cons.mpr ⟨hmade _ _, ?_⟩, trivial⟩
  · exact List.forall_mem_singleton.mpr (hbox _)
  · exact List.forall_mem_singleton.mpr (hmade _ _)
  · refine List.forall_mem_singleton.mpr (hstring (le_trans (le_register _ (.declared 0)) ?_))
    exact le_trans (le_register _ (.param 0 0)) (le_trans (le_register _ _) (le_register _ _))

theorem boxes_sharing : Proper boxes .initial ∧ Sharing boxes :=
  ⟨proper_boxes, sharing_after proper_boxes⟩

end Interlock.Types.Registry
