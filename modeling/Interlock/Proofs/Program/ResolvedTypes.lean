import Interlock.Proofs.Program.WrittenTypes

/-! The types of a finished model. Every step of resolution registers the trees of the texts that it
reads and nothing else, and if it were run again on a later registry it would find what it found and
change nothing. So the types that a model stores can be told from its texts, and what its registry
holds can be told from the declarations. -/

namespace Interlock.Types.Registry

variable {r : Registry} {α β γ : Type} {τs υs : List TypeTree}

/-- A step that registers the trees `τs`; in every later registry it gives the same result and
registers nothing. -/
structure Resolves (f : Registry → β × Registry) (r : Registry) (τs : List TypeTree) : Prop where
  adds : Adds r (f r).2 τs
  again : ∀ t, (f r).2 ≤ t → t.Interned → f t = ((f r).1, t)

namespace Resolves

theorem pure (h : r.Interned) (b : β) : Resolves (fun r => (b, r)) r [] :=
  ⟨.refl h, fun _ _ _ => rfl⟩

theorem map {f : Registry → β × Registry} (h : Resolves f r τs) (g : β → γ) :
    Resolves (fun r => (g (f r).1, (f r).2)) r τs := by
  refine ⟨h.adds, fun t ht hti => ?_⟩
  rw [h.again t ht hti]

theorem bind {f : Registry → β × Registry} {g : β → Registry → γ × Registry}
    (hf : Resolves f r τs) (hg : Resolves (g (f r).1) (f r).2 υs) :
    Resolves (fun r => g (f r).1 (f r).2) r (τs ++ υs) := by
  refine ⟨hf.adds.trans hg.adds, fun t ht hti => ?_⟩
  rw [hf.again t (le_trans hg.adds.le ht) hti]
  exact hg.again t ht hti

/-- A step that makes one tree, whatever the registry. -/
theorem of_makes {f : Registry → TypeId × Registry} {τ : TypeTree} (h : r.Interned)
    (hf : ∀ s, r ≤ s → s.Interned → Makes s (f s) τ) : Resolves f r [τ] := by
  have hmade := hf r (le_refl r) h
  refine ⟨hmade.adds, fun t ht hti => ?_⟩
  have hcovers := covers_mono hmade.covers ht
  have hagain := hf t (le_trans hmade.le ht) hti
  rw [← hmade.tree, ← hmade.interned.tree_mono hti ht hmade.covers] at hagain
  exact hagain.again hti hcovers

theorem mapThrough {f : α → Registry → β × Registry} {g : α → List TypeTree} (as : List α)
    (h : r.Interned)
    (hstep : ∀ a ∈ as, ∀ s, r ≤ s → s.Interned → Resolves (f a) s (g a)) :
    Resolves (mapThrough f as) r (as.flatMap g) := by
  induction as generalizing r with
  | nil => exact .pure h []
  | cons a as ih =>
    have hfirst := hstep a List.mem_cons_self r (le_refl r) h
    have hrest := ih hfirst.adds.interned fun b hb s hs =>
      hstep b (List.mem_cons_of_mem _ hb) s (le_trans hfirst.adds.le hs)
    exact hfirst.bind (g := fun b r =>
      (b :: (Interlock.mapThrough f as r).1, (Interlock.mapThrough f as r).2)) (hrest.map _)

/-- In a later registry a loop of such steps gives what each of them gives there. -/
theorem mapThrough_eq {f : α → Registry → β × Registry} {g : α → List TypeTree} (as : List α)
    (h : r.Interned) (hstep : ∀ a ∈ as, ∀ s, r ≤ s → s.Interned → Resolves (f a) s (g a))
    {t : Registry} (ht : (Interlock.mapThrough f as r).2 ≤ t) (hti : t.Interned) :
    Interlock.mapThrough f as t = (as.map fun a => (f a t).1, t) ∧
      ∀ a ∈ as, (f a t).2 = t := by
  induction as generalizing r with
  | nil => exact ⟨rfl, by simp⟩
  | cons a as ih =>
    have hfirst := hstep a List.mem_cons_self r (le_refl r) h
    have hlater : ∀ b ∈ as, ∀ s, (f a r).2 ≤ s → s.Interned → Resolves (f b) s (g b) :=
      fun b hb s hs => hstep b (List.mem_cons_of_mem _ hb) s (le_trans hfirst.adds.le hs)
    have hrest := Resolves.mapThrough as hfirst.adds.interned hlater
    have hagain := hfirst.again t (le_trans hrest.adds.le ht) hti
    obtain ⟨hmap, hsame⟩ := ih hfirst.adds.interned hlater ht
    refine ⟨?_, List.forall_mem_cons.mpr ⟨by rw [hagain], hsame⟩⟩
    simp only [Interlock.mapThrough, hagain, hmap, List.map_cons]

end Resolves

end Interlock.Types.Registry

namespace Interlock.Program

open Interlock.Types Interlock.Types.Registry

/-- What the steps over an array add, all of them add. -/
theorem adds_mapIdxThrough {α : Type} {f : Nat → α → Registry → α × Registry}
    {g : Nat → α → List TypeTree} {r : Registry} (as : Array α) (h : r.Interned)
    (hstep : ∀ (i : Nat) a, as[i]? = some a → ∀ s, r ≤ s → s.Interned →
      Adds s (f i a s).2 (g i a)) :
    Adds r (mapIdxThrough f as r).2 (as.toList.zipIdx.flatMap fun p => g p.2 p.1) :=
  adds_mapThrough as.toList.zipIdx h fun p hp s hs hsi =>
    hstep p.2 p.1 (by simpa using List.mem_zipIdx_iff_getElem?.mp hp) s hs hsi

namespace Model

variable {m : Model} {r : Registry}

/-! ## Texts and variables -/

section

variable (scope : ClassId) (methodParams : List String)

theorem resolves_resolveText (text : String) (h : m.Ready r) :
    Resolves (m.resolveText scope methodParams text) r [m.textTree scope methodParams text] :=
  .of_makes h.interned fun _ hs hsi => makes_resolveText scope methodParams text (h.mono hs hsi)

/-- The trees of the types of variables. -/
def variableTrees (m : Model) (vs : List VariableDecl) : List TypeTree :=
  vs.flatMap fun v => [m.textTree scope methodParams v.type]

theorem resolves_resolveVariables (vs : List VariableDecl) (h : m.Ready r) :
    Resolves (m.resolveVariables scope methodParams vs) r
      (m.variableTrees scope methodParams vs) :=
  .mapThrough vs h.interned fun v _ _ hs hsi =>
    (resolves_resolveText scope methodParams v.type (h.mono hs hsi)).map (v.name, ·)

/-- In a later registry the types of variables are those of their texts. -/
theorem resolveVariables_again (vs : List VariableDecl) (h : m.Ready r) {t : Registry}
    (ht : (m.resolveVariables scope methodParams vs r).2 ≤ t) (hti : t.Interned) :
    m.resolveVariables scope methodParams vs t =
        (vs.map fun v => (v.name, (m.resolveText scope methodParams v.type t).1), t) ∧
      ∀ v ∈ vs, (m.resolveText scope methodParams v.type t).2 = t :=
  Resolves.mapThrough_eq vs h.interned (fun v _ _ hs hsi =>
    (resolves_resolveText scope methodParams v.type (h.mono hs hsi)).map (v.name, ·)) ht hti

end

/-! ## Classes and functions -/

/-- The trees of a class and of its type parameters. -/
def ownTrees (id : ClassId) (c : Class) : List TypeTree :=
  .declared id :: (List.range c.decl.typeParams.length).flatMap fun i => [.param id i]

theorem adds_registerClass (id : ClassId) (c : Class) (h : r.Interned) :
    Adds r (registerClass id c r).2 (ownTrees id c) := by
  have hown : Makes r (r.register (.declared id)) (.declared id) :=
    h.makes_register (.declared id) (by simp [TypeKey.parts])
  have hparams := adds_mapThrough (g := fun i => [TypeTree.param id i])
    (f := fun index (r : Registry) => r.register (.param id index))
    (List.range c.decl.typeParams.length) hown.interned fun i _ s _ hsi =>
      (hsi.makes_register (.param id i) (by simp [TypeKey.parts])).adds
  exact hown.adds.trans hparams

theorem resolves_resolveFields (h : m.Ready r) (id : ClassId) (c : Class) :
    Resolves (resolveFields m id c) r (m.variableTrees id [] c.decl.fields) :=
  (resolves_resolveVariables id [] c.decl.fields h).map
    (List.foldl (fun (c : Class) (f : String × TypeId) => c.setField f.1 f.2) c)

/-- The tree of the result of a function; a constructor writes none. -/
def returnTrees (m : Model) (f : Function) : List TypeTree :=
  match f.decl.returns with
  | some text => [m.textTree f.cls f.decl.typeParams text]
  | none => []

theorem resolves_resolveReturn (h : m.Ready r) (f : Function) :
    Resolves (m.resolveReturn f) r (m.returnTrees f) := by
  unfold resolveReturn returnTrees
  cases f.decl.returns with
  | some text => exact resolves_resolveText f.cls f.decl.typeParams text h
  | none =>
    cases m.class? f.cls with
    | some c => exact .pure h.interned c.type
    | none => exact .pure h.interned TypeId.unknown

/-- The trees of the parameters, the local variables and the result of a function. -/
def signatureTrees (m : Model) (f : Function) : List TypeTree :=
  m.variableTrees f.cls f.decl.typeParams f.decl.params ++
    (m.variableTrees f.cls f.decl.typeParams f.decl.locals ++ m.returnTrees f)

theorem resolves_resolveSignature (h : m.Ready r) (f : Function) :
    Resolves (resolveSignature m f) r (m.signatureTrees f) := by
  let typed (params locals : List (String × TypeId)) (returnType : TypeId) : Function :=
    { f with
      params := params.map (·.2)
      returnType
      locals := (params ++ locals).foldl (fun ls v => ls.bind v.1 v.2) f.locals }
  have hparams := resolves_resolveVariables f.cls f.decl.typeParams f.decl.params h
  have hready := h.mono hparams.adds.le hparams.adds.interned
  have hlocals := resolves_resolveVariables f.cls f.decl.typeParams f.decl.locals hready
  have hreturn := resolves_resolveReturn (hready.mono hlocals.adds.le hlocals.adds.interned) f
  let last (params locals : List (String × TypeId)) (r : Registry) : Function × Registry :=
    (typed params locals (m.resolveReturn f r).1, (m.resolveReturn f r).2)
  let rest (params : List (String × TypeId)) (r : Registry) : Function × Registry :=
    let made := m.resolveVariables f.cls f.decl.typeParams f.decl.locals r
    last params made.1 made.2
  exact hparams.bind (g := rest) (hlocals.bind (g := last _) (hreturn.map (typed _ _)))

/-- The trees of the types that the call sites of a function write. -/
def callTrees (m : Model) (f : Function) : List TypeTree :=
  f.calls.flatMap fun e => e.typeRefs.flatMap fun t => [m.textTree f.cls f.decl.typeParams t.text]

theorem adds_resolveCalls (h : m.Ready r) (f : Function) :
    Adds r (resolveCalls m f r).2 (m.callTrees f) := by
  let step (t : TypeRef) (r : Registry) : TypeRef × Registry :=
    let made := m.resolveText f.cls f.decl.typeParams t.text r
    ({ t with resolved := some made.1 }, made.2)
  refine adds_mapThrough (f := Expr.mapTypes step) f.calls h.interned fun e _ s hs hsi => ?_
  -- the types of an expression are looked up in the order in which they are listed
  have hlisted : (e.mapTypes step s).2 = (mapThrough step e.typeRefs s).2 := by
    rw [Expr.typeRefs_mapTypes]
  rw [hlisted]
  exact adds_mapThrough e.typeRefs hsi fun t _ u hu hui =>
    (resolves_resolveText _ _ t.text ((h.mono hs hsi).mono hu hui)).adds

/-! ## The whole program -/

/-- The trees of all types that a program declares or writes. -/
def programTrees (m : Model) : List TypeTree :=
  (m.classes.toList.zipIdx.flatMap fun p => ownTrees p.2 p.1) ++
    ((m.classes.toList.zipIdx.flatMap fun p => m.variableTrees p.2 [] p.1.decl.fields) ++
      (m.functions.toList.flatMap m.signatureTrees ++ m.functions.toList.flatMap m.callTrees))

theorem flatMap_zipIdx {α β : Type} (as : List α) (g : α → List β) :
    (as.zipIdx.flatMap fun p => g p.1) = as.flatMap g := by
  rw [← List.flatMap_map Prod.fst g, List.zipIdx_map_fst]

/-- What is said of classes by a part of their data. -/
theorem flatMap_view {β : Type} (view : Class → Class) {g : ClassId → Class → List β}
    (hg : ∀ id c, g id (view c) = g id c) (classes : Array Class) :
    (classes.toList.zipIdx.flatMap fun p => g p.2 p.1) =
      (classes.map view).toList.zipIdx.flatMap fun p => g p.2 p.1 := by
  rw [Array.toList_map, List.zipIdx_map, List.flatMap_map]
  simp only [Prod.map_fst, Prod.map_snd, id_eq, hg]

theorem SameNames.programTrees {m' : Model} (h : m.SameNames m')
    (hfunctions : m'.functions = m.functions) : m'.programTrees = m.programTrees := by
  have htrees : ∀ scope params vs, m'.variableTrees scope params vs =
      m.variableTrees scope params vs := by
    intro scope params vs
    simp only [variableTrees, h.textTree]
  have hreturns : m'.returnTrees = m.returnTrees := by
    funext f
    simp only [returnTrees, h.textTree]
  have hsignatures : m'.signatureTrees = m.signatureTrees := by
    funext f
    simp only [signatureTrees, htrees, hreturns]
  have hcalls : m'.callTrees = m.callTrees := by
    funext f
    simp only [callTrees, h.textTree]
  simp only [Model.programTrees, htrees, hsignatures, hcalls, hfunctions]
  rw [flatMap_view Class.untyped (g := ownTrees) (fun _ _ => rfl) m'.classes,
    flatMap_view Class.untyped (g := ownTrees) (fun _ _ => rfl) m.classes,
    flatMap_view Class.untyped (g := fun id c => m.variableTrees id [] c.decl.fields)
      (fun _ _ => rfl) m'.classes,
    flatMap_view Class.untyped (g := fun id c => m.variableTrees id [] c.decl.fields)
      (fun _ _ => rfl) m.classes, h.classes]

theorem SameOutline.ownTrees {m' : Model} (h : m.SameOutline m') :
    (m'.classes.toList.zipIdx.flatMap fun p => ownTrees p.2 p.1) =
      m.classes.toList.zipIdx.flatMap fun p => Model.ownTrees p.2 p.1 := by
  rw [flatMap_view Class.outline (g := Model.ownTrees) (fun _ _ => rfl) m'.classes,
    flatMap_view Class.outline (g := Model.ownTrees) (fun _ _ => rfl) m.classes, h.classes]

theorem Ready.congr {m' : Model} (h : m.Ready r) (hs : m.SameOutline m') : m'.Ready r where
  interned := h.interned
  initial_le := h.initial_le
  declared c hc := h.declared c (hs.size_classes ▸ hc)
  params hc i hi := by
    obtain ⟨before, hbefore, -, -, -, hdecl⟩ := hs.class? hc
    exact h.params hbefore i (hdecl ▸ hi)

variable {units : List SourceUnit}

theorem adds_registered (units : List SourceUnit) : Adds .initial (registered units).2
    ((declared units).classes.toList.zipIdx.flatMap fun p => ownTrees p.2 p.1) :=
  adds_mapIdxThrough (f := registerClass) (declared units).classes interned_initial
    fun id c _ _ _ hsi => adds_registerClass id c hsi

/-- A registry with the classes of a program is ready for its texts. -/
theorem ready_registered (units : List SourceUnit) :
    (registered units).1.Ready (registered units).2 := by
  have hadds := adds_registered units
  have hown : ∀ {c cls}, (declared units).class? c = some cls → ∀ τ ∈ ownTrees c cls,
      τ ∈ τ.nodes → (registered units).2.Holds τ := by
    intro c cls hc τ hτ hself
    refine hadds.all τ (List.mem_flatMap.mpr ⟨(cls, c), ?_, hτ⟩) τ hself
    exact List.mem_zipIdx_iff_getElem?.mpr (by simpa [class?] using hc)
  have hready : (declared units).Ready (registered units).2 := by
    refine ⟨hadds.interned, hadds.le, fun c hc => ?_, fun {c cls} hc i hi => ?_⟩
    · have hget : (declared units).class? c = some (declared units).classes[c] :=
        Array.getElem?_eq_getElem hc
      exact hown hget _ List.mem_cons_self (by simp [TypeTree.nodes])
    · refine hown hc _ (List.mem_cons_of_mem _ (List.mem_flatMap.mpr ⟨i, ?_, ?_⟩))
        (by simp [TypeTree.nodes])
      · exact List.mem_range.mpr hi
      · exact List.mem_singleton_self _
  exact hready.congr (sameOutline_registered units)

/-- The registry when all texts are resolved. -/
def writtenRegistry (m : Model) (r : Registry) : Registry :=
  let signed := m.signed r
  (mapIdxThrough (fun _ => resolveCalls signed.1) signed.1.functions signed.2).2

theorem adds_fields (h : m.Ready r) : Adds r (mapIdxThrough (resolveFields m) m.classes r).2
    (m.classes.toList.zipIdx.flatMap fun p => m.variableTrees p.2 [] p.1.decl.fields) :=
  adds_mapIdxThrough (f := resolveFields m) m.classes h.interned
    fun id c _ _ hs hsi => (resolves_resolveFields (h.mono hs hsi) id c).adds

theorem adds_signatures (h : m.Ready r) :
    Adds r (mapIdxThrough (fun _ => resolveSignature m) m.functions r).2
      (m.functions.toList.flatMap m.signatureTrees) := by
  rw [← flatMap_zipIdx]
  exact adds_mapIdxThrough (f := fun _ => resolveSignature m) m.functions h.interned
    fun _ f _ _ hs hsi => (resolves_resolveSignature (h.mono hs hsi) f).adds

theorem adds_signed (h : m.Ready r) : Adds r (m.signed r).2
    ((m.classes.toList.zipIdx.flatMap fun p => m.variableTrees p.2 [] p.1.decl.fields) ++
      m.functions.toList.flatMap m.signatureTrees) :=
  (adds_fields h).trans (adds_signatures (h.mono (adds_fields h).le (adds_fields h).interned))

theorem sameNames_signed (m : Model) (r : Registry) : m.SameNames (m.signed r).1 :=
  ⟨map_mapIdxThrough untyped_resolveFields _ _, rfl⟩

theorem callTrees_signed (m : Model) (r : Registry) :
    (m.signed r).1.functions.toList.flatMap (m.signed r).1.callTrees =
      m.functions.toList.flatMap m.callTrees := by
  have hnames := sameNames_signed m r
  let texts (f : Function) : ClassId × List String × List Expr :=
    (f.cls, f.decl.typeParams, f.calls)
  let trees (p : ClassId × List String × List Expr) : List TypeTree :=
    p.2.2.flatMap fun e => e.typeRefs.flatMap fun t => [m.textTree p.1 p.2.1 t.text]
  have hsame : (m.signed r).1.functions.map texts = m.functions.map texts :=
    map_mapIdxThrough (f := fun _ => resolveSignature m) (fun _ _ _ => rfl) m.functions _
  have hcalls : (m.signed r).1.callTrees = fun f => trees (texts f) := by
    funext f
    simp only [callTrees, hnames.textTree]
    rfl
  have hcalls' : m.callTrees = fun f => trees (texts f) := rfl
  rw [hcalls, hcalls', ← List.flatMap_map texts trees, ← List.flatMap_map texts trees,
    ← Array.toList_map, ← Array.toList_map, hsame]

theorem adds_calls (h : m.Ready r) : Adds (m.signed r).2 (m.writtenRegistry r)
    (m.functions.toList.flatMap m.callTrees) := by
  have hsigned := adds_signed h
  have hready := (h.mono hsigned.le hsigned.interned).congr (sameOutline_signed m r)
  rw [← callTrees_signed m r, ← flatMap_zipIdx]
  exact adds_mapIdxThrough (f := fun _ => resolveCalls (m.signed r).1)
    (m.signed r).1.functions hsigned.interned
    fun _ f _ _ hs hsi => adds_resolveCalls (hready.mono hs hsi) f

theorem adds_writtenRegistry (h : m.Ready r) : Adds r (m.writtenRegistry r)
    ((m.classes.toList.zipIdx.flatMap fun p => m.variableTrees p.2 [] p.1.decl.fields) ++
      (m.functions.toList.flatMap m.signatureTrees ++ m.functions.toList.flatMap m.callTrees)) := by
  rw [← List.append_assoc]
  exact (adds_signed h).trans (adds_calls h)

end Model

end Interlock.Program
