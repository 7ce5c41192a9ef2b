import Interlock.Proofs.Types.ReadNames
import Interlock.Proofs.Program.StoredTypes

/-! Two readings of the name of a type. A supertype is looked up by its text, which is cut at the
first angle bracket; any other type is read whole, and its name is looked up. Both give the same
name exactly if the name is written plainly: as words and points before the first bracket, with no
point outside the brackets that follow. -/

namespace Interlock.Program.Model

open Interlock.Text Interlock.Types Interlock.Types.TypeExpr

variable {text : String} {t : TypeExpr}

/-! ## Texts in parts -/

theorem exists_dropStarts (part : List Char) (fuel : Nat) (cs : List Char) :
    ∃ k, cs = (List.replicate k part).flatten ++ dropStarts part fuel cs := by
  induction fuel generalizing cs with
  | zero => exact ⟨0, rfl⟩
  | succ fuel ih =>
    rw [dropStarts]
    split
    · next rest hrest =>
      obtain ⟨k, hk⟩ := ih rest
      refine ⟨k + 1, ?_⟩
      rw [List.replicate_succ, List.flatten_cons, List.append_assoc, ← hk]
      exact dropStartChars?_eq_some_iff.mp hrest
    · exact ⟨0, rfl⟩

theorem exists_trimChars (cs : List Char) :
    ∃ front back, Blank front ∧ Blank back ∧ cs = front ++ (trimChars cs ++ back) := by
  let inner := cs.dropWhile isBlank
  refine ⟨cs.takeWhile isBlank, (inner.reverse.takeWhile isBlank).reverse,
    fun _ hc => List.mem_takeWhile_imp hc,
    fun _ hc => List.mem_takeWhile_imp (List.mem_reverse.mp hc), ?_⟩
  have hinner : trimChars cs ++ (inner.reverse.takeWhile isBlank).reverse = inner := by
    rw [trimChars, ← List.reverse_append, List.takeWhile_append_dropWhile, List.reverse_reverse]
  rw [hinner, List.takeWhile_append_dropWhile]

theorem dropAnnotations_append {front : List Char} (h : '@' ∉ front) (cs : List Char) :
    dropAnnotations .outside (front ++ cs) = front ++ dropAnnotations .outside cs := by
  induction front with
  | nil => rfl
  | cons c front ih =>
    have hc : c ≠ '@' := fun hc => h (hc ▸ List.mem_cons_self)
    have hfront : '@' ∉ front := fun hmem => h (List.mem_cons_of_mem _ hmem)
    rw [List.cons_append, dropAnnotations, if_neg hc, ih hfront, List.cons_append]

/-- Nothing, or what an angle bracket opens. -/
def Opens (cs : List Char) : Prop := ∀ c ∈ cs.head?, c = '<'

theorem opens_dropWhile (cs : List Char) : Opens (cs.dropWhile (· != '<')) := by
  intro c hc
  have hnot := List.head?_dropWhile_not (· != '<') cs
  rw [Option.mem_def.mp hc] at hnot
  simpa using hnot

theorem Opens.dropAnnotations {cs : List Char} (h : Opens cs) :
    Opens (dropAnnotations .outside cs) := by
  cases cs with
  | nil => exact h
  | cons c cs =>
    obtain rfl : c = '<' := h c rfl
    exact h

/-- Blanks and then pairs of brackets. -/
def Trailing (cs : List Char) : Prop :=
  ∃ gap k, Blank gap ∧ cs = gap ++ (List.replicate k ['[', ']']).flatten

theorem Trailing.isBlank_or {cs : List Char} (h : Trailing cs) :
    ∀ c ∈ cs, isBlank c = true ∨ c = '[' ∨ c = ']' := by
  obtain ⟨gap, k, hgap, rfl⟩ := h
  intro c hc
  rcases List.mem_append.mp hc with hc | hc
  · exact .inl (hgap c hc)
  · obtain ⟨pair, hpair, hc⟩ := List.mem_flatten.mp hc
    rw [(List.mem_replicate.mp hpair).2] at hc
    exact .inr (by simpa using hc)

theorem Trailing.not_mem {cs : List Char} (h : Trailing cs) {c : Char}
    (hc : isBlank c = false ∧ c ≠ '[' ∧ c ≠ ']') : c ∉ cs := by
  intro hmem
  rcases h.isBlank_or c hmem with hblank | hopen | hclose
  · exact absurd hblank (by simp [hc.1])
  · exact hc.2.1 hopen
  · exact hc.2.2 hclose

theorem Trailing.ends {cs inner : List Char} (h : Trailing cs) (hinner : Opens inner) :
    Ends (cs ++ inner) := by
  obtain ⟨gap, k, hgap, rfl⟩ := h
  intro c hc
  rw [next?, List.append_assoc, skipBlanks_of_blank hgap] at hc
  cases k with
  | succ k => exact .inr (Option.some.inj hc).symm
  | zero =>
    cases inner with
    | nil => cases hc
    | cons d inner =>
      obtain rfl : d = '<' := hinner d rfl
      exact .inl (Option.some.inj hc).symm

/-- What stands before the first angle bracket is the bare name, with blanks before it and blanks and
brackets after it. -/
theorem exists_bareName (text : String) : ∃ gap after, Blank gap ∧ Trailing after ∧
    text.toList.takeWhile (· != '<') = gap ++ ((bareName text).toList ++ after) := by
  let cs := text.toList.takeWhile (· != '<')
  obtain ⟨k, hk⟩ := exists_dropStarts [']', '['] cs.length cs.reverse
  obtain ⟨front, back, hfront, hback, htrim⟩ :=
    exists_trimChars (dropStarts [']', '['] cs.length cs.reverse).reverse
  refine ⟨front, back ++ (List.replicate k ['[', ']']).flatten, hfront, ⟨back, k, hback, rfl⟩, ?_⟩
  have hbare : (bareName text).toList =
      trimChars (dropStarts [']', '['] cs.length cs.reverse).reverse := by
    rw [bareName, firstPiece, String.toList_ofList, String.toList_ofList]
  have hpairs : ((List.replicate k [']', '[']).flatten).reverse =
      (List.replicate k ['[', ']']).flatten := by
    rw [List.reverse_flatten, List.map_replicate, List.reverse_replicate]
    rfl
  have hcs := congrArg List.reverse hk
  rw [List.reverse_reverse, List.reverse_append, hpairs, htrim] at hcs
  rw [hbare, ← List.append_assoc (trimChars _), ← List.append_assoc front]
  exact hcs

/-! ## Plain names -/

/-- What the first angle bracket opens, without annotations. -/
def bracketed (text : String) : List Char :=
  (dropAnnotations .outside text.toList).dropWhile (· != '<')

/-- The name of a type is written plainly: before the first angle bracket stands nothing but words
and points, or the wildcard, and outside the brackets no point follows. -/
structure NamedPlainly (text : String) : Prop where
  name : bareName text = "?" ∨ IsName (bareName text)
  last : '.' ∉ outside 0 (bracketed text)

/-- The characters of a name that is looked up. -/
theorem not_mem_bareName (h : bareName text = "?" ∨ IsName (bareName text))
    {c : Char} (hc : c ≠ '?' ∧ ¬IsNameChar c) : c ∉ (bareName text).toList := by
  intro hmem
  rcases h with hmark | hname
  · rw [hmark] at hmem
    exact hc.1 (List.mem_singleton.mp hmem)
  · exact hc.2 (hname.chars c hmem)

theorem exists_append_bracketed
    (h : bareName text = "?" ∨ IsName (bareName text)) :
    ∃ gap after, Blank gap ∧ Trailing after ∧ Opens (bracketed text) ∧
      dropAnnotations .outside text.toList =
        gap ++ ((bareName text).toList ++ (after ++ bracketed text)) := by
  obtain ⟨gap, after, hgap, hafter, hfront⟩ := exists_bareName text
  have hnone : ∀ c, isBlank c = false ∧ c ≠ '[' ∧ c ≠ ']' → c ≠ '?' ∧ ¬IsNameChar c →
      c ∉ gap ++ ((bareName text).toList ++ after) := by
    intro c hmark hname hmem
    simp only [List.mem_append] at hmem
    rcases hmem with hc | hc | hc
    · exact hgap.not_mem hmark.1 hc
    · exact not_mem_bareName h hname hc
    · exact hafter.not_mem hmark hc
  let tail := text.toList.dropWhile (· != '<')
  have htail : Opens (dropAnnotations .outside tail) := (opens_dropWhile _).dropAnnotations
  have htext : dropAnnotations .outside text.toList =
      gap ++ ((bareName text).toList ++ after) ++ dropAnnotations .outside tail := by
    rw [← dropAnnotations_append (hnone '@' (by decide) (by decide)), ← hfront,
      List.takeWhile_append_dropWhile]
  have hbracketed : bracketed text = dropAnnotations .outside tail := by
    have hbefore : ∀ c ∈ gap ++ ((bareName text).toList ++ after), (c != '<') = true := by
      intro c hc
      simp only [bne_iff_ne, ne_eq]
      rintro rfl
      exact hnone '<' (by decide) (by decide) hc
    rw [bracketed, htext, List.dropWhile_append_of_pos hbefore]
    cases hopens : dropAnnotations .outside tail with
    | nil => rfl
    | cons c inner =>
      rw [hopens] at htail
      obtain rfl : c = '<' := htail c rfl
      rfl
  rw [hbracketed]
  refine ⟨gap, after, hgap, hafter, htail, ?_⟩
  rw [htext, List.append_assoc, List.append_assoc]

theorem outside_trailing {after : List Char} (h : Trailing after) (cs : List Char) :
    '.' ∈ outside 0 (after ++ cs) ↔ '.' ∈ outside 0 cs := by
  have hflat : Flat after := by
    intro c hc
    constructor
    · rintro rfl
      exact h.not_mem (by decide) hc
    · rintro rfl
      exact h.not_mem (by decide) hc
  rw [outside_zero_append hflat, List.mem_append, or_iff_right (h.not_mem (by decide))]

/-- The bare name of a text is the name of the type exactly if the name is written plainly. -/
theorem bareName_eq_iff (h : parse? text = some t) (hdims : t.dims = 0) :
    bareName text = t.name ↔ NamedPlainly text := by
  obtain ⟨fuel, rest, hread, hrest⟩ := parse?_eq_some h
  suffices hsame : (bareName text = "?" ∨ IsName (bareName text)) →
      (bareName text = t.name ↔ '.' ∉ outside 0 (bracketed text)) by
    constructor
    · intro heq
      have hname := isName_of_parse? h
      rw [← heq] at hname
      exact ⟨hname, (hsame hname).mp heq⟩
    · intro hplain
      exact (hsame hplain.name).mpr hplain.last
  intro hname
  obtain ⟨gap, after, hgap, hafter, hopens, htext⟩ := exists_append_bracketed hname
  have hends := hafter.ends hopens
  rw [htext] at hread
  rcases hname with hmark | hname
  · rw [hmark] at hread ⊢
    obtain ⟨rfl, rfl⟩ := read_wildcard hgap hends hread
    have hnil : bracketed text = [] := by
      cases hcs : bracketed text with
      | nil => rfl
      | cons c inner =>
        rw [hcs] at hopens hrest
        obtain rfl : c = '<' := hopens c rfl
        exact absurd (List.mem_append_right _ List.mem_cons_self) (hrest.not_mem (by decide))
    rw [hnil]
    exact iff_of_true rfl List.not_mem_nil
  · rw [← outside_trailing hafter, ← name_eq_iff hgap hname.chars hends hread hdims hrest,
      String.ofList_toList, eq_comm]

/-! ## Looking a supertype up -/

theorem dropWhile_isBlank_eq_self {cs : List Char} (h : ∀ c ∈ cs, isBlank c = false) :
    cs.dropWhile isBlank = cs := by
  cases cs with
  | nil => rfl
  | cons c cs => exact List.dropWhile_cons_of_neg (by simp [h c List.mem_cons_self])

theorem bareName_eq_self {name : String}
    (h : ∀ c ∈ name.toList, c ≠ '<' ∧ c ≠ ']' ∧ isBlank c = false) : bareName name = name := by
  have hpiece : name.toList.takeWhile (· != '<') = name.toList :=
    List.takeWhile_eq_self_iff.mpr fun c hc => by simpa using (h c hc).1
  have hdrop : ∀ fuel, dropStarts [']', '['] fuel name.toList.reverse = name.toList.reverse := by
    intro fuel
    cases fuel with
    | zero => rfl
    | succ fuel =>
      rw [dropStarts]
      split
      · next rest hrest =>
        have hmem : ']' ∈ name.toList.reverse :=
          dropStartChars?_eq_some_iff.mp hrest ▸ List.mem_cons_self
        exact absurd rfl (h ']' (List.mem_reverse.mp hmem)).2.1
      · rfl
  have htrim : trimChars name.toList = name.toList := by
    have hblank : ∀ c ∈ name.toList.reverse, isBlank c = false :=
      fun c hc => (h c (List.mem_reverse.mp hc)).2.2
    rw [trimChars, dropWhile_isBlank_eq_self fun c hc => (h c hc).2.2,
      dropWhile_isBlank_eq_self hblank, List.reverse_reverse]
  rw [bareName, firstPiece, String.toList_ofList, hpiece, hdrop, List.reverse_reverse, htrim,
    String.ofList_toList]

/-- The name of a type that was read is looked up as it is. -/
theorem bareName_name (h : parse? text = some t) : bareName t.name = t.name := by
  refine bareName_eq_self ?_
  intro c hc
  rcases isName_of_parse? h with hmark | hname
  · rw [hmark] at hc
    obtain rfl := List.mem_singleton.mp hc
    decide
  · have hchar := hname.chars c hc
    refine ⟨?_, ?_, isBlank_of_isNameChar hchar⟩
    · rintro rfl
      exact absurd hchar (by decide)
    · rintro rfl
      exact absurd hchar (by decide)

theorem locate?_of_bareName_eq {text' : String} (h : bareName text = bareName text') (m : Model)
    (scope : Option ClassId) : m.locate? text scope = m.locate? text' scope := by
  simp only [locate?, h]

/-! ## A program of one class -/

variable {name q : String}

/-- A program of one class without a body. -/
def alone (name : String) : List SourceUnit := [{ path := "", classes := [{ name }] }]

def aloneBare (name : String) : Model := (declared (alone name)).withHierarchy [[]]

theorem exists_alone (name : String) :
    ∃ m, ofUnits (alone name) = .ok m ∧ (aloneBare name).SameNames m := by
  have hflatten : (declared (alone name)).namedSupers.flatten = .ok [[]] := by
    have hsupers : (declared (alone name)).namedSupers = #[[]] := rfl
    rw [hsupers]
    cbv
  obtain ⟨m, written, hm, hfinished⟩ := exists_finished_of_flatten hflatten
  exact ⟨m, hm, hfinished.underlies.names⟩

theorem class?_alone {c : ClassId} {cls : Class} (h : (aloneBare name).class? c = some cls) :
    c = 0 ∧ cls.name = name ∧ cls.nested = [] ∧ cls.package = "" := by
  have hclasses : (aloneBare name).classes =
      #[{ decl := { name }, qualifiedName := name, package := "", outer := none, unit := 0 }] := rfl
  rw [class?, hclasses] at h
  cases c with
  | zero =>
    cases h
    exact ⟨rfl, rfl, rfl, rfl⟩
  | succ c => cases h

theorem qualified?_alone (name q : String) :
    (aloneBare name).qualified? q = if name = q then some 0 else none := by
  have hqualified : (aloneBare name).qualified? q = [0].find? fun _ => name == q := rfl
  rw [hqualified]
  by_cases hq : name = q
  · simp [hq]
  · simp [hq]

theorem simple?_alone (h : name ≠ q) : (aloneBare name).simple? q = none := by
  rw [simple?, Array.findIdx?_eq_none_iff]
  intro cls hcls
  obtain ⟨c, hc, rfl⟩ := Array.mem_iff_getElem.mp hcls
  have hsome : (aloneBare name).class? c = some (aloneBare name).classes[c] :=
    Array.getElem?_eq_getElem hc
  rw [(class?_alone hsome).2.1]
  exact beq_false_of_ne h

theorem nestedClass?_alone (c : ClassId) : (aloneBare name).nestedClass? c q = none := by
  rw [nestedClass?, List.findSome?_eq_none_iff]
  intro owner _
  rw [Option.bind_eq_bind, Option.bind_eq_none_iff]
  intro cls hcls
  obtain ⟨-, -, hnested, -⟩ := class?_alone hcls
  rw [hnested]
  rfl

theorem scoped?_alone (h : name ≠ q) (c : ClassId) : (aloneBare name).scoped? c q = none := by
  rw [scoped?, List.findSome?_eq_none_iff]
  intro scope _
  split
  · next cls hcls =>
    rw [(class?_alone hcls).2.1, if_neg (by simpa using h), nestedClass?_alone]
  · rfl

theorem imported?_alone (h : name ≠ q) {c : ClassId} {cls : Class}
    (hcls : (aloneBare name).class? c = some cls) : (aloneBare name).imported? cls q = none := by
  have himports : (aloneBare name).imports = #[[]] := rfl
  obtain ⟨-, -, -, hpackage⟩ := class?_alone hcls
  rw [imported?, himports]
  cases cls.unit with
  | zero =>
    have hsame : inPackage cls.package q = q := by rw [hpackage]; rfl
    simp [hsame, qualified?_alone, h]
  | succ u => rfl

theorem locateSimple?_alone (h : name ≠ q) (scope : Option ClassId) :
    (aloneBare name).locateSimple? q scope = none := by
  cases scope with
  | none => exact simple?_alone h
  | some c =>
    rw [locateSimple?]
    split
    · rfl
    · next cls hcls => rw [scoped?_alone h, imported?_alone h hcls, simple?_alone h]

/-- In a program of one class every other name means nothing. -/
theorem locate?_alone_eq_none (scope : Option ClassId) (h : name ≠ bareName text) :
    (aloneBare name).locate? text scope = none := by
  simp only [locate?, qualified?_alone, if_neg h]
  split
  · rfl
  · split
    · exact locateSimple?_alone h scope
    · next head rest hcut =>
      have hdescend : ∀ c, (aloneBare name).descend? c (split '.' rest) = none := by
        intro c
        obtain ⟨piece, pieces, hpieces⟩ := splitChars_eq_cons (· == '.') rest.toList
        rw [split, hpieces, List.map_cons, descend?, nestedClass?_alone]
        rfl
      have hinner : (((aloneBare name).locateSimple? head scope).bind fun c =>
          (aloneBare name).descend? c (split '.' rest)) = none :=
        Option.bind_eq_none_iff.mpr fun c _ => hdescend c
      rw [hinner]
      dsimp only
      split
      · rfl
      · next cls hcls =>
        obtain ⟨c, -, hc⟩ := Option.bind_eq_some_iff.mp hcls
        rw [(class?_alone hc).2.2.2]
        rfl

theorem locate?_alone_self (scope : Option ClassId) (hbare : bareName name = name)
    (hname : name ≠ "") : (aloneBare name).locate? name scope = some 0 := by
  simp only [locate?, hbare, qualified?_alone, String.isEmpty_iff, if_neg hname, if_true]

/-! ## Supertypes -/

/-- A class with other texts as its supertypes. -/
def extending (c : Class) (texts : List String) : Class :=
  { c with decl := { c.decl with supertypes := texts } }

theorem supertypesOf_congr {m : Model} {id : ClassId} (c : Class) {text' : String}
    (h : m.locate? text (some id) = m.locate? text' (some id)) (before after : List String) :
    supertypesOf m id (extending c (before ++ text :: after)) =
      supertypesOf m id (extending c (before ++ text' :: after)) := by
  simp only [supertypesOf, extending, List.foldl_append, List.foldl_cons, h]

/-- The text of a supertype leads to the class that its name leads to, in every program and from
every place, exactly if the name is written plainly; the class that names it then has the same
supertypes by its text and by its name. -/
theorem locate?_parsed_iff (h : parse? text = some t) (hdims : t.dims = 0) :
    ((∀ units m, ofUnits units = .ok m → ∀ scope, m.locate? text scope = m.locate? t.name scope) ↔
      NamedPlainly text) ∧
    (NamedPlainly text → ∀ (m : Model) (id : ClassId) (c : Class) (before after : List String),
      supertypesOf m id (extending c (before ++ text :: after)) =
        supertypesOf m id (extending c (before ++ t.name :: after))) := by
  have hsame : NamedPlainly text → ∀ (m : Model) scope,
      m.locate? text scope = m.locate? t.name scope := by
    intro hplain m scope
    have hbare := (bareName_eq_iff h hdims).mpr hplain
    exact locate?_of_bareName_eq (hbare.trans (bareName_name h).symm) m scope
  refine ⟨⟨?_, fun hplain units m _ => hsame hplain m⟩, ?_⟩
  · intro hall
    rw [← bareName_eq_iff h hdims]
    by_contra hne
    obtain ⟨m, hm, hnames⟩ := exists_alone t.name
    have hlocate := hall _ m hm none
    rw [hnames.locate?, hnames.locate?, locate?_alone_eq_none none (Ne.symm hne),
      locate?_alone_self none (bareName_name h) (name_ne_empty h)] at hlocate
    cases hlocate
  · intro hplain m id c before after
    exact supertypesOf_congr c (hsame hplain m (some id)) before after

/-- A supertype with points, brackets and an annotation inside its arguments only. -/
def orderText : String := "shop.Order<@Checked Item[], Map<K.V, ?>>"

theorem namedPlainly_orderText : NamedPlainly orderText := by
  have hbare : bareName orderText = "shop.Order" := by decide +kernel
  refine ⟨.inr ?_, by decide +kernel⟩
  rw [hbare]
  decide +kernel

theorem parse?_orderText : parse? orderText = some (TypeExpr.mk "shop.Order"
    [TypeExpr.mk "Item" [] 1, TypeExpr.mk "Map" [plain "K.V", plain "?"] 0] 0) := rfl

/-- The text means what the name before the bracket means. -/
theorem orderText_locate? : ∃ t, parse? orderText = some t ∧ t.dims = 0 ∧ t.name = "shop.Order" ∧
    ∀ units m, ofUnits units = .ok m →
      ∀ scope, m.locate? orderText scope = m.locate? t.name scope :=
  ⟨_, parse?_orderText, rfl, rfl, (locate?_parsed_iff parse?_orderText rfl).1.mpr
    namedPlainly_orderText⟩

/-- A generic class with a nested one, and a class that extends the nested one. -/
def leaves : List SourceUnit :=
  let outer : ClassDecl := { name := "Outer", typeParams := ["T"], nested := [{ name := "Inner" }] }
  let leaf : ClassDecl := { name := "Leaf", supertypes := ["Outer<String>.Inner"] }
  [{ path := "Outer.java", classes := [outer, leaf] }]

def leavesBare : Model := (declared leaves).withHierarchy [[], [], [0]]

theorem exists_leaves : ∃ m written, ofUnits leaves = .ok m ∧
    Finished leaves leavesBare m written := by
  have hsupers : (declared leaves).namedSupers = #[[], [], [0]] := by decide +kernel
  refine exists_finished_of_flatten ?_
  rw [hsupers]
  cbv

theorem leavesBare_spec : (leavesBare.class? 2).map (·.supertypes) = some [0] ∧
    (leavesBare.class? 2).map (·.decl.supertypes) = some ["Outer<String>.Inner"] ∧
    leavesBare.locate? "Outer<String>.Inner" (some 2) = some 0 ∧
    leavesBare.locate? "Outer.Inner" (some 2) = some 1 := by
  decide +kernel

/-- The text of a nested class of a generic one is read with the name of the nested class, but it is
looked up by the name before the bracket: the class that extends it is put below the outer class. -/
theorem leaf_below_outer : ∃ m t, ofUnits leaves = .ok m ∧
    parse? "Outer<String>.Inner" = some t ∧ t.dims = 0 ∧
    m.locate? "Outer<String>.Inner" (some 2) = some 0 ∧ m.locate? t.name (some 2) = some 1 ∧
    ∃ leaf, m.class? 2 = some leaf ∧ leaf.decl.supertypes = ["Outer<String>.Inner"] ∧
      leaf.supertypes = [0] := by
  obtain ⟨m, written, hm, h⟩ := exists_leaves
  have hnames := h.underlies.names
  have hparse : parse? "Outer<String>.Inner" =
      some (TypeExpr.mk "Outer.Inner" [plain "String"] 0) := rfl
  obtain ⟨hsupers, hdecl, houter, hinner⟩ := leavesBare_spec
  obtain ⟨leaf, hleaf, hbelow⟩ := h.underlies.exists_class? (fun _ => rfl) hsupers
  obtain ⟨leaf', hleaf', htexts⟩ := h.underlies.exists_class? (fun _ => rfl) hdecl
  obtain rfl := Option.some.inj (hleaf.symm.trans hleaf')
  refine ⟨m, _, hm, hparse, rfl, ?_, ?_, leaf, hleaf, htexts, hbelow⟩
  · rw [hnames.locate?, houter]
  · rw [hnames.locate?]
    exact hinner

end Interlock.Program.Model
