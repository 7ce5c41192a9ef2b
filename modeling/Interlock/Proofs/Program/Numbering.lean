import Mathlib.Data.List.Nodup
import Mathlib.Data.List.Perm.Lattice
import Interlock.Program.Lookup
import Interlock.Program.Numbering

/-! Declarations are numbered from the outside in. A class stands after the class around it and a
local function after the function around it, in the same class; so following either outwards
ends. The lists of nested classes and of methods, which are written while the numbering goes on,
end up as the inverses of the two relations. -/

namespace Interlock.Program

/-- Of lists that are filed under the positions of their sources, those under one position. -/
theorem filter_flatMap_zipIdx {α β : Type} {g : α × Nat → List β} {key : β → Nat}
    (hkey : ∀ p, ∀ b ∈ g p, key b = p.2) (as : List α) (k : Nat) {i : Nat} {a : α}
    (ha : as[i]? = some a) :
    ((as.zipIdx k).flatMap g).filter (fun b => key b == k + i) = g (a, k + i) := by
  induction as generalizing k i with
  | nil => simp at ha
  | cons first as ih =>
    rw [List.zipIdx_cons, List.flatMap_cons, List.filter_append]
    cases i with
    | zero =>
      obtain rfl : first = a := by simpa using ha
      have hfirst : (g (first, k)).filter (fun b => key b == k + 0) = g (first, k) := by
        refine List.filter_eq_self.mpr fun b hb => ?_
        simp [hkey _ b hb]
      have hrest : ((as.zipIdx (k + 1)).flatMap g).filter (fun b => key b == k + 0) = [] := by
        refine List.filter_eq_nil_iff.mpr fun b hb => ?_
        obtain ⟨p, hp, hb⟩ := List.mem_flatMap.mp hb
        have hpos := List.le_snd_of_mem_zipIdx hp
        simp only [hkey p b hb, beq_iff_eq]
        omega
      rw [hfirst, hrest, List.append_nil]
      rfl
    | succ i =>
      have hfirst : (g (first, k)).filter (fun b => key b == k + (i + 1)) = [] := by
        refine List.filter_eq_nil_iff.mpr fun b hb => ?_
        simp [hkey _ b hb]
      have hnext := ih (k + 1) (by simpa using ha)
      rw [Nat.add_right_comm, Nat.add_assoc] at hnext
      rw [hfirst, List.nil_append, hnext]

/-- A modified array, element by element. -/
theorem getElem?_modify_eq_map {α : Type} (as : Array α) (i j : Nat) (f : α → α) :
    (as.modify i f)[j]? = as[j]?.map fun a => if j = i then f a else a := by
  rw [Array.getElem?_modify]
  by_cases hij : i = j
  · simp [hij]
  · simp [hij, Ne.symm hij]

theorem getElem?_push_cases {α : Type} {as : Array α} {i : Nat} {a b : α}
    (h : (as.push b)[i]? = some a) : as[i]? = some a ∨ i = as.size ∧ a = b := by
  rw [Array.getElem?_push] at h
  split at h
  · next hi => exact .inr ⟨hi, (Option.some.inj h).symm⟩
  · exact .inl h

theorem getElem?_push_of_some {α : Type} {as : Array α} {i : Nat} {a b : α}
    (h : as[i]? = some a) : (as.push b)[i]? = some a := by
  have hlt := (Array.getElem?_eq_some_iff.mp h).1
  rw [Array.getElem?_push, if_neg (Nat.ne_of_lt hlt), h]

/-! ## Numbering -/

/-- A class as it was declared, without its number and what was found out about it later. -/
def Class.declaration (c : Class) : Class :=
  { decl := c.decl
    qualifiedName := c.qualifiedName
    package := c.package
    outer := c.outer
    unit := c.unit }

namespace Numbered

variable {n n' n'' : Numbered} {cls : ClassId} {parent : Option FunctionId} {fn : Function}
  {waiting : List ClassId}

/-! ### Single steps -/

/-- The declarations of the classes numbered so far. -/
def declarations (n : Numbered) : List Class := n.classes.toList.map Class.declaration

/-- The class around a class. -/
def outer? (n : Numbered) (c : ClassId) : Option ClassId := n.classes[c]?.bind (·.outer)

/-- The class of a function. -/
def owner? (n : Numbered) (f : FunctionId) : Option ClassId := n.functions[f]?.map (·.cls)

@[simp] theorem length_declarations (n : Numbered) : n.declarations.length = n.classes.size := by
  simp [declarations]

theorem outer?_eq (n : Numbered) (c : ClassId) :
    n.outer? c = n.declarations[c]?.bind (·.outer) := by
  simp only [outer?, declarations, List.getElem?_map, Array.getElem?_toList]
  cases n.classes[c]? <;> rfl

theorem lt_size_of_outer? {c o : ClassId} (h : n.outer? c = some o) : c < n.classes.size := by
  obtain ⟨cls, hget, -⟩ := Option.bind_eq_some_iff.mp h
  exact (Array.getElem?_eq_some_iff.mp hget).1

theorem lt_size_of_owner? {f : FunctionId} {c : ClassId} (h : n.owner? f = some c) :
    f < n.functions.size := by
  obtain ⟨fn, hget, -⟩ := Option.map_eq_some_iff.mp h
  exact (Array.getElem?_eq_some_iff.mp hget).1

theorem class_numberFunction (fn : Function) (n : Numbered) (c : ClassId) :
    (n.numberFunction fn).classes[c]? = n.classes[c]?.map fun cls =>
      { cls with
        methods := if c = fn.cls then cls.methods ++ [n.functions.size] else cls.methods } := by
  simp only [numberFunction, getElem?_modify_eq_map]
  congr 1
  funext cls
  split <;> rfl

theorem class_recordNested (outer : Option ClassId) (d : ClassId) (n : Numbered) (c : ClassId) :
    (n.recordNested outer d).classes[c]? = n.classes[c]?.map fun cls =>
      { cls with nested := if outer = some c then cls.nested ++ [d] else cls.nested } := by
  cases outer with
  | none => simp [recordNested]
  | some o =>
    simp only [recordNested, getElem?_modify_eq_map, Option.some.injEq, eq_comm (a := o)]
    congr 1
    funext cls
    split <;> rfl

theorem class_of_numberFunction {c : ClassId} {cls : Class}
    (h : (n.numberFunction fn).classes[c]? = some cls) : ∃ before, n.classes[c]? = some before ∧
      { before with
        methods := if c = fn.cls then before.methods ++ [n.functions.size] else before.methods } =
          cls :=
  Option.map_eq_some_iff.mp (class_numberFunction .. ▸ h)

theorem class_of_recordNested {outer : Option ClassId} {c d : ClassId} {cls : Class}
    (h : (n.recordNested outer d).classes[c]? = some cls) : ∃ before,
      n.classes[c]? = some before ∧
      { before with nested := if outer = some c then before.nested ++ [d] else before.nested } =
        cls :=
  Option.map_eq_some_iff.mp (class_recordNested .. ▸ h)

@[simp] theorem declarations_numberFunction (fn : Function) (n : Numbered) :
    (n.numberFunction fn).declarations = n.declarations := by
  refine List.ext_getElem? fun c => ?_
  simp only [declarations, List.getElem?_map, Array.getElem?_toList, class_numberFunction,
    Option.map_map]
  rfl

@[simp] theorem declarations_recordNested (outer : Option ClassId) (d : ClassId) (n : Numbered) :
    (n.recordNested outer d).declarations = n.declarations := by
  refine List.ext_getElem? fun c => ?_
  simp only [declarations, List.getElem?_map, Array.getElem?_toList, class_recordNested,
    Option.map_map]
  rfl

@[simp] theorem declarations_numberClass (cls : Class) (n : Numbered) :
    (n.numberClass cls).declarations = n.declarations ++ [cls.declaration] := by
  simp [declarations, numberClass, Class.declaration]

theorem outer?_of_declarations (h : n'.declarations = n.declarations) (c : ClassId) :
    n'.outer? c = n.outer? c := by
  rw [outer?_eq, outer?_eq, h]

theorem outer?_numberClass (c : Class) (n : Numbered) (d : ClassId) :
    (n.numberClass c).outer? d = if d = n.classes.size then c.outer else n.outer? d := by
  simp only [outer?, numberClass, Array.getElem?_push]
  split <;> rfl

theorem owner?_numberFunction (fn : Function) (n : Numbered) (f : FunctionId) :
    (n.numberFunction fn).owner? f =
      if f = n.functions.size then some fn.cls else n.owner? f := by
  simp only [owner?, numberFunction, Array.getElem?_push]
  split <;> rfl

@[simp] theorem functions_recordNested (outer : Option ClassId) (d : ClassId) (n : Numbered) :
    (n.recordNested outer d).functions = n.functions := by
  cases outer <;> rfl

@[simp] theorem size_recordNested (outer : Option ClassId) (d : ClassId) (n : Numbered) :
    (n.recordNested outer d).classes.size = n.classes.size := by
  rw [← length_declarations, declarations_recordNested, length_declarations]

/-! ### References -/

/-- What is numbered so far carries its number, refers to earlier numbers only, and has no types
yet. -/
structure Sound (n : Numbered) : Prop where
  class_id : ∀ {c : ClassId} {cls : Class}, n.classes[c]? = some cls → cls.id = c
  function_id : ∀ {f : FunctionId} {fn : Function}, n.functions[f]? = some fn → fn.id = f
  outer_lt : ∀ {c : ClassId} {cls : Class} {o : ClassId},
    n.classes[c]? = some cls → cls.outer = some o → o < c
  cls_lt : ∀ {f : FunctionId} {fn : Function}, n.functions[f]? = some fn → fn.cls < n.classes.size
  parent : ∀ {f : FunctionId} {fn : Function} {p : FunctionId},
    n.functions[f]? = some fn → fn.parent = some p →
    p < f ∧ ∃ around, n.functions[p]? = some around ∧ around.cls = fn.cls
  fields : ∀ {c : ClassId} {cls : Class}, n.classes[c]? = some cls → cls.fields = []
  locals : ∀ {f : FunctionId} {fn : Function}, n.functions[f]? = some fn → fn.locals = []

/-- A function may be declared here: its class is numbered, and so is the function around it, in
the same class. -/
structure Admits (n : Numbered) (cls : ClassId) (parent : Option FunctionId) : Prop where
  cls_lt : cls < n.classes.size
  parent : ∀ p, parent = some p → ∃ around, n.functions[p]? = some around ∧ around.cls = cls

theorem Sound.empty : Sound {} := ⟨by simp, by simp, by simp, by simp, by simp, by simp, by simp⟩

theorem Sound.lt_of_outer? (h : n.Sound) {c o : ClassId} (ho : n.outer? c = some o) : o < c := by
  obtain ⟨cls, hget, houter⟩ := Option.bind_eq_some_iff.mp ho
  exact h.outer_lt hget houter

theorem Sound.lt_of_owner? (h : n.Sound) {f : FunctionId} {c : ClassId}
    (hc : n.owner? f = some c) : c < n.classes.size := by
  obtain ⟨fn, hget, rfl⟩ := Option.map_eq_some_iff.mp hc
  exact h.cls_lt hget

theorem Sound.numberClass (h : n.Sound) {c : Class}
    (hc : ∀ o, c.outer = some o → o < n.classes.size) (hfields : c.fields = []) :
    (n.numberClass c).Sound where
  class_id hget := by
    obtain hget | ⟨rfl, rfl⟩ := getElem?_push_cases hget
    · exact h.class_id hget
    · rfl
  function_id hget := h.function_id hget
  outer_lt hget ho := by
    obtain hget | ⟨rfl, rfl⟩ := getElem?_push_cases hget
    · exact h.outer_lt hget ho
    · exact hc _ ho
  cls_lt hget := by
    simp only [Numbered.numberClass, Array.size_push]
    exact Nat.lt_succ_of_lt (h.cls_lt hget)
  parent hget hp := h.parent hget hp
  fields hget := by
    obtain hget | ⟨-, rfl⟩ := getElem?_push_cases hget
    · exact h.fields hget
    · exact hfields
  locals hget := h.locals hget

theorem Sound.numberFunction (h : n.Sound) (ha : n.Admits fn.cls fn.parent)
    (hlocals : fn.locals = []) : (n.numberFunction fn).Sound where
  class_id hget := by
    obtain ⟨before, hbefore, rfl⟩ := class_of_numberFunction hget
    exact (h.class_id hbefore :)
  function_id hget := by
    obtain hget | ⟨rfl, rfl⟩ := getElem?_push_cases hget
    · exact h.function_id hget
    · rfl
  outer_lt hget ho := by
    obtain ⟨before, hbefore, rfl⟩ := class_of_numberFunction hget
    exact h.outer_lt hbefore ho
  cls_lt hget := by
    simp only [Numbered.numberFunction, Array.size_modify]
    obtain hget | ⟨-, rfl⟩ := getElem?_push_cases hget
    · exact h.cls_lt hget
    · exact ha.cls_lt
  parent hget hp := by
    obtain hget | ⟨rfl, rfl⟩ := getElem?_push_cases hget
    · obtain ⟨hlt, around, hget, hcls⟩ := h.parent hget hp
      exact ⟨hlt, around, getElem?_push_of_some hget, hcls⟩
    · obtain ⟨around, hget, hcls⟩ := ha.parent _ hp
      exact ⟨(Array.getElem?_eq_some_iff.mp hget).1, around, getElem?_push_of_some hget, hcls⟩
  fields hget := by
    obtain ⟨before, hbefore, rfl⟩ := class_of_numberFunction hget
    exact (h.fields hbefore :)
  locals hget := by
    obtain hget | ⟨-, rfl⟩ := getElem?_push_cases hget
    · exact h.locals hget
    · exact hlocals

theorem Sound.recordNested (h : n.Sound) (outer : Option ClassId) (d : ClassId) :
    (n.recordNested outer d).Sound where
  class_id hget := by
    obtain ⟨before, hbefore, rfl⟩ := class_of_recordNested hget
    exact (h.class_id hbefore :)
  function_id hget := h.function_id (functions_recordNested outer d n ▸ hget)
  outer_lt hget ho := by
    obtain ⟨before, hbefore, rfl⟩ := class_of_recordNested hget
    exact h.outer_lt hbefore ho
  cls_lt hget := by
    rw [size_recordNested]
    exact h.cls_lt (functions_recordNested outer d n ▸ hget)
  parent hget hp := by
    rw [functions_recordNested] at hget ⊢
    exact h.parent hget hp
  fields hget := by
    obtain ⟨before, hbefore, rfl⟩ := class_of_recordNested hget
    exact (h.fields hbefore :)
  locals hget := h.locals (functions_recordNested outer d n ▸ hget)

theorem Admits.numberFunction (h : n.Admits cls parent) (fn : Function) :
    (n.numberFunction fn).Admits cls parent where
  cls_lt := by simpa [Numbered.numberFunction] using h.cls_lt
  parent p hp := by
    obtain ⟨around, hget, hcls⟩ := h.parent p hp
    exact ⟨around, getElem?_push_of_some hget, hcls⟩

/-! ### Lists -/

/-- The lists hold what is numbered so far, each entry once. The classes in `waiting` are not
recorded yet: what is inside them is still being numbered. -/
structure Filed (waiting : List ClassId) (n : Numbered) : Prop where
  lt_size : ∀ d ∈ waiting, d < n.classes.size
  mem_nested : ∀ {c : ClassId} {cls : Class}, n.classes[c]? = some cls →
    ∀ d, d ∈ cls.nested ↔ n.outer? d = some c ∧ d ∉ waiting
  nodup_nested : ∀ {c : ClassId} {cls : Class}, n.classes[c]? = some cls → cls.nested.Nodup
  mem_methods : ∀ {c : ClassId} {cls : Class}, n.classes[c]? = some cls →
    ∀ f, f ∈ cls.methods ↔ n.owner? f = some c
  nodup_methods : ∀ {c : ClassId} {cls : Class}, n.classes[c]? = some cls → cls.methods.Nodup

theorem Filed.empty : Filed [] {} := ⟨by simp, by simp, by simp, by simp, by simp⟩

/-- A new class waits to be recorded. Its own lists are empty, as nothing refers to it. -/
theorem Filed.numberClass (h : n.Filed waiting) (hs : n.Sound) {c : Class}
    (hnested : c.nested = []) (hmethods : c.methods = []) :
    (n.numberClass c).Filed (n.classes.size :: waiting) where
  lt_size d hd := by
    simp only [Numbered.numberClass, Array.size_push]
    rcases List.mem_cons.mp hd with rfl | hd
    · exact Nat.lt_succ_self _
    · exact Nat.lt_succ_of_lt (h.lt_size d hd)
  mem_nested hget d := by
    rw [outer?_numberClass, List.mem_cons, not_or]
    obtain hget | ⟨rfl, rfl⟩ := getElem?_push_cases hget
    · rw [h.mem_nested hget]
      by_cases hd : d = n.classes.size
      · exact iff_of_false (fun ho => Nat.ne_of_lt (lt_size_of_outer? ho.1) hd) fun ho => ho.2.1 hd
      · simp [hd]
    · have hnone : n.outer? d ≠ some n.classes.size := fun ho =>
        Nat.lt_asymm (hs.lt_of_outer? ho) (lt_size_of_outer? ho)
      by_cases hd : d = n.classes.size <;> simp [hnested, hd, hnone]
  nodup_nested hget := by
    obtain hget | ⟨-, rfl⟩ := getElem?_push_cases hget
    · exact h.nodup_nested hget
    · exact hnested ▸ List.nodup_nil
  mem_methods hget f := by
    obtain hget | ⟨rfl, rfl⟩ := getElem?_push_cases hget
    · exact h.mem_methods hget f
    · refine iff_of_false (by simp [hmethods]) fun hf => ?_
      exact Nat.lt_irrefl _ (hs.lt_of_owner? hf)
  nodup_methods hget := by
    obtain hget | ⟨-, rfl⟩ := getElem?_push_cases hget
    · exact h.nodup_methods hget
    · exact hmethods ▸ List.nodup_nil

theorem Filed.numberFunction (h : n.Filed waiting) (fn : Function) :
    (n.numberFunction fn).Filed waiting := by
  have hnew : ∀ c, n.owner? n.functions.size ≠ some c := fun c hc =>
    Nat.lt_irrefl _ (lt_size_of_owner? hc)
  refine
    { lt_size := fun d hd => by simpa [Numbered.numberFunction] using h.lt_size d hd
      mem_nested := fun {c cls} hget d => ?_
      nodup_nested := fun {c cls} hget => ?_
      mem_methods := fun {c cls} hget f => ?_
      nodup_methods := fun {c cls} hget => ?_ } <;>
    obtain ⟨before, hbefore, rfl⟩ := class_of_numberFunction hget
  · rw [h.mem_nested hbefore, outer?_of_declarations (declarations_numberFunction fn n)]
  · exact (h.nodup_nested hbefore :)
  · rw [owner?_numberFunction]
    by_cases hc : c = fn.cls <;> by_cases hf : f = n.functions.size
    · simp [hc, hf]
    · simp [hc, hf, h.mem_methods (hc ▸ hbefore)]
    · simp [hc, hf, h.mem_methods hbefore, hnew, Ne.symm hc]
    · simp [hc, hf, h.mem_methods hbefore]
  · dsimp only
    split
    · rw [← List.concat_eq_append]
      exact (h.nodup_methods hbefore).concat fun hf => hnew _ ((h.mem_methods hbefore _).mp hf)
    · exact h.nodup_methods hbefore

/-- When a class is recorded in the class around it, it waits no longer; where no class is around
it, there is no list that misses it. -/
theorem Filed.recordNested {d : ClassId} (h : n.Filed (d :: waiting)) (hd : d ∉ waiting) :
    (n.recordNested (n.outer? d) d).Filed waiting := by
  refine
    { lt_size := fun e he => by simpa using h.lt_size e (List.mem_cons_of_mem d he)
      mem_nested := fun {c cls} hget e => ?_
      nodup_nested := fun {c cls} hget => ?_
      mem_methods := fun {c cls} hget f => ?_
      nodup_methods := fun {c cls} hget => ?_ } <;>
    obtain ⟨before, hbefore, rfl⟩ := class_of_recordNested hget
  · rw [outer?_of_declarations (declarations_recordNested _ d n)]
    by_cases hc : n.outer? d = some c <;> by_cases he : e = d
    · simp [hc, he, hd]
    · simp [hc, he, h.mem_nested hbefore]
    · simp [hc, he, h.mem_nested hbefore]
    · simp [hc, he, h.mem_nested hbefore]
  · dsimp only
    split
    · rw [← List.concat_eq_append]
      exact (h.nodup_nested hbefore).concat fun he =>
        ((h.mem_nested hbefore d).mp he).2 List.mem_cons_self
    · exact h.nodup_nested hbefore
  · rw [h.mem_methods hbefore, owner?, owner?, functions_recordNested]
  · exact (h.nodup_methods hbefore :)

/-! ### Functions -/

mutual

theorem declarations_addMethod (cls : ClassId) (parent : Option FunctionId) (m : MethodDecl)
    (n : Numbered) : (addMethod cls parent m n).declarations = n.declarations := by
  obtain ⟨name, returns, params, typeParams, locals, calls, nested, isAbstract, isStatic,
    isEntry⟩ := m
  rw [addMethod, declarations_addMethods, declarations_numberFunction]

theorem declarations_addMethods (cls : ClassId) (parent : Option FunctionId) (ms : List MethodDecl)
    (n : Numbered) : (addMethods cls parent ms n).declarations = n.declarations := by
  cases ms with
  | nil => rfl
  | cons m ms => rw [addMethods, declarations_addMethods, declarations_addMethod]

end

/-- What adding functions keeps: soundness, lists, and every place where functions may be
declared. -/
structure Keeps (n n' : Numbered) : Prop where
  sound : n'.Sound
  filed : ∀ {waiting}, n.Filed waiting → n'.Filed waiting
  admits : ∀ {cls parent}, n.Admits cls parent → n'.Admits cls parent

theorem Keeps.trans (h : Keeps n n') (k : Keeps n' n'') : Keeps n n'' :=
  ⟨k.sound, fun hf => k.filed (h.filed hf), fun ha => k.admits (h.admits ha)⟩

theorem numberFunction_keeps (h : n.Sound) (ha : n.Admits fn.cls fn.parent)
    (hlocals : fn.locals = []) : Keeps n (n.numberFunction fn) :=
  ⟨h.numberFunction ha hlocals, fun hf => hf.numberFunction fn, fun hb => hb.numberFunction fn⟩

mutual

theorem addMethod_keeps (m : MethodDecl) {n : Numbered} {parent : Option FunctionId}
    (h : n.Sound) (ha : n.Admits cls parent) : Keeps n (addMethod cls parent m n) := by
  obtain ⟨name, returns, params, typeParams, locals, calls, nested, isAbstract, isStatic,
    isEntry⟩ := m
  rw [addMethod]
  let fn : Function :=
    { decl := ⟨name, returns, params, typeParams, locals, calls, nested, isAbstract, isStatic,
        isEntry⟩, cls, parent, calls }
  have hself : Keeps n (n.numberFunction fn) := numberFunction_keeps h ha rfl
  -- the local functions stand inside the function that was added last
  have hinside : (n.numberFunction fn).Admits cls (some n.functions.size) :=
    ⟨(hself.admits ha).cls_lt, fun p hp => by
      cases hp
      exact ⟨{ fn with id := n.functions.size }, by simp [numberFunction], rfl⟩⟩
  exact hself.trans (addMethods_keeps nested hself.sound hinside)

theorem addMethods_keeps (ms : List MethodDecl) {n : Numbered} {parent : Option FunctionId}
    (h : n.Sound) (ha : n.Admits cls parent) : Keeps n (addMethods cls parent ms n) := by
  cases ms with
  | nil => exact ⟨h, id, id⟩
  | cons m ms =>
    rw [addMethods]
    have hfirst := addMethod_keeps m h ha
    exact hfirst.trans (addMethods_keeps ms hfirst.sound (hfirst.admits ha))

end

/-! ### Classes -/

/-- What adding classes keeps: soundness, lists, and the declarations that were there. -/
structure Grows (n n' : Numbered) : Prop where
  sound : n'.Sound
  filed : ∀ {waiting}, n.Filed waiting → n'.Filed waiting
  declarations : n.declarations <+: n'.declarations

theorem Grows.refl (h : n.Sound) : Grows n n := ⟨h, id, List.prefix_rfl⟩

theorem Grows.trans (h : Grows n n') (k : Grows n' n'') : Grows n n'' :=
  ⟨k.sound, fun hf => k.filed (h.filed hf), h.declarations.trans k.declarations⟩

theorem Keeps.grows (h : Keeps n n') (hd : n'.declarations = n.declarations) : Grows n n' :=
  ⟨h.sound, h.filed, hd ▸ List.prefix_rfl⟩

theorem Grows.size_le (h : Grows n n') : n.classes.size ≤ n'.classes.size := by
  simpa using h.declarations.length_le

/-- A class is numbered, and maybe what is inside it; it waits to be recorded in the class around
it. -/
structure Declares (place : Place) (c : ClassDecl) (n n' : Numbered) : Prop where
  sound : n'.Sound
  filed : ∀ {waiting}, n.Filed waiting → n'.Filed (n.classes.size :: waiting)
  declarations : n.declarations ++ [place.classOf c] <+: n'.declarations

namespace Declares

variable {place : Place} {c : ClassDecl}

theorem numberClass (h : n.Sound) (ho : ∀ o, place.outer = some o → o < n.classes.size) :
    Declares place c n (n.numberClass (place.classOf c)) where
  sound := h.numberClass ho rfl
  filed hf := hf.numberClass h rfl rfl
  declarations := by
    rw [declarations_numberClass]
    exact List.prefix_rfl

theorem trans (h : Declares place c n n') (k : Grows n' n'') : Declares place c n n'' :=
  ⟨k.sound, fun hf => k.filed (h.filed hf), h.declarations.trans k.declarations⟩

theorem size_lt (h : Declares place c n n') : n.classes.size < n'.classes.size := by
  simpa [Nat.succ_le_iff] using h.declarations.length_le

theorem outer? (h : Declares place c n n') : n'.outer? n.classes.size = place.outer := by
  obtain ⟨rest, heq⟩ := h.declarations
  rw [outer?_eq, ← heq, ← length_declarations]
  simp [Place.classOf]

theorem recordNested (h : Declares place c n n') :
    Grows n (n'.recordNested place.outer n.classes.size) where
  sound := h.sound.recordNested place.outer n.classes.size
  filed hf := h.outer? ▸ (h.filed hf).recordNested fun hmem =>
    Nat.lt_irrefl _ (hf.lt_size _ hmem)
  declarations := by
    rw [declarations_recordNested]
    exact (List.prefix_append _ _).trans h.declarations

end Declares

mutual

theorem addClass_declares (c : ClassDecl) (place : Place) {n : Numbered} (h : n.Sound)
    (ho : ∀ o, place.outer = some o → o < n.classes.size) :
    Declares place c n (addClass place c n) := by
  obtain ⟨name, kind, isAbstract, typeParams, supertypes, fields, constants, methods, nested⟩ := c
  rw [addClass]
  generalize ClassDecl.mk name kind isAbstract typeParams supertypes fields constants methods
    nested = c
  have hself : Declares place c n (n.numberClass (place.classOf c)) := .numberClass h ho
  have hadmits : (n.numberClass (place.classOf c)).Admits n.classes.size none :=
    ⟨hself.size_lt, by simp⟩
  have hmethods := addMethods_keeps methods hself.sound hadmits
  have hboth := hself.trans (hmethods.grows (declarations_addMethods ..))
  exact hboth.trans (addClasses_grows nested
    { place with outer := some n.classes.size, around := (place.classOf c).qualifiedName }
    hboth.sound fun o ho => Option.some.inj ho ▸ hboth.size_lt)

theorem addClasses_grows (cs : List ClassDecl) (place : Place) {n : Numbered} (h : n.Sound)
    (ho : ∀ o, place.outer = some o → o < n.classes.size) :
    Grows n (addClasses place cs n) := by
  cases cs with
  | nil => exact Grows.refl h
  | cons c cs =>
    rw [addClasses]
    have hfirst := (addClass_declares c place h ho).recordNested
    exact hfirst.trans (addClasses_grows cs place hfirst.sound fun o hp =>
      Nat.lt_of_lt_of_le (ho o hp) hfirst.size_le)

end

theorem grows_ofUnits (units : List SourceUnit) : Grows {} (ofUnits units) := by
  unfold ofUnits
  refine List.foldlRecOn units.zipIdx _ (Grows.refl Sound.empty) fun n h p _ => ?_
  exact h.trans (addClasses_grows p.1.classes _ h.sound fun o ho => by cases ho)

theorem sound_ofUnits (units : List SourceUnit) : (ofUnits units).Sound :=
  (grows_ofUnits units).sound

theorem filed_ofUnits (units : List SourceUnit) : (ofUnits units).Filed [] :=
  (grows_ofUnits units).filed Filed.empty

/-- The numbered declarations as a model in which nothing is resolved yet. -/
def toModel (n : Numbered) : Model := { classes := n.classes, functions := n.functions }

end Numbered

/-! ## Classes and functions inside others -/

namespace Model

/-- Classes and functions carry the numbers of their positions and are nested as they are
numbered. -/
structure WellNested (m : Model) : Prop where
  class_id : ∀ {c cls}, m.class? c = some cls → cls.id = c
  function_id : ∀ {f fn}, m.function? f = some fn → fn.id = f
  outer_lt : ∀ {c cls o}, m.class? c = some cls → cls.outer = some o → o < c
  mem_nested : ∀ {c cls d}, m.class? c = some cls →
    (d ∈ cls.nested ↔ ∃ inner, m.class? d = some inner ∧ inner.outer = some c)
  nodup_nested : ∀ {c cls}, m.class? c = some cls → cls.nested.Nodup
  cls_lt : ∀ {f fn}, m.function? f = some fn → fn.cls < m.classes.size
  parent : ∀ {f fn p}, m.function? f = some fn → fn.parent = some p →
    p < f ∧ ∃ around, m.function? p = some around ∧ around.cls = fn.cls
  mem_methods : ∀ {c cls f}, m.class? c = some cls →
    (f ∈ cls.methods ↔ ∃ fn, m.function? f = some fn ∧ fn.cls = c)
  nodup_methods : ∀ {c cls}, m.class? c = some cls → cls.methods.Nodup

theorem wellNested_toModel {n : Numbered} (h : n.Sound) (hf : n.Filed []) :
    n.toModel.WellNested where
  class_id hget := h.class_id hget
  function_id hget := h.function_id hget
  outer_lt hget ho := h.outer_lt hget ho
  mem_nested hget := by
    rw [hf.mem_nested hget, and_iff_left List.not_mem_nil, Numbered.outer?,
      Option.bind_eq_some_iff]
    rfl
  nodup_nested hget := hf.nodup_nested hget
  cls_lt hget := h.cls_lt hget
  parent hget hp := h.parent hget hp
  mem_methods hget := by
    rw [hf.mem_methods hget, Numbered.owner?, Option.map_eq_some_iff]
    rfl
  nodup_methods hget := hf.nodup_methods hget

/-- Every function is in exactly one list of methods, once. -/
theorem WellNested.methods_perm {m : Model} (h : m.WellNested) :
    (m.classes.toList.flatMap (·.methods)).Perm (List.range m.functions.size) := by
  have hget : ∀ {i : Nat} (hi : i < m.classes.toList.length),
      m.class? i = some m.classes.toList[i] := by
    intro i hi
    simp [class?, Array.getElem?_eq_getElem (by simpa using hi)]
  refine (List.perm_ext_iff_of_nodup ?_ List.nodup_range).mpr fun f => ?_
  · rw [List.nodup_flatMap]
    constructor
    · intro cls hcls
      obtain ⟨i, hi, rfl⟩ := List.mem_iff_getElem.mp hcls
      exact h.nodup_methods (hget hi)
    · refine List.pairwise_iff_getElem.mpr fun i j hi hj hij f hfi hfj => ?_
      obtain ⟨fn, hfn, hcls⟩ := (h.mem_methods (hget hi)).mp hfi
      obtain ⟨fn', hfn', hcls'⟩ := (h.mem_methods (hget hj)).mp hfj
      obtain rfl : fn = fn' := Option.some.inj (hfn.symm.trans hfn')
      exact Nat.ne_of_lt hij (hcls.symm.trans hcls')
  · rw [List.mem_range, List.mem_flatMap]
    constructor
    · rintro ⟨cls, hcls, hf⟩
      obtain ⟨i, hi, rfl⟩ := List.mem_iff_getElem.mp hcls
      obtain ⟨fn, hfn, -⟩ := (h.mem_methods (hget hi)).mp hf
      exact (Array.getElem?_eq_some_iff.mp hfn).1
    · intro hf
      have hfn : m.function? f = some m.functions[f] := Array.getElem?_eq_getElem hf
      have hi : m.functions[f].cls < m.classes.toList.length := by simpa using h.cls_lt hfn
      exact ⟨_, List.getElem_mem hi, (h.mem_methods (hget hi)).mpr ⟨_, hfn, rfl⟩⟩

/-! ### Steps that leave the declarations alone -/

end Model

/-- A class as it is numbered, without what resolution finds out about it. -/
def Class.outline (c : Class) : Class :=
  { c with supertypes := [], ancestors := [], fields := [], paramTypes := [], type := .unknown }

/-- A function as it is numbered, without what resolution finds out about it. -/
def Function.outline (f : Function) : Function :=
  { f with params := [], returnType := .unknown, locals := [], calls := [], isRunnable := false }

namespace Model

variable {m m' : Model}

/-- Two models with the same declarations under the same numbers. -/
structure SameOutline (m m' : Model) : Prop where
  classes : m'.classes.map Class.outline = m.classes.map Class.outline
  functions : m'.functions.map Function.outline = m.functions.map Function.outline

theorem SameOutline.trans {m'' : Model} (h : m.SameOutline m') (k : m'.SameOutline m'') :
    m.SameOutline m'' :=
  ⟨k.classes.trans h.classes, k.functions.trans h.functions⟩

theorem getElem?_of_map_eq {α β : Type} {g : α → β} {as bs : Array α}
    (h : as.map g = bs.map g) {i : Nat} {a : α} (ha : as[i]? = some a) :
    ∃ b, bs[i]? = some b ∧ g a = g b := by
  have hi := congrArg (·[i]?) h
  simp only [Array.getElem?_map, ha, Option.map_some] at hi
  obtain ⟨b, hb, heq⟩ := Option.map_eq_some_iff.mp hi.symm
  exact ⟨b, hb, heq.symm⟩

theorem SameOutline.class? (h : m.SameOutline m') {c : ClassId} {cls : Class}
    (hc : m'.class? c = some cls) : ∃ before, m.class? c = some before ∧
      cls.outer = before.outer ∧ cls.nested = before.nested ∧ cls.methods = before.methods ∧
      cls.decl = before.decl := by
  obtain ⟨before, hbefore, heq⟩ := getElem?_of_map_eq h.classes hc
  simp only [Class.outline, Class.mk.injEq] at heq
  exact ⟨before, hbefore, heq.2.2.2.1, heq.2.2.2.2.2.1, heq.2.2.2.2.2.2.1, heq.1⟩

theorem SameOutline.function? (h : m.SameOutline m') {f : FunctionId} {fn : Function}
    (hf : m'.function? f = some fn) : ∃ before, m.function? f = some before ∧
      fn.cls = before.cls ∧ fn.parent = before.parent ∧ fn.decl = before.decl := by
  obtain ⟨before, hbefore, heq⟩ := getElem?_of_map_eq h.functions hf
  simp only [Function.outline, Function.mk.injEq] at heq
  exact ⟨before, hbefore, heq.2.1, heq.2.2.1, heq.1⟩

theorem SameOutline.symm (h : m.SameOutline m') : m'.SameOutline m :=
  ⟨h.classes.symm, h.functions.symm⟩

theorem SameOutline.size_classes (h : m.SameOutline m') : m'.classes.size = m.classes.size := by
  simpa using congrArg Array.size h.classes

theorem WellNested.congr (h : m.WellNested) (hs : m.SameOutline m') : m'.WellNested where
  class_id hget := by
    obtain ⟨before, hbefore, heq⟩ := getElem?_of_map_eq hs.classes hget
    exact (congrArg Class.id heq :).trans (h.class_id hbefore :)
  function_id hget := by
    obtain ⟨before, hbefore, heq⟩ := getElem?_of_map_eq hs.functions hget
    exact (congrArg Function.id heq :).trans (h.function_id hbefore :)
  outer_lt hget ho := by
    obtain ⟨before, hbefore, houter, -⟩ := hs.class? hget
    exact h.outer_lt hbefore (houter ▸ ho)
  mem_nested hget := by
    obtain ⟨before, hbefore, -, hnested, -⟩ := hs.class? hget
    rw [hnested, h.mem_nested hbefore]
    constructor
    · rintro ⟨inner, hinner, houter⟩
      obtain ⟨after, hafter, hsame, -⟩ := hs.symm.class? hinner
      exact ⟨after, hafter, hsame ▸ houter⟩
    · rintro ⟨inner, hinner, houter⟩
      obtain ⟨earlier, hearlier, hsame, -⟩ := hs.class? hinner
      exact ⟨earlier, hearlier, hsame ▸ houter⟩
  nodup_nested hget := by
    obtain ⟨before, hbefore, -, hnested, -⟩ := hs.class? hget
    exact hnested ▸ h.nodup_nested hbefore
  cls_lt hget := by
    obtain ⟨before, hbefore, hcls, -⟩ := hs.function? hget
    rw [hcls, hs.size_classes]
    exact h.cls_lt hbefore
  parent hget hp := by
    obtain ⟨before, hbefore, hcls, hparent, -⟩ := hs.function? hget
    obtain ⟨hlt, around, haround, hsame⟩ := h.parent hbefore (hparent ▸ hp)
    obtain ⟨after, hafter, hcls', -⟩ := hs.symm.function? haround
    exact ⟨hlt, after, hafter, by rw [hcls, ← hsame, hcls']⟩
  mem_methods hget := by
    obtain ⟨before, hbefore, -, -, hmethods, -⟩ := hs.class? hget
    rw [hmethods, h.mem_methods hbefore]
    constructor
    · rintro ⟨fn, hfn, hcls⟩
      obtain ⟨after, hafter, hsame, -⟩ := hs.symm.function? hfn
      exact ⟨after, hafter, hsame ▸ hcls⟩
    · rintro ⟨fn, hfn, hcls⟩
      obtain ⟨earlier, hearlier, hsame, -⟩ := hs.function? hfn
      exact ⟨earlier, hearlier, hsame ▸ hcls⟩
  nodup_methods hget := by
    obtain ⟨before, hbefore, -, -, hmethods, -⟩ := hs.class? hget
    exact hmethods ▸ h.nodup_methods hbefore

/-! ### Ways outwards end -/

/-- As much fuel as the number of the class is enough. -/
theorem WellNested.outerChainAt_eq (h : m.WellNested) {fuel : Nat} {c : ClassId}
    (hfuel : c ≤ fuel) : m.outerChainAt fuel c = m.outerChainAt c c := by
  induction c using Nat.strongRecOn generalizing fuel with
  | ind c ih =>
    cases fuel with
    | zero =>
      obtain rfl : c = 0 := Nat.le_zero.mp hfuel
      rfl
    | succ fuel =>
      cases houter : (m.class? c).bind (·.outer) with
      | none => cases c <;> simp [outerChainAt, houter]
      | some o =>
        obtain ⟨cls, hcls, ho⟩ := Option.bind_eq_some_iff.mp houter
        have hlt := h.outer_lt hcls ho
        cases c with
        | zero => exact absurd hlt (Nat.not_lt_zero o)
        | succ c =>
          simp only [outerChainAt, houter]
          rw [ih o hlt (Nat.le_of_lt_succ (Nat.lt_of_lt_of_le hlt hfuel)),
            ih o hlt (Nat.le_of_lt_succ hlt)]

/-- The chain of a class leads on from the class around it until there is none. -/
theorem WellNested.outerChain_eq (h : m.WellNested) {c : ClassId} {cls : Class}
    (hc : m.class? c = some cls) :
    m.outerChain c = c :: (cls.outer.map m.outerChain).getD [] := by
  have hlt : c < m.classes.size := (Array.getElem?_eq_some_iff.mp hc).1
  obtain ⟨fuel, hsize⟩ := Nat.exists_eq_succ_of_ne_zero (Nat.ne_zero_of_lt hlt)
  cases houter : cls.outer with
  | none => simp [outerChain, hsize, outerChainAt, hc, houter]
  | some o =>
    have ho : o ≤ fuel := Nat.le_of_lt_succ
      (Nat.lt_of_lt_of_le (h.outer_lt hc houter) (hsize ▸ Nat.le_of_lt hlt))
    have hchain : m.outerChain o = m.outerChainAt fuel o := by
      rw [outerChain, hsize, h.outerChainAt_eq ho, h.outerChainAt_eq (Nat.le_succ_of_le ho)]
    rw [Option.map_some, Option.getD_some, hchain, outerChain, hsize]
    simp only [outerChainAt, hc, houter, Option.bind_some]

/-- One more than the number of the function is enough fuel. -/
theorem WellNested.localAt?_eq (h : m.WellNested) (name : String) {fuel : Nat} {f : FunctionId}
    (hfuel : f < fuel) : m.localAt? name fuel f = m.localAt? name (f + 1) f := by
  induction f using Nat.strongRecOn generalizing fuel with
  | ind f ih =>
    obtain ⟨fuel, rfl⟩ := Nat.exists_eq_succ_of_ne_zero (Nat.ne_zero_of_lt hfuel)
    simp only [localAt?]
    cases hf : m.function? f with
    | none => rfl
    | some fn =>
      dsimp only
      cases fn.localType? name with
      | some ty => rfl
      | none =>
        cases hp : fn.parent with
        | none => rfl
        | some p =>
          have hlt := (h.parent hf hp).1
          simp only [Option.bind_some]
          rw [ih p hlt (Nat.lt_of_lt_of_le hlt (Nat.le_of_lt_succ hfuel)), ih p hlt hlt]

/-- A local name is looked for in a function, then in the one around it until there is none. -/
theorem WellNested.local?_eq (h : m.WellNested) (name : String) {f : FunctionId} {fn : Function}
    (hf : m.function? f = some fn) :
    m.local? f name = (fn.localType? name).or (fn.parent.bind fun p => m.local? p name) := by
  have hlt : f < m.functions.size := (Array.getElem?_eq_some_iff.mp hf).1
  rw [local?, h.localAt?_eq name (Nat.lt_succ_of_lt hlt)]
  simp only [localAt?, hf]
  cases fn.localType? name with
  | some ty => rfl
  | none =>
    cases hp : fn.parent with
    | none => rfl
    | some p =>
      have hpf := (h.parent hf hp).1
      simp only [Option.bind_some, Option.none_or, local?]
      rw [h.localAt?_eq name hpf, h.localAt?_eq name (Nat.lt_succ_of_lt (Nat.lt_trans hpf hlt))]

end Model

end Interlock.Program
