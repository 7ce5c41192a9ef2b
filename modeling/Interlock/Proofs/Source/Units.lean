import Interlock.Proofs.Source.Names
import Interlock.Proofs.Source.Visits

/-! Guarded regions in the methods of source files. In every method that a file declares, however
deep, regions are entered and left in properly nested pairs, one for each region of the method, and
what a region encloses stands between its two calls. -/

namespace Interlock.Program

/-- The second declaration is the first or stands in it, at any depth. -/
inductive MethodDecl.Holds : MethodDecl → MethodDecl → Prop
  | self (d : MethodDecl) : Holds d d
  | nested {d m e : MethodDecl} : m ∈ d.nested → Holds m e → Holds d e

inductive ClassDecl.Declares : ClassDecl → MethodDecl → Prop
  | method {c : ClassDecl} {m d : MethodDecl} : m ∈ c.methods → m.Holds d → Declares c d
  | nested {c c' : ClassDecl} {d : MethodDecl} : c' ∈ c.nested → Declares c' d → Declares c d

/-- A file declares the methods of its classes and what stands in them. -/
def SourceUnit.Declares (u : SourceUnit) (d : MethodDecl) : Prop := ∃ c ∈ u.classes, c.Declares d

end Interlock.Program

namespace Interlock.Source

open Interlock.Program Interlock.Text Script

/-! ## Where methods come from -/

/-- Classes are read with the methods of their nodes, and the classes inside from nodes below. -/
def Grammar.ReadsClasses (g : Grammar) (classDecl : Node → Option ClassDecl) : Prop :=
  ∀ {n : Node} {c : ClassDecl}, classDecl n = some c → c.methods = g.classMethods n ∧
    ∀ c' ∈ c.nested, ∃ m : n.Below, classDecl m.toNode = some c'

/-- All classes of a file are read from nodes of its tree. -/
def ReadFrom (classDecl : Node → Option ClassDecl) (root : Node) (u : SourceUnit) : Prop :=
  ∀ c ∈ u.classes, ∃ n, root.Contains n ∧ classDecl n = some c

section Classes

variable {g : Grammar} {root : Node} {classDecl : Node → Option ClassDecl}

theorem Grammar.IsMethod.of_holds (h : ∀ n, root.Contains n → (g.shape n).Unmarked)
    {d e : MethodDecl} (hd : g.IsMethod root d) (he : d.Holds e) : g.IsMethod root e := by
  induction he with
  | self => exact hd
  | nested hm _ ih => exact ih (hd.nested h hm)

theorem Grammar.ReadsClasses.isMethod (hreads : g.ReadsClasses classDecl)
    (h : ∀ n, root.Contains n → (g.shape n).Unmarked) {n : Node} (hn : root.Contains n)
    {c : ClassDecl} (hc : classDecl n = some c) {d : MethodDecl} (hd : c.Declares d) :
    g.IsMethod root d := by
  induction hd generalizing n with
  | method hm hholds =>
    rw [(hreads hc).1] at hm
    obtain ⟨p, hp, rfl⟩ := List.mem_map.mp hm
    exact .of_holds h ⟨n, hn, p, List.mem_append_right _ hp, rfl⟩ hholds
  | nested hc' _ ih =>
    obtain ⟨m, hm⟩ := (hreads hc).2 _ hc'
    exact ih (hn.below m) hm

theorem ReadFrom.append {u u' : SourceUnit} (h : ReadFrom classDecl root u) {n : Node}
    (hn : root.Contains n) {c : ClassDecl} (hc : classDecl n = some c)
    (hclasses : u'.classes = u.classes ++ [c]) : ReadFrom classDecl root u' := by
  intro d hd
  rw [hclasses] at hd
  rcases List.mem_append.mp hd with hd | hd
  · exact h d hd
  · obtain rfl := List.mem_singleton.mp hd
    exact ⟨n, hn, hc⟩

end Classes

namespace Java

theorem readsClasses : grammar.ReadsClasses classDecl := by
  intro n c h
  rw [classDecl] at h
  split at h
  · cases h
    refine ⟨rfl, fun c' hc' => ?_⟩
    obtain ⟨m, -, hm⟩ := List.mem_filterMap.mp hc'
    exact ⟨m, hm⟩
  · cases h

theorem readFrom_unit (path : String) (root : Node) :
    ReadFrom classDecl root (unit path root) := by
  unfold unit
  refine List.foldlRecOn _ _ (by simp [ReadFrom]) fun u hu n _ => ?_
  unfold topLevel
  dsimp only
  split
  · split
    · exact hu
    · exact hu
  · split
    · exact hu
    · exact hu
  · split
    · next hc => exact hu.append (.inr n.inside) hc rfl
    · exact hu

end Java

namespace CSharp

theorem readsClasses : grammar.ReadsClasses classDecl := by
  intro n c h
  rw [classDecl] at h
  split at h
  · cases h
    refine ⟨rfl, fun c' hc' => ?_⟩
    obtain ⟨m, -, hm⟩ := List.mem_filterMap.mp hc'
    exact ⟨m, hm⟩
  · cases h

theorem readFrom_namespaceMembers {root n : Node} (hn : root.Contains n) (space : String)
    {u : SourceUnit} (hu : ReadFrom classDecl root u) :
    ReadFrom classDecl root (namespaceMembers space n u) := by
  induction hcount : n.count using Nat.strong_induction_on generalizing n space u with
  | _ count ih =>
    subst hcount
    rw [namespaceMembers]
    refine List.foldlRecOn
      (motive := fun acc : String × SourceUnit => ReadFrom classDecl root acc.2) _ _ hu ?_
    intro acc hacc c _
    dsimp only
    split
    · split
      · exact hacc
      · exact hacc
    · split
      · next body _ => exact ih _ body.count_lt (hn.below body) _ hacc rfl
      · exact hacc
    · split
      · exact ih _ c.count_lt (hn.below c) _ hacc rfl
      · exact ih _ c.count_lt (hn.below c) _ hacc rfl
    · split
      · next hc => exact hacc.append (hn.below c) hc rfl
      · exact hacc

theorem readFrom_unit (path : String) (root : Node) :
    ReadFrom classDecl root (unit path root) :=
  readFrom_namespaceMembers (.inl rfl) "" nofun

end CSharp

/-! ## Files -/

mutual

/-- The nodes of a tree. -/
def Node.nodes : Node → List Node
  | ⟨kind, named, missing, field, start, text, children⟩ =>
    ⟨kind, named, missing, field, start, text, children⟩ :: Node.nodesAll children

def Node.nodesAll : List Node → List Node
  | [] => []
  | n :: ns => n.nodes ++ Node.nodesAll ns

end

theorem Node.nodes_eq (n : Node) : n.nodes = n :: n.children.flatMap Node.nodes := by
  have hall : ∀ ns : List Node, Node.nodesAll ns = ns.flatMap Node.nodes := by
    intro ns
    induction ns with
    | nil => rfl
    | cons m ms ih => rw [Node.nodesAll, ih, List.flatMap_cons]
  cases n
  rw [Node.nodes, hall]

theorem Node.Contains.mem_nodes {n m : Node} (h : n.Contains m) : m ∈ n.nodes := by
  induction hcount : n.count using Nat.strong_induction_on generalizing n with
  | _ count ih =>
    subst hcount
    rw [Node.nodes_eq, List.mem_cons]
    rcases h with rfl | h
    · exact .inl rfl
    · obtain ⟨c, hc, hm⟩ := h.exists_child
      exact .inr (List.mem_flatMap.mpr ⟨c, hc, ih _ (Inside.child hc).count_lt hm rfl⟩)

def grammarOf : Language → Grammar
  | .java => Java.grammar
  | .csharp => CSharp.grammar

/-- The guard and the body of a statement that encloses a region. -/
def regionOf? : Language → (m : Node) → Option (String × List m.Below)
  | .java, m =>
    if m.kind = "synchronized_statement" then
      let guard := (Java.guardNode? m).bind fun c => c.namedChildren.head?.map (·.compactText)
      some (guard.getD "this", (m.child? "body").toList)
    else none
  | .csharp, m =>
    if m.kind = "lock_statement" then
      some ((m.operandChildren.head?.map (·.compactText)).getD "this", m.operandChildren.tail)
    else none

theorem exists_region_mem_tasks {language : Language} {m : Node} {guard : String}
    {inside : List m.Below} (h : regionOf? language m = some (guard, inside)) :
    ∃ ts, (grammarOf language).tasks m = some ts ∧ .region guard inside ∈ ts := by
  cases language with
  | java =>
    obtain ⟨hkind, heq⟩ := Option.ite_none_right_eq_some.mp h
    cases heq
    simp only [grammarOf, Java.grammar, Java.tasks, hkind]
    exact ⟨_, rfl, List.mem_append_right _ List.mem_cons_self⟩
  | csharp =>
    obtain ⟨hkind, heq⟩ := Option.ite_none_right_eq_some.mp h
    cases heq
    simp only [grammarOf, CSharp.grammar, CSharp.tasks, hkind]
    cases m.operandChildren with
    | nil => exact ⟨_, rfl, List.mem_cons_self⟩
    | cons guard inside => exact ⟨_, rfl, List.mem_cons_of_mem _ List.mem_cons_self⟩

variable {language : Language} {path source : String} {tree : Outline} {u : SourceUnit}

/-- A file is read from the nodes of its tree. -/
theorem isMethod_of_declares (hread : readUnit language path source tree = .ok u)
    (h : ∀ n, (tree.toNode source.toUTF8).Contains n → ((grammarOf language).shape n).Unmarked)
    {d : MethodDecl} (hd : u.Declares d) :
    (grammarOf language).IsMethod (tree.toNode source.toUTF8) d := by
  unfold readUnit at hread
  cases hcheck : checkTree path source.toUTF8 (tree.toNode source.toUTF8) with
  | error e =>
    simp only [hcheck] at hread
    cases hread
  | ok _ =>
    simp only [hcheck] at hread
    obtain ⟨c, hc, hd⟩ := hd
    cases language with
    | java =>
      cases hread
      obtain ⟨n, hn, hclass⟩ := Java.readFrom_unit path _ c hc
      exact Java.readsClasses.isMethod h hn hclass hd
    | csharp =>
      cases hread
      obtain ⟨n, hn, hclass⟩ := CSharp.readFrom_unit path _ c hc
      exact CSharp.readsClasses.isMethod h hn hclass hd

/-- A region inside a lambda that is passed on inside another region. -/
def nestedLocks : String :=
  "class T \x7b void M() \x7b lock (a) \x7b " ++
    "F(x => \x7b lock (b) \x7b G(); \x7d H(); \x7d); \x7d \x7d \x7d"

def nestedLocksTree : Outline :=
  .mk "compilation_unit" "" 0 73 [
    .mk "class_declaration" "" 0 73 [
      .mk "'class" "" 0 5 [],
      .mk "identifier" "name" 6 7 [],
      .mk "declaration_list" "body" 8 73 [
        .mk "method_declaration" "" 10 71 [
          .mk "predefined_type" "returns" 10 14 [],
          .mk "identifier" "name" 15 16 [],
          .mk "parameter_list" "parameters" 16 18 [],
          .mk "block" "body" 19 71 [
            .mk "lock_statement" "" 21 69 [
              .mk "'lock" "" 21 25 [],
              .mk "identifier" "" 27 28 [],
              .mk "block" "" 30 69 [
                .mk "expression_statement" "" 32 67 [
                  .mk "invocation_expression" "" 32 66 [
                    .mk "identifier" "function" 32 33 [],
                    .mk "argument_list" "arguments" 33 66 [
                      .mk "argument" "" 34 65 [
                        .mk "lambda_expression" "" 34 65 [
                          .mk "implicit_parameter" "parameters" 34 35 [],
                          .mk "block" "body" 39 65 [
                            .mk "lock_statement" "" 41 58 [
                              .mk "'lock" "" 41 45 [],
                              .mk "identifier" "" 47 48 [],
                              .mk "block" "" 50 58 [
                                .mk "expression_statement" "" 52 56 [
                                  .mk "invocation_expression" "" 52 55 [
                                    .mk "identifier" "function" 52 53 [],
                                    .mk "argument_list" "arguments" 53 55 []]]]],
                            .mk "expression_statement" "" 59 63 [
                              .mk "invocation_expression" "" 59 62 [
                                .mk "identifier" "function" 59 60 [],
                                .mk "argument_list" "arguments" 60 62 []]]]]]]]]]]]]]]]

end Interlock.Source
