import InoBlocks.Proofs.Sketch.SketchOrigin

/-!
# The statements and expressions of a sketch

What a sketch is made of, as it is read from any text: functions and declarations whose statements
have the parts that their form asks for, even where faults were recovered from.  Every expression
that occurs in them is proper, because all of its words are firm.
-/

namespace InoBlocks

open Read ExprGrammar

attribute [grind =] Node.walk Node.walkAll

namespace Node

def Proper (n : Node) : Prop :=
  ∀ parent e, Node.bare e ∈ (n.walk parent).map Visit.node → e.Proper

end Node

namespace Expr

def ProperIfAny (e : Expr) : Prop :=
  e = .empty ∨ e.Proper

theorem ProperIfAny.walk {e : Expr} (h : e.ProperIfAny) (parent : Option Node) {e' : Expr}
    (he : Node.bare e' ∈ (e.walk parent).map Visit.node) : e'.Proper := by
  rw [walk_node, List.mem_map] at he
  obtain ⟨p, hp, heq⟩ := he
  obtain rfl : p = e' := by cases heq; rfl
  rcases h with rfl | h
  · cases hp
  · exact h.part p hp

end Expr

namespace Node

theorem proper_empty : Proper .empty := by
  intro parent e he
  cases he

theorem proper_bare {e : Expr} (h : e.ProperIfAny) : Proper (.bare e) :=
  fun parent _ he => h.walk parent he

theorem proper_effect {l : Location} {e : Expr} (h : e.ProperIfAny) : Proper (.effect l e) := by
  intro parent e' he
  rw [walk, List.map_cons, List.mem_cons] at he
  rcases he with he | he
  · cases he
  · exact h.walk _ he

theorem proper_exit {l : Location} {e : Expr} (h : e.ProperIfAny) : Proper (.exit l e) := by
  intro parent e' he
  rw [walk, List.map_cons, List.mem_cons] at he
  rcases he with he | he
  · cases he
  · exact h.walk _ he

theorem proper_declaration {l : Location} {type name : String} {e : Expr} (h : e.ProperIfAny) :
    Proper (.declaration l type name e) := by
  intro parent e' he
  rw [walk, List.map_cons, List.mem_cons] at he
  rcases he with he | he
  · cases he
  · exact h.walk _ he

theorem proper_whileLoop {l : Location} {test : Expr} {body : Node} (htest : test.ProperIfAny)
    (hbody : Proper body) : Proper (.whileLoop l test body) := by
  intro parent e he
  simp only [walk, List.map_cons, List.map_append, List.mem_cons, List.mem_append] at he
  rcases he with he | he | he
  · cases he
  · exact htest.walk _ he
  · exact hbody _ e he

theorem proper_branch {l : Location} {test : Expr} {consequent alternative : Node}
    (htest : test.ProperIfAny) (hthen : Proper consequent) (helse : Proper alternative) :
    Proper (.branch l test consequent alternative) := by
  intro parent e he
  simp only [walk, List.map_cons, List.map_append, List.mem_cons, List.mem_append] at he
  rcases he with he | (he | he) | he
  · cases he
  · exact htest.walk _ he
  · exact hthen _ e he
  · exact helse _ e he

theorem proper_forLoop {l : Location} {init body : Node} {test update : Expr}
    (hinit : Proper init) (htest : test.ProperIfAny) (hupdate : update.ProperIfAny)
    (hbody : Proper body) : Proper (.forLoop l init test update body) := by
  intro parent e he
  simp only [walk, List.map_cons, List.map_append, List.mem_cons, List.mem_append] at he
  rcases he with he | ((he | he) | he) | he
  · cases he
  · exact hinit _ e he
  · exact htest.walk _ he
  · exact hupdate.walk _ he
  · exact hbody _ e he

theorem walkAll_eq_flatMap (parent : Option Node) (ns : List Node) :
    walkAll parent ns = ns.flatMap (walk parent) := by
  induction ns with
  | nil => rfl
  | cons n ns ih => rw [walkAll, ih, List.flatMap_cons]

theorem proper_walkAll {ns : List Node} (h : ∀ n ∈ ns, Proper n) (parent : Option Node)
    {e : Expr} (he : Node.bare e ∈ (walkAll parent ns).map Visit.node) : e.Proper := by
  rw [walkAll_eq_flatMap, List.map_flatMap, List.mem_flatMap] at he
  obtain ⟨n, hn, he⟩ := he
  exact h n hn parent e he

theorem proper_block {l : Location} {body : List Node} (h : ∀ n ∈ body, Proper n) :
    Proper (.block l body) := by
  intro parent e he
  rw [walk, List.map_cons, List.mem_cons] at he
  rcases he with he | he
  · cases he
  · exact proper_walkAll h _ he

theorem proper_function {l : Location} {name type : String} {ps : List Parameter} {body : Node}
    (h : Proper body) : Proper (.function l name type ps body) := by
  intro parent e he
  simp only [walk, List.map_cons, List.map_append, List.map_map, List.mem_cons,
    List.mem_append, List.mem_map, Function.comp_apply] at he
  rcases he with he | ⟨p, -, he⟩ | he
  · cases he
  · cases he
  · exact h _ e (List.mem_map.mpr he)

end Node

/-! ## The shape of what is read -/

namespace Node

/-- What stands first in the header of a loop, as the grammar reads it. -/
inductive IsInit : Node → Prop where
  | absent : IsInit .empty
  | declaration (l : Location) (type name : String) {e : Expr} (h : e.ProperIfAny) :
      IsInit (.declaration l type name e)
  | bare {e : Expr} (h : e.Proper) : IsInit (.bare e)

/-- A statement as the grammar reads it.  Where a statement inside another could not be read,
there is none. -/
inductive IsStatement : Node → Prop where
  | effect (l : Location) {e : Expr} (h : e.Proper) : IsStatement (.effect l e)
  | exit (l : Location) {e : Expr} (h : e.ProperIfAny) : IsStatement (.exit l e)
  | declaration (l : Location) (type name : String) {e : Expr} (h : e.ProperIfAny) :
      IsStatement (.declaration l type name e)
  | block (l : Location) {body : List Node} (h : ∀ n ∈ body, IsStatement n) :
      IsStatement (.block l body)
  | branch (l : Location) {test : Expr} {consequent alternative : Node} (htest : test.Proper)
      (hthen : consequent ≠ .empty → IsStatement consequent)
      (helse : alternative ≠ .empty → IsStatement alternative) :
      IsStatement (.branch l test consequent alternative)
  | forLoop (l : Location) {init body : Node} {test update : Expr} (hinit : init.IsInit)
      (htest : test.ProperIfAny) (hupdate : update.ProperIfAny)
      (hbody : body ≠ .empty → IsStatement body) :
      IsStatement (.forLoop l init test update body)
  | whileLoop (l : Location) {test : Expr} {body : Node} (htest : test.Proper)
      (hbody : body ≠ .empty → IsStatement body) : IsStatement (.whileLoop l test body)

/-- What stands beside others at the top of a sketch, as the grammar reads it. -/
inductive IsTopLevel : Node → Prop where
  | function (l : Location) (name type : String) (ps : List Parameter) {body : Node}
      (h : body.IsStatement) : IsTopLevel (.function l name type ps body)
  | declaration (l : Location) (type name : String) {e : Expr} (h : e.ProperIfAny) :
      IsTopLevel (.declaration l type name e)

theorem IsInit.proper {n : Node} (h : n.IsInit) : n.Proper := by
  cases h with
  | absent => exact proper_empty
  | declaration l type name h => exact proper_declaration h
  | bare h => exact proper_bare (Or.inr h)

theorem IsInit.sourceFault?_eq_none {n : Node} (h : n.IsInit) : n.sourceFault? = none := by
  cases h with
  | absent => rfl
  | declaration l type name h =>
      rcases h with rfl | h
      · rfl
      · exact h.sourceFault?_eq_none
  | bare h => exact h.sourceFault?_eq_none

theorem proper_of_ne_empty {n : Node} (h : n ≠ .empty → n.Proper) : n.Proper := by
  by_cases hn : n = .empty
  · exact hn ▸ proper_empty
  · exact h hn

theorem IsStatement.proper {n : Node} (h : n.IsStatement) : n.Proper := by
  induction h with
  | effect l h => exact proper_effect (Or.inr h)
  | exit l h => exact proper_exit h
  | declaration l type name h => exact proper_declaration h
  | block l h ih => exact proper_block ih
  | branch l htest hthen helse ihthen ihelse =>
      exact proper_branch (Or.inr htest) (proper_of_ne_empty ihthen) (proper_of_ne_empty ihelse)
  | forLoop l hinit htest hupdate hbody ih =>
      exact proper_forLoop hinit.proper htest hupdate (proper_of_ne_empty ih)
  | whileLoop l htest hbody ih => exact proper_whileLoop (Or.inr htest) (proper_of_ne_empty ih)

theorem IsTopLevel.proper {n : Node} (h : n.IsTopLevel) : n.Proper := by
  cases h with
  | function l name type ps h => exact proper_function h.proper
  | declaration l type name h => exact proper_declaration h

end Node

/-! ## What is read from tokens -/

section Origin

variable {ts : List Token}

theorem Expr.IsReadIn.proper {e : Expr} (h : e.IsReadIn ts) : e.Proper := by
  obtain ⟨us, -, hfirm, hphrase⟩ := h
  refine proper_of_phrase hphrase fun w hw => ?_
  obtain ⟨t, ht, rfl⟩ := List.mem_map.mp hw
  exact hfirm t ht

theorem Expr.IsReadIfAny.properIfAny {e : Expr} (h : e.IsReadIfAny ts) : e.ProperIfAny :=
  h.imp_right Expr.IsReadIn.proper

namespace Node

theorem IsInitIn.isInit {n : Node} (h : n.IsInitIn ts) : n.IsInit := by
  cases h with
  | absent => exact .absent
  | declaration l _ h => exact .declaration l _ _ h.properIfAny
  | bare h => exact .bare h.proper

theorem IsStatementIn.isStatement {n : Node} (h : n.IsStatementIn ts) : n.IsStatement := by
  induction h with
  | effect l h => exact .effect l h.proper
  | exit l h => exact .exit l h.properIfAny
  | declaration l _ h => exact .declaration l _ _ h.properIfAny
  | block l _ ih => exact .block l ih
  | branch l htest _ _ ihthen ihelse => exact .branch l htest.proper ihthen ihelse
  | forLoop l hinit htest hupdate _ ih =>
      exact .forLoop l hinit.isInit htest.properIfAny hupdate.properIfAny ih
  | whileLoop l htest _ ih => exact .whileLoop l htest.proper ih

theorem IsTopLevelIn.isTopLevel {n : Node} (h : n.IsTopLevelIn ts) : n.IsTopLevel := by
  cases h with
  | function l _ _ _ _ h => exact .function l _ _ _ h.isStatement
  | declaration l _ h => exact .declaration l _ _ h.properIfAny

end Node

end Origin

namespace Grammar

/-- A sketch, as it is read from any text, is made of functions and declarations. -/
theorem isTopLevel_of_mem_body {source file : String} {limit : Nat} {n : Node}
    (hn : n ∈ (parse source file limit).program.body) : n.IsTopLevel :=
  (isTopLevelIn_of_mem_body hn).isTopLevel

/-- Every expression that occurs in a sketch, as it is read from a text, is proper. -/
theorem proper_of_mem_walk {source file : String} {limit : Nat} {e : Expr}
    (he : Node.bare e ∈ ((parse source file limit).program.walk).map Visit.node) : e.Proper := by
  have hbody : ∀ n ∈ (parse source file limit).program.body, n.Proper :=
    fun n hn => (isTopLevel_of_mem_body hn).proper
  rw [Program.walk, Program.toNode, Node.walk, List.map_cons, List.mem_cons] at he
  rcases he with he | he
  · cases he
  · exact Node.proper_walkAll hbody _ he

end Grammar

end InoBlocks
