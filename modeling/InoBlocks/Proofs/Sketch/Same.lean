import InoBlocks.Proofs.Sketch.Placeless
import InoBlocks.Sketch.Outline

/-!
# Sketches that are the same

Two trees are compared part by part, without their places.  They are the same exactly if nothing
tells them apart once the places are forgotten, and then they have the same outline.
-/

namespace InoBlocks

/-! ## Comparing -/

namespace Expr

mutual

theorem same_iff : ∀ e e' : Expr, e.same e' = true ↔ e.forget = e'.forget
  | empty, e' => by cases e' <;> simp [same, forget]
  | name l id, e' => by cases e' <;> simp [same, forget]
  | literal l value raw, e' => by cases e' <;> simp [same, forget]
  | pin l id analog, e' => by cases e' <;> simp [same, forget]
  | member l object property, e' => by
      have ih := same_iff object
      cases e' <;> simp [same, forget, ih]
  | call l callee arguments, e' => by
      have ih := same_iff callee
      have ihs := sameList_iff arguments
      cases e' <;> simp [same, forget, ih, ihs]
  | binary l operator left right, e' => by
      have ihl := same_iff left
      have ihr := same_iff right
      cases e' <;> simp [same, forget, ihl, ihr, and_assoc]
  | unary l operator operand before, e' => by
      have ih := same_iff operand
      cases e' <;> simp [same, forget, ih, and_assoc]
  | assign l operator left right, e' => by
      have ihl := same_iff left
      have ihr := same_iff right
      cases e' <;> simp [same, forget, ihl, ihr, and_assoc]
  | foreign l form head value, e' => by
      have ih := same_iff value
      cases e' <;> simp [same, forget, ih, and_assoc]

theorem sameList_iff :
    ∀ es es' : List Expr, sameList es es' = true ↔ forgetList es = forgetList es'
  | [], es' => by cases es' <;> simp [sameList, forgetList]
  | e :: es, es' => by
      have ih := same_iff e
      have ihs := sameList_iff es
      cases es' <;> simp [sameList, forgetList, ih, ihs]

end

@[simp] theorem form_forget (e : Expr) : e.forget.form = e.form := by
  cases e <;> rfl

end Expr

namespace Parameter

theorem same_iff (p q : Parameter) : p.same q = true ↔ p.forget = q.forget := by
  cases p
  cases q
  simp [same, forget]

end Parameter

namespace Node

mutual

theorem same_iff : ∀ n n' : Node, n.same n' = true ↔ n.forget = n'.forget
  | empty, n' => by cases n' <;> simp [same, forget]
  | program l body, n' => by
      have ih := sameList_iff body
      cases n' <;> simp [same, forget, ih]
  | function l name returnType parameters body, n' => by
      have ih := same_iff body
      cases n' <;> simp [same, forget, ih, and_assoc]
  | parameter p, n' => by
      have ih := p.same_iff
      cases n' <;> simp [same, forget, ih]
  | declaration l type name value, n' => by
      have ih := value.same_iff
      cases n' <;> simp [same, forget, ih, and_assoc]
  | block l body, n' => by
      have ih := sameList_iff body
      cases n' <;> simp [same, forget, ih]
  | branch l test consequent alternative, n' => by
      have iht := test.same_iff
      have ihc := same_iff consequent
      have iha := same_iff alternative
      cases n' <;> simp [same, forget, iht, ihc, iha, and_assoc]
  | forLoop l init test update body, n' => by
      have ihi := same_iff init
      have iht := test.same_iff
      have ihu := update.same_iff
      have ihb := same_iff body
      cases n' <;> simp [same, forget, ihi, iht, ihu, ihb, and_assoc]
  | whileLoop l test body, n' => by
      have iht := test.same_iff
      have ihb := same_iff body
      cases n' <;> simp [same, forget, iht, ihb]
  | exit l value, n' => by
      have ih := value.same_iff
      cases n' <;> simp [same, forget, ih]
  | effect l value, n' => by
      have ih := value.same_iff
      cases n' <;> simp [same, forget, ih]
  | bare value, n' => by
      have ih := value.same_iff
      cases n' <;> simp [same, forget, ih]

theorem sameList_iff :
    ∀ ns ns' : List Node, sameList ns ns' = true ↔ forgetList ns = forgetList ns'
  | [], ns' => by cases ns' <;> simp [sameList, forgetList]
  | n :: ns, ns' => by
      have ih := same_iff n
      have ihs := sameList_iff ns
      cases ns' <;> simp [sameList, forgetList, ih, ihs]

end

/-! ## Outlines -/

theorem parameterList_forget (ps : List Parameter) :
    parameterList (ps.map Parameter.forget) = parameterList ps := by
  simp [parameterList, Parameter.forget, Function.comp_def]

mutual

theorem outlineAt_forget (indent : String) :
    ∀ (depth : Nat) (n : Node), outlineAt indent depth n.forget = outlineAt indent depth n
  | depth, empty => rfl
  | depth, program l body => by simp [forget, outlineAt, outlineAll_forget indent _ body]
  | depth, function l name returnType parameters body => by
      simp [forget, outlineAt, parameterList_forget, outlineAt_forget indent _ body]
  | depth, parameter p => rfl
  | depth, declaration l type name value => by
      have hsource := source_forget (.declaration l type name value)
      simp only [forget] at hsource
      simp [forget, outlineAt, hsource]
  | depth, block l body => by simp [forget, outlineAt, outlineAll_forget indent _ body]
  | depth, branch l test consequent alternative => by
      simp [forget, outlineAt, outlineAt_forget indent _ consequent,
        outlineAt_forget indent _ alternative]
  | depth, forLoop l init test update body => by
      simp [forget, outlineAt, source_forget, outlineAt_forget indent _ body]
  | depth, whileLoop l test body => by
      simp [forget, outlineAt, outlineAt_forget indent _ body]
  | depth, exit l value => by simp [forget, outlineAt]
  | depth, effect l value => by simp [forget, outlineAt]
  | depth, bare e => by simp [forget, outlineAt]

theorem outlineAll_forget (indent : String) :
    ∀ (depth : Nat) (ns : List Node), outlineAll indent depth (forgetList ns) = outlineAll indent depth ns
  | depth, [] => rfl
  | depth, n :: ns => by
      simp [forgetList, outlineAll, outlineAt_forget indent depth n, outlineAll_forget indent depth ns]

end

mutual

theorem outlineFault?_forget : ∀ n : Node, n.forget.outlineFault? = n.outlineFault?
  | empty => rfl
  | program l body => by simp [forget, outlineFault?, outlineFaults?_forget body]
  | function l name returnType parameters body => by
      simp [forget, outlineFault?, outlineFault?_forget body]
  | parameter p => rfl
  | declaration l type name value => by simp [forget, outlineFault?]
  | block l body => by simp [forget, outlineFault?, outlineFaults?_forget body]
  | branch l test consequent alternative => by
      simp [forget, outlineFault?, outlineFault?_forget consequent,
        outlineFault?_forget alternative]
  | forLoop l init test update body => by
      simp [forget, outlineFault?, sourceFault?_forget, outlineFault?_forget body]
  | whileLoop l test body => by simp [forget, outlineFault?, outlineFault?_forget body]
  | exit l value => by simp [forget, outlineFault?]
  | effect l value => by simp [forget, outlineFault?]
  | bare e => by simp [forget, outlineFault?]

theorem outlineFaults?_forget : ∀ ns : List Node, outlineFaults? (forgetList ns) = outlineFaults? ns
  | [] => rfl
  | n :: ns => by
      simp [forgetList, outlineFaults?, outlineFault?_forget n, outlineFaults?_forget ns]

end

end Node

end InoBlocks
