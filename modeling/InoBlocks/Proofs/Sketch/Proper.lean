import InoBlocks.Proofs.Sketch.PhraseOrigin
import InoBlocks.Proofs.Token.Firm
import InoBlocks.Sketch.Walk

/-!
# Proper expressions

An expression is proper if it is built as reading builds it: its leaves are words that the lexer
cuts, and its operators are operators.  Every expression of a phrase of firm words is proper, and
so is every part of a proper expression.
-/

namespace InoBlocks

namespace TokenKind

theorem symbol?_of_joins {kind : TokenKind} (h : kind.joins ≠ 0) :
    ∃ text, kind.symbol? = some text := by
  cases kind <;> first | exact ⟨_, rfl⟩ | exact absurd rfl h

theorem symbol?_of_isLeading {kind : TokenKind} (h : ExprGrammar.isLeading kind = true) :
    ∃ text, kind.symbol? = some text := by
  cases kind <;> first | exact ⟨_, rfl⟩ | exact absurd h (by decide)

/-- The strength that printing gives an operator is the one with which it joins. -/
theorem ofOperator_of_symbol? {kind : TokenKind} {text : String} (h : kind.symbol? = some text)
    (hlow : 1 ≤ kind.joins) (hhigh : kind.joins ≤ 7) : Binding.ofOperator text = kind.joins := by
  cases kind <;> cases h <;> first | rfl | exact absurd hlow (by decide) |
    exact absurd hhigh (by decide)

end TokenKind

namespace Expr

/-- An expression as reading builds it. -/
inductive Proper : Expr → Prop where
  | name (l : Location) {id : String} : isAnalogPin id = false → Word.Firm ⟨.identifier, id⟩ →
      Proper (.name l id)
  | pin (l : Location) {id : String} : isAnalogPin id = true → Word.Firm ⟨.identifier, id⟩ →
      Proper (.pin l id true)
  | number (l : Location) {raw : String} {value : Binary64} : Number.double? raw = some value →
      Word.Firm ⟨.number, raw⟩ → Proper (.literal l (.number value) raw)
  | string (l : Location) {raw : String} : Word.Firm ⟨.string, raw⟩ →
      Proper (.literal l (.text (ExprGrammar.unquote raw)) raw)
  | constant (l : Location) {kind : TokenKind} {text : String} : kind.namesValue = true →
      Word.Firm ⟨kind, text⟩ → Proper (.literal l (.text text) text)
  | member (l : Location) {object : Expr} {property : String} :
      Word.Firm ⟨.identifier, property⟩ → Proper object → Proper (.member l object property)
  | call (l : Location) {callee : Expr} {arguments : List Expr} : Proper callee →
      (∀ a ∈ arguments, Proper a) → Proper (.call l callee arguments)
  | step (l : Location) {kind : TokenKind} {op : String} {operand : Expr} :
      ExprGrammar.isTrailing kind = true → kind.symbol? = some op → Proper operand →
      Proper (.unary l op operand false)
  | leading (l : Location) {kind : TokenKind} {op : String} {operand : Expr} :
      ExprGrammar.isLeading kind = true → kind.symbol? = some op → Proper operand →
      Proper (.unary l op operand true)
  | binary (l : Location) {kind : TokenKind} {op : String} {left right : Expr} :
      2 ≤ kind.joins → kind.joins ≤ 7 → kind.symbol? = some op → Proper left → Proper right →
      Proper (.binary l op left right)
  | assign (l : Location) {kind : TokenKind} {op : String} {left right : Expr} :
      ExprGrammar.isAssignment kind = true → kind.symbol? = some op → Proper left →
      Proper right → Proper (.assign l op left right)

/-- The expression of a phrase of firm words is proper. -/
theorem proper_of_phrase {n : Nat} {ws : List Word} {e : Expr} (h : Phrase n ws e)
    (hfirm : ∀ w ∈ ws, w.Firm) : Proper e := by
  have hsymbol : ∀ {w : Word}, w.Firm → (∃ text, w.kind.symbol? = some text) →
      w.kind.symbol? = some w.text := by
    rintro w hw ⟨text, htext⟩
    rw [htext, hw.lexed.text_eq htext]
  induction h with
  | name l hid => exact .name l hid (hfirm _ (List.mem_singleton_self _))
  | pin l hid => exact .pin l hid (hfirm _ (List.mem_singleton_self _))
  | number l hvalue => exact .number l hvalue (hfirm _ (List.mem_singleton_self _))
  | string l raw => exact .string l (hfirm _ (List.mem_singleton_self _))
  | constant l text hkind => exact .constant l hkind (hfirm _ (List.mem_singleton_self _))
  | group _ _ _ ih => exact ih fun w hw => hfirm w (by simp [hw])
  | member l _ hproperty _ ih =>
      exact .member l (hproperty ▸ hfirm _ (by simp)) (ih fun w hw => hfirm w (by simp [hw]))
  | call l _ _ _ hlist _ ih ihs =>
      refine .call l (ih fun w hw => hfirm w (by simp [hw])) ?_
      intro e he
      obtain ⟨a, ha, rfl⟩ := List.mem_map.mp he
      exact ihs a ha fun w hw => hfirm w (by simp [Phrase.mem_of_listed hlist ha hw])
  | @step l op ws e hop _ ih =>
      have hop' := hsymbol (hfirm op (by simp))
        (TokenKind.symbol?_of_joins (by rw [TokenKind.joins_of_isTrailing hop]; decide))
      exact .step l hop hop' (ih fun w hw => hfirm w (by simp [hw]))
  | @leading l op ws e hop _ ih =>
      have hop' := hsymbol (hfirm op (by simp)) (TokenKind.symbol?_of_isLeading hop)
      exact .leading l hop hop' (ih fun w hw => hfirm w (by simp [hw]))
  | @binary l n op us vs a b hlow hhigh hop _ _ iha ihb =>
      have hop' := hsymbol (hfirm op (by simp)) (TokenKind.symbol?_of_joins (by omega))
      exact .binary l (hop ▸ hlow) (hop ▸ hhigh) hop' (iha fun w hw => hfirm w (by simp [hw]))
        (ihb fun w hw => hfirm w (by simp [hw]))
  | @assign l op us vs a b hop _ _ iha ihb =>
      have hop' := hsymbol (hfirm op (by simp))
        (TokenKind.symbol?_of_joins (by rw [TokenKind.joins_of_isAssignment hop]; decide))
      exact .assign l hop hop' (iha fun w hw => hfirm w (by simp [hw]))
        (ihb fun w hw => hfirm w (by simp [hw]))
  | loosen _ _ ih => exact ih hfirm

theorem Proper.sourceFault?_eq_none {e : Expr} (h : e.Proper) : e.sourceFault? = none := by
  induction h with
  | name | pin | number | string | constant => rfl
  | member l hfirm hobject ih => exact ih
  | @call l callee arguments hcallee hargs ih ihs =>
      have harguments : sourceFaults? arguments = none := by
        clear hargs
        induction arguments with
        | nil => rfl
        | cons e es ihes =>
            rw [sourceFaults?, ihs e List.mem_cons_self,
              ihes fun a ha => ihs a (List.mem_cons_of_mem e ha)]
            rfl
      rw [sourceFault?, harguments, ih]
      rfl
  | @step l kind op operand hop hsymbol hoperand ih =>
      rw [sourceFault?, ih]
      rfl
  | @leading l kind op operand hop hsymbol hoperand ih =>
      have hne : (op == "") = false := by
        cases kind <;> first
          | exact absurd hop (by decide)
          | (cases hsymbol
             decide)
      rw [sourceFault?, ih, hne]
      rfl
  | binary l hlow hhigh hsymbol hleft hright ihl ihr =>
      rw [sourceFault?, ihl, ihr]
      rfl
  | @assign l kind op left right hop hsymbol hleft hright ihl ihr =>
      have hstrength : ∃ n, Binding.ofOperator? op = some n := by
        cases kind <;> first
          | exact absurd hop (by decide)
          | (cases hsymbol
             exact ⟨_, rfl⟩)
      obtain ⟨n, hn⟩ := hstrength
      simp only [sourceFault?, hn, ihl, ihr]
      rfl

/-! ## Parts -/

mutual

/-- An expression and the expressions in it, each before what is in it. -/
def parts : Expr → List Expr
  | .empty => []
  | .name l id => [.name l id]
  | .literal l value raw => [.literal l value raw]
  | .pin l id analog => [.pin l id analog]
  | .member l object property => .member l object property :: object.parts
  | .call l callee arguments => .call l callee arguments :: (callee.parts ++ partsAll arguments)
  | .binary l operator left right => .binary l operator left right :: (left.parts ++ right.parts)
  | .unary l operator operand before => .unary l operator operand before :: operand.parts
  | .assign l operator left right => .assign l operator left right :: (left.parts ++ right.parts)
  | .foreign l form head value => .foreign l form head value :: value.parts

def partsAll : List Expr → List Expr
  | [] => []
  | e :: es => e.parts ++ partsAll es

end

theorem partsAll_eq_flatMap (es : List Expr) : partsAll es = es.flatMap parts := by
  induction es with
  | nil => rfl
  | cons e es ih => rw [partsAll, ih, List.flatMap_cons]

mutual

theorem walk_node (parent : Option Node) :
    ∀ e : Expr, (e.walk parent).map Visit.node = e.parts.map Node.bare
  | .empty => rfl
  | .name .. | .literal .. | .pin .. => rfl
  | .member l object property => by
      rw [walk, parts, List.map_cons, List.map_cons, walk_node]
  | .call l callee arguments => by
      rw [walk, parts, List.map_cons, List.map_cons, List.map_append, List.map_append, walk_node,
        walkAll_node]
  | .binary l operator left right => by
      rw [walk, parts, List.map_cons, List.map_cons, List.map_append, List.map_append, walk_node,
        walk_node]
  | .unary l operator operand before => by
      rw [walk, parts, List.map_cons, List.map_cons, walk_node]
  | .assign l operator left right => by
      rw [walk, parts, List.map_cons, List.map_cons, List.map_append, List.map_append, walk_node,
        walk_node]
  | .foreign l form head value => by
      rw [walk, parts, List.map_cons, List.map_cons, walk_node]

theorem walkAll_node (parent : Option Node) :
    ∀ es : List Expr, (walkAll parent es).map Visit.node = (partsAll es).map Node.bare
  | [] => rfl
  | e :: es => by
      rw [walkAll, partsAll, List.map_append, List.map_append, walk_node, walkAll_node]

end

theorem mem_parts_self {e : Expr} (h : e ≠ .empty) : e ∈ e.parts := by
  cases e <;> first | exact absurd rfl h | simp [parts]

theorem Proper.ne_empty {e : Expr} (h : Proper e) : e ≠ .empty := by
  rintro rfl
  cases h

theorem Proper.part {e : Expr} (h : Proper e) : ∀ p ∈ e.parts, Proper p := by
  induction h with
  | name l hid hfirm => simpa [parts] using .name l hid hfirm
  | pin l hid hfirm => simpa [parts] using .pin l hid hfirm
  | number l hvalue hfirm => simpa [parts] using .number l hvalue hfirm
  | string l hfirm => simpa [parts] using .string l hfirm
  | constant l hkind hfirm => simpa [parts] using .constant l hkind hfirm
  | member l hfirm hobject ih =>
      intro p hp
      rcases List.mem_cons.mp hp with rfl | hp
      · exact .member l hfirm hobject
      · exact ih p hp
  | call l hcallee hargs ih ihs =>
      intro p hp
      rw [parts, partsAll_eq_flatMap] at hp
      rcases List.mem_cons.mp hp with rfl | hp
      · exact .call l hcallee hargs
      · rcases List.mem_append.mp hp with hp | hp
        · exact ih p hp
        · obtain ⟨a, ha, hp⟩ := List.mem_flatMap.mp hp
          exact ihs a ha p hp
  | step l hop hsymbol hoperand ih =>
      intro p hp
      rcases List.mem_cons.mp hp with rfl | hp
      · exact .step l hop hsymbol hoperand
      · exact ih p hp
  | leading l hop hsymbol hoperand ih =>
      intro p hp
      rcases List.mem_cons.mp hp with rfl | hp
      · exact .leading l hop hsymbol hoperand
      · exact ih p hp
  | binary l hlow hhigh hsymbol hleft hright ihl ihr =>
      intro p hp
      rcases List.mem_cons.mp hp with rfl | hp
      · exact .binary l hlow hhigh hsymbol hleft hright
      · rcases List.mem_append.mp hp with hp | hp
        · exact ihl p hp
        · exact ihr p hp
  | assign l hop hsymbol hleft hright ihl ihr =>
      intro p hp
      rcases List.mem_cons.mp hp with rfl | hp
      · exact .assign l hop hsymbol hleft hright
      · rcases List.mem_append.mp hp with hp | hp
        · exact ihl p hp
        · exact ihr p hp

end Expr

namespace Node

/-- Whether a node is an expression of which a test holds. -/
def isBareWith (test : Expr → Bool) : Node → Bool
  | .bare e => test e
  | _ => false

theorem exists_bare {ns : List Node} {test : Expr → Bool}
    (h : ns.any (isBareWith test) = true) : ∃ e, Node.bare e ∈ ns ∧ test e = true := by
  obtain ⟨n, hn, htest⟩ := List.any_eq_true.mp h
  cases n with
  | bare e => exact ⟨e, hn, htest⟩
  | _ => cases htest

end Node

end InoBlocks
