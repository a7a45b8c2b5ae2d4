import InoBlocks.Proofs.Code.Gives
import InoBlocks.Proofs.Sketch.Proper
import InoBlocks.Sketch.Blocks

/-!
# Expressions coded

What comes of an expression that is made a block and then code again, said directly: `coded` is
the text, with the strength with which it binds, and the two steps together give just that.
-/

namespace InoBlocks

open Code

namespace Expr

def rawOperand (code : String) : Operand :=
  if Text.trimmed code == "" then ⟨"0", Binding.primary⟩
  else ⟨Text.trimmed code, rawBinding (Text.trimmed code).toList⟩

def numberOperand (raw : String) : Operand :=
  ⟨Numeral.ofField (some raw) "0" .none,
    if Value.isSigned (Numeral.ofField (some raw) "0" .none) then Binding.leading
    else Binding.primary⟩

def isTextBlock (text raw : String) : Bool :=
  !(text == "true" || text == "false" || Blocks.isState text || Blocks.isMode text) &&
    raw.toList.head? == some '"'

def textOperand (text raw : String) : Operand :=
  if text == "true" || text == "false" then ⟨text, Binding.primary⟩
  else if isTextBlock text raw then ⟨quoteText text, Binding.primary⟩
  else rawOperand raw

def pinText (default : String) (argument : Expr) (coded : Operand) : String :=
  match argument with
  | .literal _ (.number _) raw => Numeral.ofField (some raw) default Shape.pinLimits
  | .literal _ (.text text) raw =>
      if isTextBlock text raw then Shape.typedPin (some text) default else coded.text
  | _ => coded.text

/-- The pin that stands in for one that cannot be read, if a call asks for a pin. -/
def pinDefault? : String → Option String
  | "digitalRead" => some "2"
  | "analogRead" => some "A0"
  | _ => none

def hasBlock (id : String) (count : Nat) : Bool :=
  match Blocks.valueCall? id with
  | some (_, names) => count == names.length
  | none => false

mutual

/-- The code that comes of an expression by way of blocks. -/
def coded : Expr → Operand
  | .empty => rawOperand ""
  | .name _ id => ⟨safeName id unnamed, Binding.primary⟩
  | .literal _ (.number _) raw => numberOperand raw
  | .literal _ (.text text) raw => textOperand text raw
  | .pin _ id _ => rawOperand id
  | .call l callee arguments =>
      match callee with
      | .name _ id =>
          if hasBlock id arguments.length then
            ⟨Value.callText id (codedArguments (pinDefault? id) arguments), Binding.trailing⟩
          else rawOperand (Expr.call l callee arguments).source
      | .member _ (.name _ "Serial") method =>
          if (Blocks.serialQuery? method).isSome && arguments.isEmpty then
            ⟨Value.callText ("Serial." ++ method) [], Binding.trailing⟩
          else rawOperand (Expr.call l callee arguments).source
      | _ => rawOperand (Expr.call l callee arguments).source
  | .binary _ operator left right =>
      let strength := Binding.ofOperator operator
      ⟨guarded left.coded.text left.coded.binding strength ++ " " ++ operator ++ " " ++
        guarded right.coded.text right.coded.binding (strength + 1), strength⟩
  | .unary l operator operand before =>
      if operator == "!" && before then
        ⟨"!" ++ guarded operand.coded.text operand.coded.binding Binding.leading, Binding.leading⟩
      else rawOperand (Expr.unary l operator operand before).source
  | .member l object property => rawOperand (Expr.member l object property).source
  | .assign l operator left right => rawOperand (Expr.assign l operator left right).source
  | .foreign l form head value => rawOperand (Expr.foreign l form head value).source

/-- The codes of arguments; those of a call that asks for pins, as pins. -/
def codedArguments (pin? : Option String) : List Expr → List String
  | [] => []
  | e :: es =>
      (match pin? with
        | some default => pinText default e e.coded
        | none => e.coded.text) :: codedArguments pin? es

end

def numberText (default : String) (limits : Limits) (argument : Expr) : String :=
  match argument with
  | .literal _ (.number _) raw => Numeral.ofField (some raw) default limits
  | _ => argument.coded.text

/-! ## Blocks give that code -/

/-- An expression has a block, and its code is the expression coded. -/
def GivesCoded (e : Expr) : Prop :=
  ∃ b, Blocks.expression? e = some b ∧ Gives (part b).value e.coded [] []

theorem part_value {type : String} {template : Shape → Gen Operand} (htype : type ≠ "")
    (htemplate : Value.template? type = some template) (fields : List (String × String))
    (is : List Input) :
    (part (.ofTexts type fields is)).value =
      template ⟨type, fields.map fun f => (f.1, .text f.2), slots is⟩ :=
  Shape.operand_eq htype htemplate

theorem part_value_raw (code : String) :
    Gives (part (.rawExpression code)).value (rawOperand code) [] [] := by
  rw [Block.rawExpression, part_value (by decide) rfl, rawOperand]
  change Gives (if Text.trimmed code == "" then _ else _) _ _ _
  split
  · exact .pure _
  · exact .pure _

/-- A literal that is no number is a text, a truth value or raw text. -/
theorem literal_cases (text raw : String) :
    (isTextBlock text raw = true ∧
      Blocks.literal (.text text) raw = .ofTexts "text" [("TEXT", text)] [] ∧
      textOperand text raw = ⟨quoteText text, Binding.primary⟩) ∨
    (isTextBlock text raw = false ∧
      ((∃ value, Blocks.literal (.text text) raw = .truth value ∧
        text = (if value then "true" else "false") ∧
        textOperand text raw = ⟨text, Binding.primary⟩) ∨
      Blocks.literal (.text text) raw = .rawExpression raw ∧
        textOperand text raw = rawOperand raw)) := by
  by_cases htrue : text = "true"
  · subst htrue
    exact Or.inr ⟨rfl, Or.inl ⟨true, rfl, rfl, rfl⟩⟩
  by_cases hfalse : text = "false"
  · subst hfalse
    exact Or.inr ⟨rfl, Or.inl ⟨false, rfl, rfl, rfl⟩⟩
  cases hblock : isTextBlock text raw
  · refine Or.inr ⟨rfl, Or.inr ⟨?_, ?_⟩⟩
    · simp [isTextBlock, htrue, hfalse] at hblock
      simp [Blocks.literal, htrue, hfalse]
      grind
    · simp [textOperand, htrue, hfalse, hblock]
  · refine Or.inl ⟨rfl, ?_, ?_⟩
    · simp [isTextBlock, htrue, hfalse] at hblock
      simp [Blocks.literal, htrue, hfalse]
      grind
    · simp [textOperand, htrue, hfalse, hblock]

theorem part_value_literal (value : LiteralValue) (raw : String) :
    Gives (part (Blocks.literal value raw)).value
      (match value with
        | .number _ => numberOperand raw
        | .text text => textOperand text raw) [] [] := by
  cases value with
  | number x => exact .pure (numberOperand raw)
  | text text =>
      dsimp only
      rcases literal_cases text raw with ⟨-, hblock, htext⟩ | ⟨-, ⟨value, hblock, rfl, htext⟩ |
        ⟨hblock, htext⟩⟩
      · rw [hblock, htext]
        exact .pure _
      · rw [hblock, htext]
        cases value <;> exact .pure _
      · rw [hblock, htext]
        exact part_value_raw raw

/-! ## Calls -/

/-- The template of a call that has a value: for pins, or with an input for each argument. -/
theorem template?_of_valueCall? {id type : String} {names : List String}
    (h : Blocks.valueCall? id = some (type, names)) :
    type ≠ "" ∧ type ≠ "text" ∧ type ≠ "math_number" ∧ names.Nodup ∧
      ((∃ inputs, inputs.map Prod.fst = names ∧ pinDefault? id = none ∧
        (Value.template? type = some (Value.call id inputs) ∨
          Value.template? type = some (Value.mathCall id inputs))) ∨
      ∃ default, names = ["PIN"] ∧ pinDefault? id = some default ∧
        Value.template? type = some (Value.pinCall id default)) := by
  unfold Blocks.valueCall? at h
  split at h <;> cases h <;> refine ⟨by decide, by decide, by decide, by decide, ?_⟩
  · exact Or.inr ⟨_, rfl, rfl, rfl⟩
  · exact Or.inr ⟨_, rfl, rfl, rfl⟩
  · exact Or.inl ⟨_, rfl, rfl, Or.inl rfl⟩
  · exact Or.inl ⟨_, rfl, rfl, Or.inl rfl⟩
  · exact Or.inl ⟨_, rfl, rfl, Or.inl rfl⟩
  · exact Or.inl ⟨_, rfl, rfl, Or.inl rfl⟩
  · exact Or.inl ⟨_, rfl, rfl, Or.inl rfl⟩
  · exact Or.inl ⟨_, rfl, rfl, Or.inr rfl⟩
  · exact Or.inl ⟨_, rfl, rfl, Or.inr rfl⟩
  · exact Or.inl ⟨[], rfl, rfl, Or.inl rfl⟩
  · exact Or.inl ⟨[], rfl, rfl, Or.inl rfl⟩
  · exact Or.inl ⟨_, rfl, rfl, Or.inl rfl⟩

/-- Each of several names stands for the block of the argument in its place. -/
theorem lookup_inputs {names : List String} {es : List Expr} (hnodup : names.Nodup)
    (hgives : ∀ e ∈ es, GivesCoded e) :
    ∀ p ∈ names.zip es, ∃ b, Blocks.expression? p.2 = some b ∧
      Gives (part b).value p.2.coded [] [] ∧
      (slots (Blocks.inputs names es)).lookup p.1 = some [part b] := by
  induction names generalizing es with
  | nil => simp
  | cons name names ih =>
      cases es with
      | nil => simp
      | cons e es =>
          obtain ⟨b, hb, hvalue⟩ := hgives e List.mem_cons_self
          have hslots : slots (Blocks.inputs (name :: names) (e :: es)) =
              (name, [part b]) :: slots (Blocks.inputs names es) := by
            rw [Blocks.inputs, hb]
            rfl
          intro p hp
          rw [List.zip_cons_cons, List.mem_cons] at hp
          rw [hslots]
          rcases hp with rfl | hp
          · exact ⟨b, hb, hvalue, List.lookup_cons_self⟩
          · have hne : (p.1 == name) = false := by
              rw [beq_eq_false_iff_ne]
              rintro hname
              exact (List.nodup_cons.mp hnodup).1 (hname ▸ (List.of_mem_zip hp).1)
            obtain ⟨b', hb', hvalue', hlookup⟩ := ih (List.nodup_cons.mp hnodup).2
              (fun a ha => hgives a (List.mem_cons_of_mem e ha)) p hp
            refine ⟨b', hb', hvalue', ?_⟩
            rw [List.lookup_cons, hne]
            exact hlookup

/-- The values of inputs that hold the blocks of arguments. -/
theorem gives_values {s : Shape} {inputs : List (String × String)} {es : List Expr}
    (hlength : es.length = inputs.length)
    (h : ∀ p ∈ (inputs.map Prod.fst).zip es, ∃ b, Gives (part b).value p.2.coded [] [] ∧
      s.slots.lookup p.1 = some [part b]) :
    Gives (inputs.mapM fun input => s.value input.1 input.2) (codedArguments none es) [] [] := by
  induction inputs generalizing es with
  | nil =>
      obtain rfl := List.eq_nil_of_length_eq_zero hlength
      exact .pure _
  | cons input inputs ih =>
      cases es with
      | nil => simp at hlength
      | cons e es =>
          obtain ⟨b, hvalue, hlookup⟩ := h (input.1, e) (by simp)
          have hchain : s.chain input.1 = [part b] := by rw [Shape.chain, hlookup]; rfl
          have hrest : Gives (inputs.mapM fun input => s.value input.1 input.2)
              (codedArguments none es) [] [] :=
            ih (by simpa using hlength) fun p hp => h p (by simp [hp])
          rw [List.mapM_cons]
          exact (Shape.gives_value hchain hvalue _ _).bind (hrest.map _)

theorem expression?_call {l : Location} {callee : Expr} {arguments : List Expr} {b : Block}
    (h : Blocks.expression? (.call l callee arguments) = some b) :
    (∃ l' id type names, callee = .name l' id ∧ Blocks.valueCall? id = some (type, names) ∧
      arguments.length = names.length ∧
      b = .ofTexts type [] (Blocks.inputs names arguments)) ∨
    (∃ type, (Blocks.serialMethod? callee).bind Blocks.serialQuery? = some type ∧
      arguments = [] ∧ b = .ofTexts type [] []) ∨
    b = .rawExpression (Expr.call l callee arguments).source := by
  rw [Blocks.expression?.eq_def] at h
  dsimp only at h
  split at h
  · split at h
    · rename_i _ l' id _ type names hcall
      split at h
      · rename_i hlength
        cases h
        exact Or.inl ⟨l', id, type, names, rfl, hcall, hlength, rfl⟩
      · cases h
        exact Or.inr (Or.inr rfl)
    · cases h
      exact Or.inr (Or.inr rfl)
  · split at h
    · rename_i type hquery
      cases h
      exact Or.inr (Or.inl ⟨type, hquery, rfl, rfl⟩)
    · cases h
      exact Or.inr (Or.inr rfl)

theorem plain_of_serialQuery? {method type : String} (h : Blocks.serialQuery? method = some type) :
    type ≠ "text" ∧ type ≠ "math_number" := by
  unfold Blocks.serialQuery? at h
  split at h <;> cases h <;> exact ⟨by decide, by decide⟩

theorem plain_of_operator? {operator type name : String}
    (h : Block.operator? operator = some (type, name)) :
    type ≠ "text" ∧ type ≠ "math_number" := by
  obtain ⟨table, htable, hname⟩ := List.exists_of_findSome?_eq_some h
  obtain ⟨_, -, hpair⟩ := Option.map_eq_some_iff.mp hname
  cases hpair
  simp only [Block.operatorTables, List.mem_cons, List.not_mem_nil, or_false] at htable
  rcases htable with rfl | rfl | rfl <;> exact ⟨by simp, by simp⟩

theorem plain_of_expression? {e : Expr} {b : Block} (h : Blocks.expression? e = some b)
    (he : ∀ l value raw, e ≠ .literal l value raw) : b.type ≠ "text" ∧ b.type ≠ "math_number" := by
  have hraw : ∀ code, (Block.rawExpression code).type ≠ "text" ∧
      (Block.rawExpression code).type ≠ "math_number" := by
    intro code
    exact ⟨by simp [Block.rawExpression, Block.ofTexts, Block.type],
      by simp [Block.rawExpression, Block.ofTexts, Block.type]⟩
  cases e with
  | empty => cases h
  | literal l value raw => exact absurd rfl (he l value raw)
  | call l callee arguments =>
      rcases expression?_call h with ⟨_, _, _, _, _, hcall, _, rfl⟩ | ⟨_, hquery, _, rfl⟩ | rfl
      · obtain ⟨-, htext, hnumber, -⟩ := template?_of_valueCall? hcall
        exact ⟨htext, hnumber⟩
      · obtain ⟨method, -, hmethod⟩ := Option.bind_eq_some_iff.mp hquery
        exact plain_of_serialQuery? hmethod
      · exact hraw _
  | binary l operator left right =>
      rw [Blocks.expression?] at h
      split at h
      · rename_i hoperator
        cases h
        exact plain_of_operator? hoperator
      · cases h
        exact hraw _
  | unary l operator operand before =>
      rw [Blocks.expression?] at h
      split at h
      · cases h
        exact ⟨by simp [Block.ofTexts, Block.type], by simp [Block.ofTexts, Block.type]⟩
      · cases h
        exact hraw _
  | name l id =>
      cases h
      exact ⟨by simp [Block.variableGet, Block.ofTexts, Block.type],
        by simp [Block.variableGet, Block.ofTexts, Block.type]⟩
  | _ =>
      cases h
      exact hraw _

theorem part_type (b : Block) : (part b).type = b.type := by
  cases b
  rfl

theorem gives_number_plain {s : Shape} {part : Part} {operand : Operand} {name : String}
    (hchain : s.chain name = [part]) (htype : part.type ≠ "math_number")
    (hvalue : Gives part.value operand [] []) (default : String) (limits : Limits) :
    Gives (s.number name default limits) operand.text [] [] := by
  have htarget : Gives (s.target name) (some part) [] [] := by
    rw [Shape.target, hchain]
    exact .pure _
  refine htarget.bind (f := _) ?_
  simp only [beq_eq_false_iff_ne.mpr htype]
  exact hvalue.map _

theorem gives_pin_plain {s : Shape} {part : Part} {operand : Operand}
    (hchain : s.chain "PIN" = [part]) (htype : part.type ≠ "text" ∧ part.type ≠ "math_number")
    (hvalue : Gives part.value operand [] []) (default : String) :
    Gives (s.pin default) operand.text [] [] := by
  have htarget : Gives (s.target "PIN") (some part) [] [] := by
    rw [Shape.target, hchain]
    exact .pure _
  refine htarget.bind (f := _) ?_
  simp only [beq_eq_false_iff_ne.mpr htype.1]
  exact gives_number_plain hchain htype.2 hvalue default Shape.pinLimits

/-- A literal that is no number does not become one. -/
theorem type_literal_text_ne (text raw : String) :
    (Blocks.literal (.text text) raw).type ≠ "math_number" := by
  rcases literal_cases text raw with ⟨-, h, -⟩ | ⟨-, ⟨value, h, -⟩ | ⟨h, -⟩⟩ <;> rw [h] <;>
    simp [Block.truth, Block.rawExpression, Block.ofTexts, Block.type]

theorem gives_number {s : Shape} {name : String} {e : Expr} {b : Block}
    (hchain : s.chain name = [part b]) (hb : Blocks.expression? e = some b)
    (hvalue : Gives (part b).value e.coded [] []) (default : String) (limits : Limits) :
    Gives (s.number name default limits) (numberText default limits e) [] [] := by
  unfold numberText
  split
  · rename_i l x raw
    cases hb
    have htarget : Gives (s.target name) (some (part (Blocks.literal (.number x) raw))) [] [] := by
      rw [Shape.target, hchain]
      exact .pure _
    exact htarget.bind (f := _) (.pure _)
  · rename_i hnumber
    refine gives_number_plain hchain ?_ hvalue default limits
    rw [part_type]
    by_cases hliteral : ∃ l text raw, e = .literal l (.text text) raw
    · obtain ⟨l, text, raw, rfl⟩ := hliteral
      cases hb
      exact type_literal_text_ne text raw
    · refine (plain_of_expression? hb ?_).2
      rintro l (x | text) raw rfl
      · exact hnumber l x raw rfl
      · exact hliteral ⟨l, text, raw, rfl⟩

theorem gives_pin {s : Shape} {e : Expr} {b : Block} (hchain : s.chain "PIN" = [part b])
    (hb : Blocks.expression? e = some b) (hvalue : Gives (part b).value e.coded [] [])
    (default : String) : Gives (s.pin default) (pinText default e e.coded) [] [] := by
  have htarget : Gives (s.target "PIN") (some (part b)) [] [] := by
    rw [Shape.target, hchain]
    exact .pure _
  by_cases hliteral : ∃ l value raw, e = .literal l value raw
  · obtain ⟨l, value, raw, rfl⟩ := hliteral
    cases hb
    cases value with
    | number x => exact htarget.bind (f := _) (htarget.bind (f := _) (.pure _))
    | text t =>
        rw [pinText]
        rcases literal_cases t raw with ⟨htext, hblock, -⟩ | ⟨htext, hother⟩
        · rw [if_pos htext]
          rw [hblock] at htarget
          exact htarget.bind (f := _) (.pure _)
        · rw [if_neg (by simp [htext])]
          have hplain : (Blocks.literal (.text t) raw).type ≠ "text" ∧
              (Blocks.literal (.text t) raw).type ≠ "math_number" := by
            rcases hother with ⟨value, hblock, -⟩ | ⟨hblock, -⟩ <;> rw [hblock] <;>
              simp [Block.truth, Block.rawExpression, Block.ofTexts, Block.type]
          rw [← part_type] at hplain
          exact gives_pin_plain hchain hplain hvalue default
  · have hplain := plain_of_expression? hb fun l value raw he => hliteral ⟨l, value, raw, he⟩
    rw [← part_type] at hplain
    have htext : pinText default e e.coded = e.coded.text := by
      unfold pinText
      split
      · exact absurd ⟨_, _, _, rfl⟩ hliteral
      · exact absurd ⟨_, _, _, rfl⟩ hliteral
      · rfl
    rw [htext]
    exact gives_pin_plain hchain hplain hvalue default

/-- The template of a call that has a value gives the call with the arguments coded. -/
theorem gives_call {id type : String} {names : List String} {es : List Expr}
    (hcall : Blocks.valueCall? id = some (type, names)) (hlength : es.length = names.length)
    (hgives : ∀ e ∈ es, GivesCoded e) :
    Gives (part (.ofTexts type [] (Blocks.inputs names es))).value
      ⟨Value.callText id (codedArguments (pinDefault? id) es), Binding.trailing⟩ [] [] := by
  obtain ⟨htype, -, -, hnodup, htemplate⟩ := template?_of_valueCall? hcall
  have hlookup := lookup_inputs hnodup hgives
  rcases htemplate with ⟨inputs, rfl, hpin, htemplate⟩ | ⟨default, rfl, hpin, htemplate⟩
  · have hvalues := gives_values (s := ⟨type, [], slots (Blocks.inputs (inputs.map Prod.fst) es)⟩)
      (by simpa using hlength) fun p hp => (hlookup p hp).imp fun b hb => hb.2
    rw [hpin]
    rcases htemplate with htemplate | htemplate
    · rw [part_value htype htemplate]
      exact hvalues.map _
    · rw [part_value htype htemplate]
      exact Gives.needMath.bind (hvalues.map _)
  · obtain ⟨e, rfl⟩ := List.length_eq_one_iff.mp hlength
    obtain ⟨b, hb, hvalue, hslot⟩ := hlookup ("PIN", e) (by simp)
    rw [part_value htype htemplate, hpin]
    have hchain : Shape.chain ⟨type, [], slots (Blocks.inputs ["PIN"] [e])⟩ "PIN" = [part b] := by
      rw [Shape.chain, hslot]
      rfl
    exact (gives_pin hchain hb hvalue default).map _

theorem gives_query {method type : String} (h : Blocks.serialQuery? method = some type) :
    Gives (part (.ofTexts type [] [])).value
      ⟨Value.callText ("Serial." ++ method) [], Binding.trailing⟩ [] [] := by
  unfold Blocks.serialQuery? at h
  split at h <;> cases h <;> exact .pure _

/-! ## Operators -/

/-- An operator between two operands has a block, whose template gives the operator back. -/
theorem template?_of_operator? {kind : TokenKind} {op : String} (hsymbol : kind.symbol? = some op)
    (hlow : 2 ≤ kind.joins) (hhigh : kind.joins ≤ 7) :
    ∃ type name default, Block.operator? op = some (type, name) ∧ type ≠ "" ∧
      ∀ is, (part (.ofTexts type [("OP", name)] is)).value =
        Value.infixed (op, Binding.ofOperator op) default
          ⟨type, [("OP", .text name)], slots is⟩ := by
  cases kind <;> cases hsymbol <;> first
    | exact absurd hlow (by decide)
    | exact absurd hhigh (by decide)
    | exact ⟨_, _, _, rfl, by decide, fun is => rfl⟩

theorem call_givesCoded (l : Location) (callee : Expr) {arguments : List Expr}
    (hargs : ∀ a ∈ arguments, GivesCoded a) : GivesCoded (.call l callee arguments) := by
  have hraw : Blocks.expression? (.call l callee arguments) =
        some (.rawExpression (Expr.call l callee arguments).source) →
      (Expr.call l callee arguments).coded = rawOperand (Expr.call l callee arguments).source →
      GivesCoded (.call l callee arguments) := by
    intro hb hcoded
    exact ⟨_, hb, hcoded ▸ part_value_raw _⟩
  by_cases hname : ∃ l' id, callee = .name l' id
  · obtain ⟨l', id, rfl⟩ := hname
    cases hcall : Blocks.valueCall? id with
    | none =>
        apply hraw
        · simp only [Blocks.expression?, hcall]
        · rw [coded, if_neg (by simp [hasBlock, hcall])]
    | some block =>
        obtain ⟨type, names⟩ := block
        by_cases hlength : arguments.length = names.length
        · refine ⟨.ofTexts type [] (Blocks.inputs names arguments), ?_, ?_⟩
          · simp only [Blocks.expression?, hcall, if_pos hlength]
          · rw [coded, if_pos (by simp [hasBlock, hcall, hlength])]
            exact gives_call hcall hlength hargs
        · apply hraw
          · simp only [Blocks.expression?, hcall, if_neg hlength]
          · rw [coded, if_neg (by simp [hasBlock, hcall, hlength])]
  · by_cases hserial : ∃ l' l'' method, callee = .member l' (.name l'' "Serial") method
    · obtain ⟨l', l'', method, rfl⟩ := hserial
      cases hquery : Blocks.serialQuery? method with
      | none =>
          apply hraw
          · simp only [Blocks.expression?, Blocks.serialMethod?, Option.bind_some, hquery]
          · rw [coded, if_neg (by simp [hquery])]
      | some type =>
          cases arguments with
          | nil =>
              refine ⟨.ofTexts type [] [], ?_, ?_⟩
              · simp only [Blocks.expression?, Blocks.serialMethod?, Option.bind_some, hquery]
              · rw [coded, if_pos (by simp [hquery])]
                exact gives_query hquery
          | cons a as =>
              apply hraw
              · simp only [Blocks.expression?, Blocks.serialMethod?, Option.bind_some, hquery]
              · rw [coded, if_neg (by simp)]
    · have hmethod : Blocks.serialMethod? callee = none := by
        unfold Blocks.serialMethod?
        split
        · exact absurd ⟨_, _, _, rfl⟩ hserial
        · rfl
      apply hraw
      · rw [Blocks.expression?.eq_def]
        dsimp only
        split
        · exact absurd ⟨_, _, rfl⟩ hname
        · rw [hmethod]
          rfl
      · rw [coded.eq_def]
        dsimp only
        split
        · exact absurd ⟨_, _, rfl⟩ hname
        · exact absurd ⟨_, _, _, rfl⟩ hserial
        · rfl

theorem Proper.givesCoded {e : Expr} (h : e.Proper) : GivesCoded e := by
  induction h with
  | name l hid hfirm => exact ⟨_, rfl, .pure _⟩
  | pin l hid hfirm => exact ⟨_, rfl, part_value_raw _⟩
  | number l hvalue hfirm => exact ⟨_, rfl, part_value_literal _ _⟩
  | string l hfirm => exact ⟨_, rfl, part_value_literal _ _⟩
  | constant l hkind hfirm => exact ⟨_, rfl, part_value_literal _ _⟩
  | member l hfirm hobject ih => exact ⟨_, rfl, part_value_raw _⟩
  | call l hcallee hargs ih ihs => exact call_givesCoded l _ ihs
  | @step l kind op operand hop hsymbol hoperand ih =>
      refine ⟨_, by rw [Blocks.expression?, if_neg (by simp)], ?_⟩
      rw [coded, if_neg (by simp)]
      exact part_value_raw _
  | @leading l kind op operand hop hsymbol hoperand ih =>
      by_cases hnot : op = "!"
      · subst hnot
        obtain ⟨b, hb, hgives⟩ := ih
        refine ⟨_, by rw [Blocks.expression?, if_pos (by simp), hb], ?_⟩
        rw [coded, if_pos (by simp)]
        exact (Shape.gives_value rfl hgives _ _).map _
      · refine ⟨_, by rw [Blocks.expression?, if_neg (by simp [hnot])], ?_⟩
        rw [coded, if_neg (by simp [hnot])]
        exact part_value_raw _
  | @binary l kind op left right hlow hhigh hsymbol hleft hright ihl ihr =>
      obtain ⟨type, name, default, hoperator, htype, hvalue⟩ :=
        template?_of_operator? hsymbol hlow hhigh
      obtain ⟨b, hb, hgives⟩ := ihl
      obtain ⟨b', hb', hgives'⟩ := ihr
      refine ⟨_, by rw [Blocks.expression?, hoperator, hb, hb'], ?_⟩
      rw [hvalue, coded]
      let s : Shape := ⟨type, [("OP", .text name)],
        slots [Blocks.valueInput "A" (some b), Blocks.valueInput "B" (some b')]⟩
      have hl : s.chain "A" = [Code.part b] := rfl
      have hr : s.chain "B" = [Code.part b'] := rfl
      exact (Shape.gives_value hl hgives _ _).bind ((Shape.gives_value hr hgives' _ _).map _)
  | assign l hop hsymbol hleft hright ihl ihr => exact ⟨_, rfl, part_value_raw _⟩

end Expr

end InoBlocks
