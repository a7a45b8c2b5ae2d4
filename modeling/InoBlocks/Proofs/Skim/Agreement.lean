import InoBlocks.Proofs.Sketch.Placeless
import InoBlocks.Proofs.Skim.PlainFunctions
import InoBlocks.Proofs.Skim.PlainWords

/-!
# Both readers agree on plain sketches

The words of a plain sketch are two functions whose bodies are shallow, so that the grammar reads
it without a report.  What it makes of the sketch becomes the blocks of the sketch, and so does what
is skimmed from it.
-/

namespace InoBlocks

namespace Plain

open Word Grammar

/-! ## Plain sketches as words -/

def countTest (bound : Integer) : Expr :=
  infixExpr "<" counter (.integer bound)

def countStep : Expr :=
  .unary default "++" counter.expr false

theorem countTest_phrase (bound : Integer) :
    Phrase 1 (infixWords "<" counter (.integer bound)) (countTest bound) :=
  infix_phrase less_mem counter (.integer bound)

theorem countStep_phrase : Phrase 1 [counter.word, symbol .increment] countStep := by
  have hstep := Phrase.step_symbol default (show ExprGrammar.isTrailing .increment = true from rfl)
    (show TokenKind.increment.symbol? = some "++" from rfl)
    (counter.phrase.loosenTo (by decide) (by decide))
  exact hstep.loosenTo (Nat.le_refl 1) (by decide)

/-! ### Statements -/

namespace Header

def kind : Header → TokenKind
  | branch _ => .ifWord
  | whileLoop _ => .whileWord
  | forLoop _ => .forWord

def insideWords : Header → List Word
  | branch test => test.words
  | whileLoop test => test.words
  | forLoop bound => countWords bound

def words (h : Header) (items : List (List Word × Node)) : List Word :=
  ⟨h.kind, h.word⟩ :: symbol .leftParen :: h.insideWords ++ symbol .rightParen :: bracedWords items

def node (h : Header) (body : Node) : Node :=
  match h with
  | branch test => .branch default test.expr body .empty
  | whileLoop test => .whileLoop default test.expr body
  | forLoop bound =>
      .forLoop default (.declaration default "int" "i" zero.expr) (countTest bound) countStep body

theorem firm (h : Header) : Word.Firm ⟨h.kind, h.word⟩ := by
  have hwords : ∀ e ∈ [(TokenKind.ifWord, "if"), (.whileWord, "while"), (.forWord, "for")],
      TokenKind.ofWord e.2 = e.1 ∧ e.2.toList.head?.any Text.isNameStart = true ∧
        e.2.toList.tail.all Text.isNameChar = true := by
    decide
  obtain ⟨hkind, hhead, htail⟩ := hwords (h.kind, h.word) (by cases h <;> simp [kind, word])
  exact firm_ofWord hkind hhead htail

theorem inside_reads : ∀ h : Header, ReadsAs h.inside h.insideWords (tail true)
  | branch test => spelling_reads test.spelling
  | whileLoop test => spelling_reads test.spelling
  | forLoop bound => count_reads bound

theorem line_reads (h : Header) : ReadsAlone h.line
    (⟨h.kind, h.word⟩ :: symbol .leftParen :: h.insideWords ++
      [symbol .rightParen, symbol .leftBrace]) :=
  header_reads h.firm (by cases h <;> rfl) h.inside_reads

/-- A statement with one body is as shallow as its body, but for two levels. -/
theorem shallow (h : Header) {n : Nat} (hn : 4 ≤ n) {items : List (List Word × Node)}
    (hitems : ∀ a ∈ items, Shallow n a.1 a.2) :
    Shallow (n + 2) (h.words items) (h.node (.block default (items.map Prod.snd))) := by
  cases h with
  | branch test =>
      exact .branch default default items test.phrase (test.length_words.trans hn) hitems
  | whileLoop test =>
      exact .whileLoop default default items test.phrase (test.length_words.trans hn) hitems
  | forLoop bound =>
      refine .forLoop default default default "i" items (.one rfl)
        (zero.phrase.loosenTo (Nat.le_refl 1) (by decide)) ?_ (countTest_phrase bound) ?_
        countStep_phrase ?_ hitems
      · exact Nat.le_trans (show 1 ≤ 4 by decide) hn
      · exact Nat.le_trans (show 3 ≤ 4 by decide) hn
      · exact Nat.le_trans (show 2 ≤ 4 by decide) hn

end Header

def choiceWords (test : Condition) (items others : List (List Word × Node)) : List Word :=
  (Header.branch test).words items ++ ⟨.elseWord, "else"⟩ :: bracedWords others

def Steps.items : Steps → List (List Word × Node)
  | done => []
  | simple s next => (s.words ++ [symbol .semicolon], .effect default s.expr) :: next.items
  | compound h body next =>
      (h.words body.items, h.node (.block default (body.items.map Prod.snd))) :: next.items
  | choice test body otherwise next =>
      (choiceWords test body.items otherwise.items,
        .branch default test.expr (.block default (body.items.map Prod.snd))
          (.block default (otherwise.items.map Prod.snd))) :: next.items

theorem laid_reads : ∀ (p : Steps) {t : List Char}, Laid p.lines t →
    ReadsAlone t (p.items.flatMap Prod.fst)
  | .done, t, h => by
      cases h with
      | done hgap => exact .layout hgap _
  | .simple s next, t, h => by
      cases h with
      | line hgap h => exact (ReadsAs.layout hgap _).seq (s.line_reads.seq (laid_reads next h))
  | .compound h body next, t, hlaid => by
      obtain ⟨gap, inside, rest, hgap, hinside, hrest, rfl⟩ := Laid.exists_compound hlaid
      have hbody := (laid_reads body hinside).seq (brace_reads.seq (laid_reads next hrest))
      have hall := (ReadsAs.layout hgap fun _ => false).seq (h.line_reads.seq hbody)
      simpa [Steps.items, Header.words, bracedWords] using hall
  | .choice test body otherwise next, t, hlaid => by
      obtain ⟨gap, inside, inside', rest, hgap, hinside, hinside', hrest, rfl⟩ :=
        Laid.exists_alternative hlaid
      have hothers := (laid_reads otherwise hinside').seq (brace_reads.seq (laid_reads next hrest))
      have hbody := (laid_reads body hinside).seq (else_reads.seq hothers)
      have hline := (Header.branch test).line_reads
      rw [show (Header.branch test).line = headerChars "if" test.chars from rfl] at hline
      have hall := (ReadsAs.layout hgap fun _ => false).seq (hline.seq hbody)
      simpa [Steps.items, choiceWords, Header.words, bracedWords] using hall

/-- Statements that lie in one another less deep than there are levels are shallow. -/
theorem shallow_items : ∀ (p : Steps) {d : Nat}, p.depth ≤ d →
    ∀ a ∈ p.items, Shallow (2 * d + 12) a.1 a.2
  | .done, _, _ => nofun
  | .simple s next, d, h => List.forall_mem_cons.mpr
      ⟨.effect default s.phrase (s.length_words.trans (by omega)), shallow_items next h⟩
  | .compound header body next, d, h => by
      obtain ⟨hbody, hnext⟩ := Nat.max_le.mp h
      obtain ⟨d, rfl⟩ := Nat.exists_eq_add_of_le' (Nat.le_of_add_left_le hbody)
      have hinside := shallow_items body (Nat.le_of_add_le_add_right hbody)
      exact List.forall_mem_cons.mpr
        ⟨header.shallow (by omega) hinside, shallow_items next hnext⟩
  | .choice test body otherwise next, d, h => by
      obtain ⟨hbodies, hnext⟩ := Nat.max_le.mp h
      obtain ⟨hbody, hotherwise⟩ := Nat.max_le.mp hbodies
      obtain ⟨d, rfl⟩ := Nat.exists_eq_add_of_le' (Nat.le_of_add_left_le hbody)
      have hinside := shallow_items body (Nat.le_of_add_le_add_right hbody)
      have hinside' := shallow_items otherwise (Nat.le_of_add_le_add_right hotherwise)
      exact List.forall_mem_cons.mpr
        ⟨.branchElse default default default _ _ test.phrase (test.length_words.trans (by omega))
          hinside hinside', shallow_items next hnext⟩

/-! ### Sketches -/

def Sketch.functions (s : Sketch) : List (String × List (List Word × Node)) :=
  [("setup", s.setup.items), ("loop", s.loop.items)]

theorem Sketch.words_eq {s : Sketch} {code : List Char} (h : Laid s.lines code) :
    words code = s.functions.flatMap functionWords := by
  obtain ⟨gap, inside, gap', inside', gap'', hgap, hgap', hinside, hinside', hback, rfl⟩ :=
    Sketch.exists_parts h
  have hloop := (function_reads (show "loop" ∈ ["setup", "loop"] by decide)).seq
    ((laid_reads s.loop hinside').seq (brace_reads.seq (ReadsAs.layout hback fun _ => false)))
  have hsetup := (function_reads (show "setup" ∈ ["setup", "loop"] by decide)).seq
    ((laid_reads s.setup hinside).seq (brace_reads.seq ((ReadsAs.layout hgap' _).seq hloop)))
  have hall := ((ReadsAs.layout hgap _).seq hsetup).words_eq
  simpa [Sketch.functions, functionWords, bracedWords] using hall

end Plain

namespace Plain

open Blocks Grammar

/-! ## Expressions -/

def Gives (e : Expr) (b : Block) : Prop :=
  e.sourceFault? = none ∧ expression? e = some b

namespace Gives

variable {e : Expr} {b : Block}

theorem value?_eq (h : Gives e b) : value? e = .ok (some b) := by
  rw [value?, checked, h.1, h.2]
  rfl

theorem valueIn_eq (h : Gives e b) (name : String) : valueIn name e = .ok (.value name b) := by
  rw [valueIn, h.value?_eq]
  rfl

end Gives

theorem Operand.gives : ∀ a : Operand, Gives a.expr a.block
  | integer _ => ⟨rfl, rfl⟩
  | named _ => ⟨rfl, rfl⟩

theorem operator?_arithmetic : ∀ e ∈ Block.arithmeticNames,
    Block.operator? e.1 = some ("math_arithmetic", e.2) := by
  decide

theorem operator?_comparison : ∀ e ∈ Block.comparisonNames,
    Block.operator? e.1 = some ("logic_compare", e.2) := by
  decide

theorem infix_gives {symbol type name : String} (h : Block.operator? symbol = some (type, name))
    (a b : Operand) : Gives (infixExpr symbol a b) (infixBlock type name a b) := by
  obtain ⟨hfault, hblock⟩ := a.gives
  obtain ⟨hfault', hblock'⟩ := b.gives
  constructor
  · rw [infixExpr, Expr.sourceFault?, hfault, hfault']
    rfl
  · rw [infixExpr, expression?, h, hblock, hblock']
    rfl

theorem reading_gives {name type : String} (h : valueCall? name = some (type, ["PIN"]))
    (pin : Operand) : Gives (callExpr name [pin.argument]) (readingBlock type pin) := by
  obtain ⟨hfault, hblock⟩ := pin.gives
  constructor
  · simp only [callExpr, List.map_cons, List.map_nil, Expr.sourceFault?, Expr.sourceFaults?]
    rw [show pin.argument.expr = pin.expr from rfl, hfault]
    rfl
  · simp only [callExpr, List.map_cons, List.map_nil, expression?, h, List.length_cons,
      List.length_nil, if_true, inputs]
    rw [show pin.argument.expr = pin.expr from rfl, hblock]
    rfl

theorem Value.gives : ∀ v : Value, Gives v.expr v.block
  | operand a => a.gives
  | arithmetic _ _ h a b => infix_gives (operator?_arithmetic _ h) a b
  | digitalRead pin => reading_gives rfl pin
  | analogRead pin => reading_gives rfl pin

theorem Condition.gives : ∀ c : Condition, Gives c.expr c.block
  | named x => (Operand.named x).gives
  | comparison _ _ h a b => infix_gives (operator?_comparison _ h) a b

/-! ## Statements -/

/-- The text of the word that names a mode or a level of a pin. -/
theorem constant?_word {word : String} (h : (isMode word || isState word) = true)
    {p : String → Bool} (hp : p word = true) :
    (constant? (wordArgument word h).expr).filter p = some word := by
  rw [show constant? (wordArgument word h).expr = some word from rfl, Option.filter_some, if_pos hp]

/-- The block of a pin with a word is one of the word and the pin. -/
theorem pinned_eq (pin : Operand) (type : String) (fields : List (String × String)) :
    (do return Block.ofTexts type fields [← valueIn "PIN" pin.expr] : Convert Block) =
      .ok (.ofTexts type fields [.value "PIN" pin.block]) := by
  rw [pin.gives.valueIn_eq]
  rfl

theorem Simple.effect_eq (s : Simple) : Blocks.effect s.expr = .ok s.block := by
  cases s with
  | pinMode pin mode h =>
      refine (namedCall_pinMode _ _ _).trans ?_
      rw [constant?_word _ h]
      exact pinned_eq pin "arduino_pinmode" [("MODE", mode)]
  | digitalWrite pin state h =>
      refine (namedCall_digitalWrite _ _ _).trans ?_
      rw [constant?_word _ h]
      exact pinned_eq pin "arduino_digitalwrite" [("STATE", state)]
  | analogWrite pin value =>
      have hvalues : valuesIn ["PIN", "VALUE"] [pin.expr, value.expr] =
          .ok [.value "PIN" pin.block, .value "VALUE" value.block] := by
        rw [valuesIn, valuesIn, pin.gives.valueIn_eq, value.gives.valueIn_eq]
        rfl
      change (valuesIn ["PIN", "VALUE"] [pin.expr, value.expr] >>= _) = _
      rw [hvalues]
      rfl
  | wait call h time =>
      simp only [List.mem_cons, List.not_mem_nil, or_false] at h
      rcases h with rfl | rfl <;> rfl
  | assign x v =>
      change (valueIn "VALUE" v.expr >>= _) = _
      rw [v.gives.valueIn_eq]
      rfl

/-! ## Bodies -/

/-- A loop that counts runs as often as its bound says. -/
theorem repetitions?_count (bound : Integer) :
    repetitions? (.declaration default "int" "i" zero.expr) (countTest bound) countStep =
      some (Operand.integer bound).expr := by
  have hstart : zeroStart? (.declaration default "int" "i" zero.expr) = some "i" := by decide
  rw [repetitions?_eq, hstart]
  rfl

theorem timesInput_integer (bound : Integer) :
    timesInput (Operand.integer bound).expr =
      .ok (.value "TIMES" (.number (String.ofList bound.chars))) := by
  rw [timesInput, (Operand.integer bound).gives.value?_eq]
  rfl

theorem arm_eq (test : Condition) {body : Convert (List Block)} {bs : List Block}
    (h : body = .ok bs) :
    arm 0 test.expr body = .ok [.value "IF0" test.block, .chain "DO0" bs] := by
  rw [arm, test.gives.valueIn_eq, h]
  rfl

/-- A statement with one body becomes a block with the blocks of its body. -/
theorem Header.body_node (h : Header) {body : Node} {bs : List Block}
    (hbody : Blocks.body body = .ok bs) : Blocks.body (h.node body) = .ok [h.block bs] := by
  cases h with
  | branch test =>
      change (arm 0 test.expr (Blocks.body body) >>= _) >>= _ = _
      rw [arm_eq test hbody]
      rfl
  | whileLoop test =>
      change Blocks.whileLoop test.expr (Blocks.body body) >>= _ = _
      rw [Blocks.whileLoop, test.gives.valueIn_eq, hbody]
      rfl
  | forLoop bound =>
      change Blocks.forLoop _ (countTest bound) countStep (Blocks.body body) >>= _ = _
      rw [Blocks.forLoop, repetitions?_count]
      change (timesInput (Operand.integer bound).expr >>= _) >>= _ = _
      rw [timesInput_integer, hbody]
      rfl

/-- A choice with an alternative becomes a block with the blocks of both bodies. -/
theorem body_choice (test : Condition) {body otherwise : List Node} {bs cs : List Block}
    (hbody : Blocks.statements body = .ok bs) (hotherwise : Blocks.statements otherwise = .ok cs) :
    Blocks.body (.branch default test.expr (.block default body) (.block default otherwise)) =
      .ok [choiceBlock test bs cs] := by
  change (arm 0 test.expr (Blocks.statements body) >>= fun first =>
    (Blocks.statements otherwise >>= _) >>= _) >>= _ = _
  rw [arm_eq test hbody, hotherwise]
  rfl

/-- A statement that is neither empty nor a block stands for its blocks. -/
theorem statements_cons {n : Node} (hempty : n.isEmpty = false) (hblock : n.isBlock = false)
    {ns : List Node} {b : Block} {bs : List Block} (hn : Blocks.body n = .ok [b])
    (hns : Blocks.statements ns = .ok bs) : Blocks.statements (n :: ns) = .ok (b :: bs) := by
  rw [Blocks.statements, hempty, hblock, hns]
  change Blocks.body n >>= _ = _
  rw [hn]
  rfl

theorem statements_items : ∀ p : Steps, Blocks.statements (p.items.map Prod.snd) = .ok p.blocks
  | .done => rfl
  | .simple s next => by
      have hs : Blocks.body (.effect default s.expr) = .ok [s.block] := by
        change Blocks.effect s.expr >>= _ = _
        rw [s.effect_eq]
        rfl
      exact statements_cons rfl rfl hs (statements_items next)
  | .compound h body next => by
      have hbody : Blocks.body (.block default (body.items.map Prod.snd)) = .ok body.blocks :=
        statements_items body
      exact statements_cons (by cases h <;> rfl) (by cases h <;> rfl) (h.body_node hbody)
        (statements_items next)
  | .choice test body otherwise next =>
      statements_cons rfl rfl (body_choice test (statements_items body) (statements_items otherwise))
        (statements_items next)

/-! ## Sketches -/

/-- A function that was read gives its body the blocks of its statements. -/
theorem body_function {p : Steps} {body : Node}
    (h : body.forget = (Node.block default (p.items.map Prod.snd)).forget) :
    Blocks.body body = .ok p.blocks :=
  Blocks.body_of_forget h (statements_items p)

theorem Sketch.ofProgram_eq (s : Sketch) {program : Program}
    (h : Node.forgetList program.body = Node.forgetList (s.functions.map functionNode)) :
    ∃ c, Blocks.ofProgram program = .ok c ∧ c.workspace = s.workspace := by
  rw [forgetList_eq_map, forgetList_eq_map, List.map_map] at h
  obtain ⟨n₁, ns, hbody, hn₁, hns⟩ := List.map_eq_cons_iff.mp h
  obtain ⟨n₂, last, rfl, hn₂, hlast⟩ := List.map_eq_cons_iff.mp hns
  obtain rfl := List.map_eq_nil_iff.mp hlast
  obtain ⟨l₁, setup, rfl, hsetup⟩ := exists_function hn₁
  obtain ⟨l₂, loop, rfl, hloop⟩ := exists_function hn₂
  refine ⟨{ workspace := s.workspace }, ?_, rfl⟩
  rw [Blocks.ofProgram, hbody]
  change (Blocks.body setup >>= _) >>= _ = _
  rw [body_function hsetup]
  change (Blocks.body loop >>= _) >>= _ = _
  rw [body_function hloop]
  rfl

/-- Both readers give the same blocks of plain sketches that nest at most ten deep, and the grammar
makes no report. -/
theorem Sketch.readers_agree (s : Sketch) {code : String} (h : Laid s.lines code.toList)
    (hdepth : s.depth ≤ 10) (file : String) (limit : Nat) :
    (Grammar.parse code file limit).unreadable = none ∧
      (Grammar.parse code file limit).diagnostics = [] ∧
      ∃ c, Blocks.ofProgram (Grammar.parse code file limit).program = .ok c ∧
        Skim.workspace code = c.workspace := by
  obtain ⟨hsetup, hloop⟩ := Nat.max_le.mp hdepth
  have hshallow : ∀ f ∈ s.functions, ∀ a ∈ f.2, Shallow maxNesting a.1 a.2 := by
    refine List.forall_mem_cons.mpr ⟨shallow_items s.setup hsetup, ?_⟩
    exact List.forall_mem_cons.mpr ⟨shallow_items s.loop hloop, nofun⟩
  obtain ⟨hbody, hreports, hreadable⟩ := parse_functions (Sketch.words_eq h) hshallow file limit
  obtain ⟨c, hc, hworkspace⟩ := s.ofProgram_eq hbody
  refine ⟨hreadable, hreports, c, hc, ?_⟩
  rw [hworkspace, s.skimmed h (hdepth.trans (by decide))]

def following : Sketch :=
  let led : Operand := .named ⟨"led", by decide, by decide⟩
  let level : Name := ⟨"level", by decide, by decide⟩
  let times : Integer := ⟨['3'], by decide, by decide, by decide, by decide⟩
  let pause : Integer := ⟨['2', '0'], by decide, by decide, by decide, by decide⟩
  { setup := .simple (.pinMode led "OUTPUT" (by decide)) .done
    loop :=
      .simple (.assign level (.analogRead (.named ⟨"sensor", by decide, by decide⟩))) <|
      .choice (.comparison ">" "GT" (by decide) (.named level) (.integer pause))
        (.compound (.forLoop times) (.simple (.wait "delay" (by decide) pause) .done) .done)
        (.simple (.digitalWrite led "LOW" (by decide)) .done)
      .done }

theorem readers_agree_following :
    following.text = "void setup() \x7b\npinMode(led, OUTPUT);\n\x7d\nvoid loop() \x7b\n" ++
      "level = analogRead(sensor);\nif (level > 20) \x7b\n" ++
      "for (int i = 0; i < 3; i++) \x7b\ndelay(20);\n\x7d\n\x7d else \x7b\n" ++
      "digitalWrite(led, LOW);\n\x7d\n\x7d\n" ∧
    ∃ c, Blocks.ofProgram (Grammar.parse following.text "<sketch>" 100).program = .ok c ∧
      Skim.workspace following.text = c.workspace :=
  ⟨by decide +kernel, (following.readers_agree following.laid_text (by decide) "<sketch>" 100).2.2⟩

end Plain

end InoBlocks
