import InoBlocks.Proofs.Number.Magnitude
import InoBlocks.Proofs.Sketch.SafeNames
import InoBlocks.Sketch.Blocks

/-!
# Plain sketches

The sketches that need no grammar: `setup` and `loop` with one statement on a line, of the kinds
that have blocks, and every body between braces.  A plain sketch has its lines and its blocks; the
blanks between the lines are free.
-/

namespace InoBlocks

namespace Plain

/-! ## Operands -/

/-- An integer of at most fifteen digits without a leading zero. -/
structure Integer where
  chars : List Char
  ne_nil : chars ≠ []
  digits : ∀ c ∈ chars, c.isDigit = true
  short : chars.length ≤ 15
  leading : chars.head? = some '0' → chars = ['0']

/-- A name that stays as it is when it is made safe, and is no analog pin. -/
structure Name where
  text : String
  safe : IsSafe text
  noPin : isAnalogPin text = false

/-- What an operator or a call is applied to. -/
inductive Operand where
  | integer (n : Integer)
  | named (x : Name)

namespace Operand

def chars : Operand → List Char
  | integer n => n.chars
  | named x => x.text.toList

def block : Operand → Block
  | integer n => .number (String.ofList n.chars)
  | named x => .variableGet x.text

end Operand

/-! ## Values and conditions -/

def callChars (name : String) (inside : List Char) : List Char :=
  name.toList ++ '(' :: (inside ++ [')'])

/-- An operator between operands, with single blanks around it. -/
def infixChars (symbol : String) (a b : Operand) : List Char :=
  a.chars ++ ' ' :: (symbol.toList ++ ' ' :: b.chars)

def infixBlock (type name : String) (a b : Operand) : Block :=
  .ofTexts type [("OP", name)] [.value "A" a.block, .value "B" b.block]

def readingBlock (type : String) (pin : Operand) : Block :=
  .ofTexts type [] [.value "PIN" pin.block]

/-- What is assigned. -/
inductive Value where
  | operand (a : Operand)
  | arithmetic (symbol name : String) (h : (symbol, name) ∈ Block.arithmeticNames) (a b : Operand)
  | digitalRead (pin : Operand)
  | analogRead (pin : Operand)

namespace Value

def chars : Value → List Char
  | operand a => a.chars
  | arithmetic symbol _ _ a b => infixChars symbol a b
  | digitalRead pin => callChars "digitalRead" pin.chars
  | analogRead pin => callChars "analogRead" pin.chars

def block : Value → Block
  | operand a => a.block
  | arithmetic _ name _ a b => infixBlock "math_arithmetic" name a b
  | digitalRead pin => readingBlock "arduino_digitalread" pin
  | analogRead pin => readingBlock "arduino_analogread" pin

end Value

/-- What is tested. -/
inductive Condition where
  | named (x : Name)
  | comparison (symbol name : String) (h : (symbol, name) ∈ Block.comparisonNames) (a b : Operand)

namespace Condition

def chars : Condition → List Char
  | named x => x.text.toList
  | comparison symbol _ _ a b => infixChars symbol a b

def block : Condition → Block
  | named x => .variableGet x.text
  | comparison _ name _ a b => infixBlock "logic_compare" name a b

end Condition

/-! ## Statements -/

/-- A statement without a body. -/
inductive Simple where
  | pinMode (pin : Operand) (mode : String) (h : Blocks.isMode mode = true)
  | digitalWrite (pin : Operand) (state : String) (h : Blocks.isState state = true)
  | analogWrite (pin value : Operand)
  | wait (call : String) (h : call ∈ ["delay", "delayMicroseconds"]) (time : Integer)
  | assign (x : Name) (v : Value)

namespace Simple

def pairChars (first second : List Char) : List Char :=
  first ++ ',' :: ' ' :: second

def chars : Simple → List Char
  | pinMode pin mode _ => callChars "pinMode" (pairChars pin.chars mode.toList)
  | digitalWrite pin state _ => callChars "digitalWrite" (pairChars pin.chars state.toList)
  | analogWrite pin value => callChars "analogWrite" (pairChars pin.chars value.chars)
  | wait call _ time => callChars call time.chars
  | assign x v => x.text.toList ++ ' ' :: '=' :: ' ' :: v.chars

def block : Simple → Block
  | pinMode pin mode _ => .ofTexts "arduino_pinmode" [("MODE", mode)] [.value "PIN" pin.block]
  | digitalWrite pin state _ =>
      .ofTexts "arduino_digitalwrite" [("STATE", state)] [.value "PIN" pin.block]
  | analogWrite pin value =>
      .ofTexts "arduino_analogwrite" [] [.value "PIN" pin.block, .value "VALUE" value.block]
  | wait call _ time => .ofTexts ("arduino_" ++ call) [("TIME", String.ofList time.chars)] []
  | assign x v => .ofTexts "variables_set" [("VAR", x.text)] [.value "VALUE" v.block]

def line (s : Simple) : List Char :=
  s.chars ++ [';']

end Simple

/-- The header of a statement with a body, up to the brace that opens it. -/
def headerChars (word : String) (inside : List Char) : List Char :=
  word.toList ++ ' ' :: '(' :: (inside ++ [')', ' ', '{'])

/-- The header of a loop that counts, in front of its bound. -/
def countFront : List Char :=
  "int i = 0; i < ".toList

def countBack : List Char :=
  "; i++".toList

/-- What stands between the parentheses of a loop that counts. -/
def countChars (bound : Integer) : List Char :=
  countFront ++ (bound.chars ++ countBack)

/-- The header of a statement with one body. -/
inductive Header where
  | branch (test : Condition)
  | whileLoop (test : Condition)
  | forLoop (bound : Integer)

namespace Header

def word : Header → String
  | branch _ => "if"
  | whileLoop _ => "while"
  | forLoop _ => "for"

def inside : Header → List Char
  | branch test => test.chars
  | whileLoop test => test.chars
  | forLoop bound => countChars bound

def line (h : Header) : List Char :=
  headerChars h.word h.inside

def block (h : Header) (body : List Block) : Block :=
  match h with
  | branch test => .ofTexts "controls_if" [] [.value "IF0" test.block, .chain "DO0" body]
  | whileLoop test =>
      .ofTexts "controls_whileUntil" [("MODE", "WHILE")]
        [.value "BOOL" test.block, .chain "DO" body]
  | forLoop bound =>
      .ofTexts "controls_repeat_ext" []
        [.value "TIMES" (.number (String.ofList bound.chars)), .chain "DO" body]

end Header

def elseChars : List Char :=
  "\x7d else \x7b".toList

def choiceBlock (test : Condition) (body otherwise : List Block) : Block :=
  .ofTexts "controls_if" []
    [.value "IF0" test.block, .chain "DO0" body, .chain "ELSE" otherwise]

/-- Statements, one behind the other. -/
inductive Steps where
  | done
  | simple (s : Simple) (next : Steps)
  | compound (h : Header) (body next : Steps)
  | choice (test : Condition) (body otherwise next : Steps)

namespace Steps

def depth : Steps → Nat
  | done => 0
  | simple _ next => next.depth
  | compound _ body next => max (body.depth + 1) next.depth
  | choice _ body otherwise next => max (max (body.depth + 1) (otherwise.depth + 1)) next.depth

def lines : Steps → List (List Char)
  | done => []
  | simple s next => s.line :: next.lines
  | compound h body next => h.line :: (body.lines ++ ['}'] :: next.lines)
  | choice test body otherwise next =>
      headerChars "if" test.chars ::
        (body.lines ++ elseChars :: (otherwise.lines ++ ['}'] :: next.lines))

def blocks : Steps → List Block
  | done => []
  | simple s next => s.block :: next.blocks
  | compound h body next => h.block body.blocks :: next.blocks
  | choice test body otherwise next =>
      choiceBlock test body.blocks otherwise.blocks :: next.blocks

end Steps

def functionChars (name : String) : List Char :=
  "void ".toList ++ (name.toList ++ "() \x7b".toList)

/-! ## Sketches -/

/-- A plain sketch. -/
structure Sketch where
  setup : Steps
  loop : Steps

namespace Sketch

def depth (s : Sketch) : Nat :=
  max s.setup.depth s.loop.depth

def lines (s : Sketch) : List (List Char) :=
  functionChars "setup" :: (s.setup.lines ++ ['}'] ::
    (functionChars "loop" :: (s.loop.lines ++ [['}']])))

def workspace (s : Sketch) : Workspace where
  setup := s.setup.blocks
  loop := s.loop.blocks

end Sketch

/-- A text is some lines with nothing but layout before, between and behind them. -/
inductive Laid : List (List Char) → List Char → Prop where
  | done {gap : List Char} : gap.all Token.isLayout = true → Laid [] gap
  | line {gap rest l : List Char} {ls : List (List Char)} : gap.all Token.isLayout = true →
      Laid ls rest → Laid (l :: ls) (gap ++ (l ++ rest))

namespace Laid

variable {ls ms : List (List Char)} {l t u gap : List Char}

theorem prepend (hgap : gap.all Token.isLayout = true) (h : Laid ls t) : Laid ls (gap ++ t) := by
  cases h with
  | done h =>
      refine .done ?_
      rw [List.all_append, hgap, h]
      rfl
  | @line gap' rest l ls hgap' h =>
      rw [← List.append_assoc]
      refine .line ?_ h
      rw [List.all_append, hgap, hgap']
      rfl

theorem append (h : Laid ls t) (h' : Laid ms u) : Laid (ls ++ ms) (t ++ u) := by
  induction h with
  | done hgap => exact h'.prepend hgap
  | line hgap _ ih =>
      rw [List.append_assoc, List.append_assoc]
      exact .line hgap ih

/-- A text with the lines of two lists is a text with the first and one with the second. -/
theorem exists_append (h : Laid (ls ++ ms) t) :
    ∃ t₁ t₂, t = t₁ ++ t₂ ∧ Laid ls t₁ ∧ Laid ms t₂ := by
  induction ls generalizing t with
  | nil => exact ⟨[], t, rfl, .done rfl, h⟩
  | cons l ls ih =>
      cases h with
      | @line gap rest _ _ hgap h =>
          obtain ⟨t₁, t₂, rfl, h₁, h₂⟩ := ih h
          exact ⟨gap ++ (l ++ t₁), t₂, by simp, .line hgap h₁, h₂⟩

theorem flatMap_newline : ∀ ls : List (List Char), Laid ls (ls.flatMap fun l => l ++ ['\n'])
  | [] => .done rfl
  | l :: ls => by
      have hrest := (flatMap_newline ls).prepend (show ['\n'].all Token.isLayout = true by decide)
      rw [List.flatMap_cons, List.append_assoc]
      exact Laid.line (show [].all Token.isLayout = true from rfl) hrest

/-- A text that begins with some lines and goes on with one more. -/
theorem exists_split (h : Laid (ls ++ l :: ms) t) :
    ∃ inside rest, Laid ls inside ∧ Laid ms rest ∧ t = inside ++ (l ++ rest) := by
  obtain ⟨t₁, t₂, rfl, h₁, h₂⟩ := exists_append h
  cases h₂ with
  | @line gap rest _ _ hgap h₂ =>
      have hinside := h₁.append (.done hgap)
      rw [List.append_nil] at hinside
      exact ⟨t₁ ++ gap, rest, hinside, h₂, by simp⟩

end Laid

def Sketch.text (s : Sketch) : String :=
  String.ofList (s.lines.flatMap fun l => l ++ ['\n'])

theorem Sketch.laid_text (s : Sketch) : Laid s.lines s.text.toList := by
  rw [Sketch.text, String.toList_ofList]
  exact .flatMap_newline s.lines

/-! ## Integers

An integer of few digits is one word, is read as a finite number, and stays as it is in a field.
-/

namespace Integer

variable (n : Integer)

def text : String :=
  String.ofList n.chars

theorem firm : Word.Firm ⟨.number, n.text⟩ := by
  obtain ⟨c, cs, hchars⟩ := List.exists_cons_of_ne_nil n.ne_nil
  have hpoint : '.' ∉ n.chars := fun hmem => absurd (n.digits '.' hmem) (by decide)
  have hcount : n.chars.count '.' ≤ 1 := by
    rw [List.count_eq_zero_of_not_mem hpoint]
    exact Nat.zero_le 1
  exact Word.firm_number_of_count (fun d hd => Or.inl (n.digits d hd)) hcount
    (congrArg List.head? hchars) (n.digits c (by simp [hchars]))

theorem exists_double? : ∃ x, Number.double? n.text = some x ∧ x.isFinite = true :=
  Number.exists_double?_of_short n.ne_nil n.digits (Nat.le_trans n.short (by decide))

theorem hasLeadingZero_eq : Number.hasLeadingZero n.chars = false := by
  obtain ⟨c, cs, hchars⟩ := List.exists_cons_of_ne_nil n.ne_nil
  have hc : c.isDigit = true := n.digits c (by simp [hchars])
  have hsign : Number.spanSign (c :: cs) = ([], c :: cs) := by
    unfold Number.spanSign
    split
    · rename_i heq
      cases heq
      exact absurd hc (by decide)
    · rename_i heq
      cases heq
      exact absurd hc (by decide)
    · rfl
  rw [hchars, Number.hasLeadingZero, hsign]
  dsimp only
  split
  · rename_i d ds heq
    cases heq
    have hone := n.leading (by rw [hchars]; rfl)
    rw [hchars] at hone
    cases hone
  · rfl

/-- An integer stays as it is in a field without an upper limit. -/
theorem ofField_eq (default : String) {limits : Limits}
    (hleast : limits.least = none ∨ limits.least = some (.integer 0))
    (hgreatest : limits.greatest = none) :
    Numeral.ofField (some n.text) default limits = n.text := by
  obtain ⟨x, hx, hfinite⟩ := n.exists_double?
  have hzero : Number.hasLeadingZero n.text.toList = false := by
    rw [text, String.toList_ofList, hasLeadingZero_eq]
  refine Numeral.ofField_unsigned n.firm hx hfinite hzero default hleast fun limit hlimit => ?_
  rw [hgreatest] at hlimit
  cases hlimit

end Integer

end Plain

end InoBlocks
