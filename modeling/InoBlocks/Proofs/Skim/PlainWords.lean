import InoBlocks.Proofs.Sketch.ShallowClause
import InoBlocks.Proofs.Skim.PlainLines
import InoBlocks.Proofs.Skim.PlainSketch

/-!
# The words of plain sketches

What the parts of a plain sketch are to the grammar: their words, and the trees that these are
read as.
-/

namespace InoBlocks

namespace Plain

open Text Word

/-! ## Operands -/

namespace Integer

def value (n : Integer) : Binary64 :=
  (Number.double? n.text).getD default

theorem double?_text (n : Integer) : Number.double? n.text = some n.value := by
  obtain ⟨x, hx, -⟩ := n.exists_double?
  rw [value, hx]
  rfl

end Integer

namespace Operand

def word : Operand → Word
  | integer n => ⟨.number, n.text⟩
  | named x => ⟨.identifier, x.text⟩

def expr : Operand → Expr
  | integer n => .literal default (.number n.value) n.text
  | named x => .name default x.text

theorem spelling : ∀ a : Operand, Spelling (String.ofList a.chars) [a.word] true
  | integer n => Spelling.word n.firm rfl rfl
  | named x => by
      have hname := Spelling.word x.safe.firm rfl rfl
      rw [chars, String.ofList_toList]
      exact hname.pointed_true

theorem phrase : ∀ a : Operand, Phrase 10 [a.word] a.expr
  | integer n => .number default n.double?_text
  | named x => .name default x.noPin

end Operand

/-! ## Operators -/

def operatorKind (symbol : String) : TokenKind :=
  (TokenKind.all.find? fun kind => kind.symbol? == some symbol).getD .plus

theorem operatorKind_spec : ∀ e ∈ operators, (operatorKind e.1).symbol? = some e.1 ∧
    2 ≤ (operatorKind e.1).joins ∧ (operatorKind e.1).joins ≤ 7 := by
  decide

def infixWords (name : String) (a b : Operand) : List Word :=
  [a.word, symbol (operatorKind name), b.word]

def infixExpr (name : String) (a b : Operand) : Expr :=
  .binary default name a.expr b.expr

section Infix

variable {name blockName : String} (h : (name, blockName) ∈ operators) (a b : Operand)

include h

theorem infix_spelling :
    Spelling (String.ofList (infixChars name a b)) (infixWords name a b) true := by
  have htext : String.ofList (infixChars name a b) =
      String.ofList a.chars ++ " " ++ name ++ " " ++ String.ofList b.chars := by
    rw [← String.toList_inj]
    simp [infixChars]
  rw [htext]
  exact .infixed (operatorKind_spec _ h).1 a.spelling b.spelling

theorem infix_phrase : Phrase 1 (infixWords name a b) (infixExpr name a b) := by
  obtain ⟨hsymbol, hlow, hhigh⟩ := operatorKind_spec _ h
  dsimp only at hsymbol hlow hhigh
  have hphrase := Phrase.binary_symbol default hlow hhigh hsymbol
    (a.phrase.loosenTo (by omega) (by omega)) (b.phrase.loosenTo (by omega) (by omega))
  exact hphrase.loosenTo (Nat.le_refl 1) (by omega)

end Infix

/-! ## Calls -/

def functionNames : List String :=
  ["pinMode", "digitalWrite", "analogWrite", "delay", "delayMicroseconds", "digitalRead",
    "analogRead"]

theorem functionName_spec : ∀ name ∈ functionNames,
    TokenKind.ofWord name = .identifier ∧ isAnalogPin name = false ∧
      name.toList.head?.any isNameStart = true ∧ name.toList.tail.all isNameChar = true := by
  decide

theorem functionName_firm {name : String} (h : name ∈ functionNames) :
    Word.Firm ⟨.identifier, name⟩ := by
  obtain ⟨hkind, -, hhead, htail⟩ := functionName_spec name h
  exact firm_ofWord hkind hhead htail

/-- An argument: its text, its words and its tree. -/
structure Argument where
  chars : List Char
  words : List Word
  expr : Expr
  spelling : Spelling (String.ofList chars) words true
  phrase : Phrase 1 words expr

def Operand.argument (a : Operand) : Argument where
  chars := a.chars
  words := [a.word]
  expr := a.expr
  spelling := a.spelling
  phrase := a.phrase.loosenTo (Nat.le_refl 1) (by decide)

def callWords (name : String) (arguments : List Argument) : List Word :=
  ⟨.identifier, name⟩ :: symbol .leftParen ::
    [symbol .comma].intercalate (arguments.map Argument.words) ++ [symbol .rightParen]

def callExpr (name : String) (arguments : List Argument) : Expr :=
  .call default (.name default name) (arguments.map Argument.expr)

def argumentChars (arguments : List Argument) : List Char :=
  [',', ' '].intercalate (arguments.map Argument.chars)

section Call

variable {name : String} (h : name ∈ functionNames) (arguments : List Argument)

include h

theorem call_spelling :
    Spelling (String.ofList (callChars name (argumentChars arguments))) (callWords name arguments)
      true := by
  have hname := Spelling.word (functionName_firm h) rfl rfl
  have hitems : ∀ a ∈ arguments.map fun a => (String.ofList a.chars, a.words),
      Spelling a.1 a.2 true := by
    intro a ha
    obtain ⟨b, -, rfl⟩ := List.mem_map.mp ha
    exact b.spelling
  have hcall := hname.call hitems
  have htext : String.ofList (callChars name (argumentChars arguments)) = name ++ "(" ++
      ", ".intercalate ((arguments.map fun a => (String.ofList a.chars, a.words)).map Prod.fst) ++
        ")" := by
    rw [← String.toList_inj]
    simp [callChars, argumentChars, Function.comp_def]
  rw [htext, callWords]
  simpa [Function.comp_def] using hcall.pointed_true

theorem call_one (a : Argument) :
    Spelling (String.ofList (callChars name a.chars)) (callWords name [a]) true := by
  simpa [argumentChars] using call_spelling h [a]

theorem call_two (a b : Argument) :
    Spelling (String.ofList (callChars name (Simple.pairChars a.chars b.chars)))
      (callWords name [a, b]) true := by
  simpa [argumentChars, Simple.pairChars, List.intercalate] using call_spelling h [a, b]

theorem call_phrase : Phrase 1 (callWords name arguments) (callExpr name arguments) := by
  have hname : Phrase 9 [⟨.identifier, name⟩] (.name default name) :=
    (Phrase.name default (functionName_spec name h).2.1).loosenTo (by decide) (by decide)
  have hcall := Phrase.call_symbol default hname
    (listed_intercalate (arguments.map fun a => (a.words, a.expr))) (by
      intro a ha
      obtain ⟨b, -, rfl⟩ := List.mem_map.mp ha
      exact b.phrase)
  have hone := hcall.loosenTo (Nat.le_refl 1) (by decide)
  simpa [callWords, callExpr, Function.comp_def] using hone

end Call

/-! ## Values and conditions -/

namespace Value

def words : Value → List Word
  | operand a => [a.word]
  | arithmetic name _ _ a b => infixWords name a b
  | digitalRead pin => callWords "digitalRead" [pin.argument]
  | analogRead pin => callWords "analogRead" [pin.argument]

def expr : Value → Expr
  | operand a => a.expr
  | arithmetic name _ _ a b => infixExpr name a b
  | digitalRead pin => callExpr "digitalRead" [pin.argument]
  | analogRead pin => callExpr "analogRead" [pin.argument]

theorem spelling : ∀ v : Value, Spelling (String.ofList v.chars) v.words true
  | operand a => a.spelling
  | arithmetic _ _ h a b => infix_spelling (mem_operators_of_arithmetic h) a b
  | digitalRead pin => call_one (show "digitalRead" ∈ functionNames by decide) pin.argument
  | analogRead pin => call_one (show "analogRead" ∈ functionNames by decide) pin.argument

theorem phrase : ∀ v : Value, Phrase 1 v.words v.expr
  | operand a => a.phrase.loosenTo (Nat.le_refl 1) (by decide)
  | arithmetic _ _ h a b => infix_phrase (mem_operators_of_arithmetic h) a b
  | digitalRead pin => call_phrase (by decide) [pin.argument]
  | analogRead pin => call_phrase (by decide) [pin.argument]

theorem length_words (v : Value) : v.words.length ≤ 4 := by
  cases v <;> simp [words, infixWords, callWords, Operand.argument]

end Value

namespace Condition

def words : Condition → List Word
  | named x => [⟨.identifier, x.text⟩]
  | comparison name _ _ a b => infixWords name a b

def expr : Condition → Expr
  | named x => .name default x.text
  | comparison name _ _ a b => infixExpr name a b

theorem spelling : ∀ c : Condition, Spelling (String.ofList c.chars) c.words true
  | named x => (Operand.named x).spelling
  | comparison _ _ h a b => infix_spelling (mem_operators_of_comparison h) a b

theorem phrase : ∀ c : Condition, Phrase 1 c.words c.expr
  | named x => (Operand.named x).phrase.loosenTo (Nat.le_refl 1) (by decide)
  | comparison _ _ h a b => infix_phrase (mem_operators_of_comparison h) a b

theorem length_words (c : Condition) : c.words.length ≤ 4 := by
  cases c <;> simp [words, infixWords]

end Condition

/-! ## Statements -/

def constantWords : List String :=
  ["INPUT", "OUTPUT", "INPUT_PULLUP", "HIGH", "LOW"]

theorem mem_constantWords {word : String}
    (h : (Blocks.isMode word || Blocks.isState word) = true) : word ∈ constantWords := by
  simp only [Blocks.isMode, Blocks.isState, Bool.or_eq_true, beq_iff_eq] at h
  rcases h with ((rfl | rfl) | rfl) | rfl | rfl <;> decide

theorem constantWord_spec : ∀ word ∈ constantWords, (TokenKind.ofWord word).namesValue = true ∧
    word.toList.head?.any isNameStart = true ∧ word.toList.tail.all isNameChar = true := by
  decide

/-- A word that names a mode or a level of a pin, as an argument. -/
def wordArgument (word : String) (h : (Blocks.isMode word || Blocks.isState word) = true) :
    Argument where
  chars := word.toList
  words := [⟨.ofWord word, word⟩]
  expr := .literal default (.text word) word
  spelling := by
    obtain ⟨hnames, hhead, htail⟩ := constantWord_spec word (mem_constantWords h)
    rw [String.ofList_toList]
    exact (Spelling.word (firm_ofWord rfl hhead htail) (TokenKind.symbol?_ofWord word)
      (TokenKind.inPhrase_of_begins (TokenKind.begins_of_namesValue hnames).1)).pointed_true
  phrase :=
    (Phrase.constant default word (constantWord_spec word (mem_constantWords h)).1).loosenTo
      (Nat.le_refl 1) (by decide)

namespace Simple

def words : Simple → List Word
  | pinMode pin mode h => callWords "pinMode" [pin.argument, wordArgument mode (by simp [h])]
  | digitalWrite pin state h =>
      callWords "digitalWrite" [pin.argument, wordArgument state (by simp [h])]
  | analogWrite pin value => callWords "analogWrite" [pin.argument, value.argument]
  | wait call _ time => callWords call [(Operand.integer time).argument]
  | assign x v => ⟨.identifier, x.text⟩ :: symbol .assign :: v.words

def expr : Simple → Expr
  | pinMode pin mode h => callExpr "pinMode" [pin.argument, wordArgument mode (by simp [h])]
  | digitalWrite pin state h =>
      callExpr "digitalWrite" [pin.argument, wordArgument state (by simp [h])]
  | analogWrite pin value => callExpr "analogWrite" [pin.argument, value.argument]
  | wait call _ time => callExpr call [(Operand.integer time).argument]
  | assign x v => .assign default "=" (.name default x.text) v.expr

theorem mem_functionNames {call : String} (h : call ∈ ["delay", "delayMicroseconds"]) :
    call ∈ functionNames := by
  have hall : ∀ call ∈ ["delay", "delayMicroseconds"], call ∈ functionNames := by decide
  exact hall call h

theorem spelling : ∀ s : Simple, Spelling (String.ofList s.chars) s.words true
  | pinMode pin mode h =>
      call_two (show "pinMode" ∈ functionNames by decide) pin.argument (wordArgument mode _)
  | digitalWrite pin state h =>
      call_two (show "digitalWrite" ∈ functionNames by decide) pin.argument (wordArgument state _)
  | analogWrite pin value =>
      call_two (show "analogWrite" ∈ functionNames by decide) pin.argument value.argument
  | wait _ h time => call_one (mem_functionNames h) (Operand.integer time).argument
  | assign x v => by
      have htext : String.ofList (assign x v).chars =
          String.ofList (Operand.named x).chars ++ " " ++ "=" ++ " " ++ String.ofList v.chars := by
        rw [← String.toList_inj]
        simp [chars, Operand.chars]
      rw [htext]
      exact .infixed (show TokenKind.assign.symbol? = some "=" from rfl) (Operand.named x).spelling
        v.spelling

theorem phrase : ∀ s : Simple, Phrase 1 s.words s.expr
  | pinMode _ _ _ => call_phrase (by decide) _
  | digitalWrite _ _ _ => call_phrase (by decide) _
  | analogWrite _ _ => call_phrase (by decide) _
  | wait _ h _ => call_phrase (mem_functionNames h) _
  | assign x v => by
      have hname := (Operand.named x).phrase
      exact .assign_symbol default rfl rfl (hname.loosenTo (by decide) (by decide)) v.phrase

theorem length_words (s : Simple) : s.words.length ≤ 6 := by
  cases s with
  | assign x v =>
      have hlength := v.length_words
      simp only [words, List.length_cons]
      omega
  | _ => simp [words, callWords, Operand.argument, wordArgument, List.intercalate]

end Simple

/-! ## Lines -/

theorem spelling_reads {cs : List Char} {ws : List Word}
    (h : Spelling (String.ofList cs) ws true) : ReadsAs cs ws (tail true) := by
  have hreads := h.reads
  rwa [String.toList_ofList] at hreads

theorem Simple.line_reads (s : Simple) :
    ReadsAlone s.line (s.words ++ [symbol .semicolon]) :=
  (spelling_reads s.spelling).append_cons (d := ';') (readsAs_symbol .semicolon rfl) (by decide)

theorem header_reads {kind : TokenKind} {word : String} (hword : Word.Firm ⟨kind, word⟩)
    (hblank : kind.runsOn ' ' = false) {inside : List Char} {ws : List Word}
    (h : ReadsAs inside ws (tail true)) :
    ReadsAlone (headerChars word inside)
      (⟨kind, word⟩ :: symbol .leftParen :: ws ++ [symbol .rightParen, symbol .leftBrace]) := by
  have hbrace : ReadsAlone ['{'] [symbol .leftBrace] := readsAs_symbol .leftBrace rfl
  have hall := (reads_header hword hblank h).seq hbrace
  simpa [headerChars] using hall

theorem brace_reads : ReadsAlone ['}'] [symbol .rightBrace] :=
  readsAs_symbol .rightBrace rfl

theorem else_reads : ReadsAlone elseChars
    [symbol .rightBrace, ⟨.elseWord, "else"⟩, symbol .leftBrace] := by
  have hkind : TokenKind.ofWord "else" = .elseWord := by decide
  have hword := (firm_ofWord hkind (by decide) (by decide)).readsAs
  have hopen : ReadsAlone ['{'] [symbol .leftBrace] := readsAs_symbol .leftBrace rfl
  have hchars : elseChars = ['}'] ++ [' '] ++ ("else".toList ++ [' ']) ++ ['{'] := by decide
  rw [hchars]
  exact ((brace_reads.blank rfl).seq (hword.blank rfl)).seq hopen

def counter : Operand :=
  .named ⟨"i", by decide, by decide⟩

def zero : Operand :=
  .integer ⟨['0'], by decide, by decide, by decide, fun _ => rfl⟩

theorem less_mem : ("<", "LT") ∈ operators := by
  decide

def countWords (bound : Integer) : List Word :=
  ([⟨.intType, "int"⟩] ++ counter.word :: symbol .assign :: [zero.word] ++ [symbol .semicolon]) ++
    infixWords "<" counter (.integer bound) ++
    symbol .semicolon :: [counter.word, symbol .increment]

theorem countChars_eq (bound : Integer) : countChars bound =
    "int".toList ++ [' '] ++ ("i = 0".toList ++ ([';'] ++ [' '] ++
      (infixChars "<" counter (.integer bound) ++ ([';'] ++ [' '] ++ "i++".toList)))) := by
  have hfront : countFront = "int i = 0; i < ".toList := rfl
  have hback : countBack = "; i++".toList := rfl
  rw [countChars, hfront, hback, infixChars]
  simp [Operand.chars, counter]

theorem count_reads (bound : Integer) :
    ReadsAs (countChars bound) (countWords bound) (tail true) := by
  have htype : ReadsAlone ("int".toList ++ [' ']) [⟨.intType, "int"⟩] :=
    (firm_ofWord (show TokenKind.ofWord "int" = .intType by decide) (by decide)
      (by decide)).readsAs.blank (by decide)
  have hstart : Spelling "i = 0" [counter.word, symbol .assign, zero.word] true :=
    .infixed (show TokenKind.assign.symbol? = some "=" from rfl) counter.spelling zero.spelling
  have htest := spelling_reads (infix_spelling less_mem counter (.integer bound))
  have hstep : Spelling "i++" [counter.word, symbol .increment] false :=
    .step (show TokenKind.increment.symbol? = some "++" from rfl) rfl counter.spelling
  have hclose : ReadsAlone ([';'] ++ [' ']) [symbol .semicolon] :=
    (readsAs_symbol .semicolon rfl).blank rfl
  have hback := hclose.seq (hstep.pointed_true.reads)
  have hrest := hstart.reads.append_cons (hclose.seq (htest.append_cons hback (by decide)))
    (by decide)
  rw [countChars_eq]
  exact htype.seq hrest

theorem function_reads {name : String} (h : name ∈ ["setup", "loop"]) :
    ReadsAlone (functionChars name)
      (Grammar.headerWords ⟨.voidType, "void"⟩ name ++ [symbol .leftBrace]) := by
  have hnames : ∀ name ∈ ["setup", "loop"], TokenKind.ofWord name = .identifier ∧
      name.toList.head?.any isNameStart = true ∧ name.toList.tail.all isNameChar = true := by
    decide
  obtain ⟨hkind, hhead, htail⟩ := hnames name h
  exact reads_functionHeader (firm_ofWord hkind hhead htail)

end Plain

end InoBlocks
