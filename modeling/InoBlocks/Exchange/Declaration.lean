import InoBlocks.Exchange.Name

/-!
# Declarations

What is passed over in XML text, comments and processing instructions, and then the declaration of
a document type: its lexemes, and what they declare.  Only entities and the
attributes of elements are kept; whatever else is declared must be well formed.
-/

namespace InoBlocks

namespace Exchange

/-! ## Asides -/

/-- The text behind a comment, from behind its `<!--`.  Two dashes stand only at its end. -/
def afterComment? : List Char → Option (List Char)
  | [] => none
  | '-' :: '-' :: rest =>
      match rest with
      | '>' :: rest => some rest
      | _ => none
  | c :: cs => if isXmlChar c then afterComment? cs else none

def afterInstruction? : List Char → Option (List Char)
  | [] => none
  | '?' :: '>' :: rest => some rest
  | c :: cs => if isXmlChar c then afterInstruction? cs else none

/-- The text behind a processing instruction, from behind its `<?`.  No instruction is named
`xml`, in whatever case. -/
def instruction? (cs : List Char) : Option (List Char) := do
  let (name, rest) ← name? cs
  if name.map Char.toLower == "xml".toList then none
  match rest with
  | '?' :: '>' :: rest => some rest
  | c :: rest => if isSpace c then afterInstruction? rest else none
  | [] => none

/-! ## Lexemes -/

/-- A lexeme of a declaration. -/
inductive Lexeme where
  /-- The front of a declaration with its keyword. -/
  | opening (keyword : List Char)
  | name (n : QualifiedName)
  /-- A name that need not start with a letter. -/
  | word
  /-- A name with a sign of how often. -/
  | counted
  /-- A keyword behind a hash sign. -/
  | hash (keyword : List Char)
  | literal (raw : List Char)
  | percent
  /-- A reference to a parameter. -/
  | parameter
  | openBracket
  | closeBracket
  | openParen
  /-- A parenthesis with or without a sign of how often. -/
  | closeParen (count : Option Char)
  | comma
  | bar
  | close
  | aside
  deriving DecidableEq, Repr

def isCount (c : Char) : Bool :=
  c == '*' || c == '+' || c == '?'

/-- Whether a text goes on with white space or one of some characters. -/
def goesOnWith (marks : String) : List Char → Bool
  | [] => false
  | c :: _ => isSpace c || marks.toList.contains c

namespace Lexeme

/-- A run of characters of names and colons as a lexeme: at most one colon, between two names,
makes a name. -/
def ofRun (run : List Char) : Lexeme :=
  match name? run with
  | none => word
  | some (front, []) => name ⟨none, front⟩
  | some (front, _ :: base) =>
      if base.isEmpty || base.contains ':' then word else name ⟨some front, base⟩

/-- A name at the front of a text, and the text after it. -/
def nameAt? (cs : List Char) : Option (Lexeme × List Char) :=
  let inName (c : Char) : Bool := isNameChar c || c == ':'
  let run := cs.takeWhile inName
  let rest := cs.dropWhile inName
  if run.isEmpty then
    none
  else if goesOnWith ">),|[%" rest then
    some (ofRun run, rest)
  else
    match ofRun run, rest with
    | name _, c :: behind => if isCount c then some (counted, behind) else none
    | _, _ => none

/-- The front of a declaration behind its `<!`, and the text after it. -/
def openingAt? (cs : List Char) : Option (Lexeme × List Char) :=
  let isLetter (c : Char) : Bool := c.isAlpha || c == '_'
  let keyword := cs.takeWhile isLetter
  let rest := cs.dropWhile isLetter
  if keyword.isEmpty then
    none
  else
    match rest with
    | '%' :: c :: _ => if isSpace c || c == '%' then none else some (opening keyword, rest)
    | c :: _ => if isSpace c then some (opening keyword, rest) else none
    | [] => none

/-- A literal at the front of a text, and the text after it. -/
def literalAt? (cs : List Char) : Option (Lexeme × List Char) := do
  let (raw, rest) ← quoted? cs
  if raw.all isXmlChar && goesOnWith ">%[" rest then some (literal raw, rest) else none

/-- What stands at the front of a text behind a percent sign, and the text after it. -/
def percentAt? (cs : List Char) : Option (Lexeme × List Char) :=
  if goesOnWith "%" cs then
    some (percent, cs)
  else
    match name? cs with
    | some (_, ';' :: rest) => some (parameter, rest)
    | _ => none

/-- A closing parenthesis behind its sign, and the text after it. -/
def closeParenAt? (cs : List Char) : Option (Lexeme × List Char) :=
  if goesOnWith ">,|)" cs then
    some (closeParen none, cs)
  else
    match cs with
    | c :: rest => if isCount c then some (closeParen (some c), rest) else none
    | [] => none

/-- A closing bracket behind its sign, and the text after it.  It must not seem to end a section
that is never open. -/
def closeBracketAt? (cs : List Char) : Option (Lexeme × List Char) :=
  match cs with
  | [] => none
  | ']' :: '>' :: _ => none
  | cs => some (closeBracket, cs)

/-- A keyword behind its hash sign, and the text after it. -/
def hashAt? (cs : List Char) : Option (Lexeme × List Char) := do
  let (keyword, rest) ← name? cs
  if goesOnWith ")>%|" rest then some (hash keyword, rest) else none

/-- The lexeme at the front of a text, and the text after it. -/
def at? (cs : List Char) : Option (Lexeme × List Char) :=
  match cs with
  | '<' :: '!' :: '-' :: '-' :: rest => (afterComment? rest).map fun rest => (aside, rest)
  | '<' :: '!' :: rest => openingAt? rest
  | '<' :: '?' :: rest => (instruction? rest).map fun rest => (aside, rest)
  | '%' :: rest => percentAt? rest
  | ')' :: rest => closeParenAt? rest
  | ']' :: rest => closeBracketAt? rest
  | '#' :: rest => hashAt? rest
  | '[' :: rest => some (openBracket, rest)
  | '(' :: rest => some (openParen, rest)
  | ',' :: rest => some (comma, rest)
  | '|' :: rest => some (bar, rest)
  | '>' :: rest => some (close, rest)
  | c :: rest => if c == '"' || c == '\'' then literalAt? (c :: rest) else nameAt? (c :: rest)
  | [] => none

/-- The lexemes of a declaration up to its end, and the text after it.  Inside of brackets other
declarations end.  Every lexeme takes characters, which bounds them. -/
def upToClose? : (fuel : Nat) → (inside : Bool) → List Char → Option (List Lexeme × List Char)
  | 0, _, _ => none
  | fuel + 1, inside, cs => do
      let (first, rest) ← at? (skipSpace cs)
      if first = close && !inside then
        return ([close], rest)
      else
        let inside := if first = openBracket then true else inside && first != closeBracket
        let (more, rest) ← upToClose? fuel inside rest
        return (first :: more, rest)

def plainName? : Lexeme → Option (List Char)
  | name ⟨none, base⟩ => some base
  | _ => none

def isWord (text : String) (l : Lexeme) : Bool :=
  l.plainName? == some text.toList

end Lexeme

/-! ## Declarations -/

/-- What is kept of a declaration. -/
inductive Declaration where
  /-- A name stands for a text, or for something outside of the document. -/
  | entity (name : List Char) (value : Option (List Char))
  /-- A parameter stands for a text, or for something outside. -/
  | parameterEntity (value : Option (List Char))
  /-- An element may have an attribute.  Whether its value is made of words, whether it tells the
  element from others, and its value where it is left out. -/
  | attribute (element name : QualifiedName) (ofWords identifying : Bool)
      (default : Option (List Char))
  /-- More may be declared in another place. -/
  | elsewhere
  /-- More may be declared in place of a parameter. -/
  | parameter
  deriving DecidableEq, Repr

def isPublicChar (c : Char) : Bool :=
  c.isAlphanum || " \r\n-'()+,./:=?;!*#@$_%".toList.contains c

namespace Declaration

/-- What names something outside of the document, and the lexemes after it. -/
def outside? : List Lexeme → Option (List Lexeme)
  | l :: .literal raw :: rest =>
      if l.isWord "SYSTEM" then some rest
      else if l.isWord "PUBLIC" && raw.all isPublicChar then
        match rest with
        | .literal _ :: rest => some rest
        | _ => none
      else none
  | _ => none

def close? : List Lexeme → Option (List Lexeme)
  | .close :: rest => some rest
  | _ => none

/-- The end of the declaration of something outside, which may be of a kind that is named. -/
def closeOutside? : List Lexeme → Option (List Lexeme)
  | l :: kind :: rest =>
      if l.isWord "NDATA" && kind.plainName?.isSome then close? rest else close? (l :: kind :: rest)
  | rest => close? rest

/-- The declaration of an entity behind its keyword. -/
def entity? : List Lexeme → Option (Declaration × List Lexeme)
  | .percent :: l :: .literal raw :: rest => do
      guard l.plainName?.isSome
      return (.parameterEntity (some raw), ← close? rest)
  | .percent :: l :: rest => do
      guard l.plainName?.isSome
      return (.parameterEntity none, ← close? (← outside? rest))
  | l :: .literal raw :: rest => do return (.entity (← l.plainName?) (some raw), ← close? rest)
  | l :: rest => do return (.entity (← l.plainName?) none, ← closeOutside? (← outside? rest))
  | [] => none

def wordKinds : List String :=
  ["ID", "IDREF", "IDREFS", "ENTITY", "ENTITIES", "NMTOKEN", "NMTOKENS"]

def alternatives? (fits : Lexeme → Bool) : List Lexeme → Option (List Lexeme)
  | l :: .closeParen none :: rest => if fits l then some rest else none
  | l :: .bar :: rest => if fits l then alternatives? fits rest else none
  | _ => none

def isAlternative : Lexeme → Bool
  | .name _ | .word => true
  | _ => false

/-- The kind of an attribute: whether its value is made of words, and whether it tells its element
from others. -/
def kind? : List Lexeme → Option ((Bool × Bool) × List Lexeme)
  | .openParen :: rest => do return ((true, false), ← alternatives? isAlternative rest)
  | l :: rest =>
      if l.isWord "CDATA" then
        some ((false, false), rest)
      else if l.isWord "NOTATION" then
        match rest with
        | .openParen :: rest => do
            return ((true, false), ← alternatives? (·.plainName?.isSome) rest)
        | _ => none
      else
        (wordKinds.find? l.isWord).map fun word => ((true, word == "ID"), rest)
  | [] => none

/-- The value of an attribute where it is left out, if it then has one. -/
def default? : List Lexeme → Option (Option (List Char) × List Lexeme)
  | .literal raw :: rest => some (some raw, rest)
  | .hash keyword :: rest =>
      match String.ofList keyword, rest with
      | "FIXED", .literal raw :: rest => some (some raw, rest)
      | "IMPLIED", rest | "REQUIRED", rest => some (none, rest)
      | _, _ => none
  | _ => none

/-- The attributes of an element, up to the end of the declaration.  Each takes lexemes, which
bounds them. -/
def attributes? (element : QualifiedName) :
    (fuel : Nat) → List Lexeme → Option (List Declaration × List Lexeme)
  | _, .close :: rest => some ([], rest)
  | fuel + 1, .name n :: rest => do
      let ((ofWords, identifying), rest) ← kind? rest
      let (default, rest) ← default? rest
      let (more, rest) ← attributes? element fuel rest
      return (.attribute element n ofWords identifying default :: more, rest)
  | _, _ => none

/-- The mixed contents of an element behind the word for text; `first` says that no name has come
yet. -/
def mixed? (first : Bool) : List Lexeme → Option (List Lexeme)
  | .closeParen count :: rest =>
      if count == some '*' || (first && count == none) then some rest else none
  | .bar :: .name _ :: rest => mixed? false rest
  | _ => none

/-- The contents of an element, up to the parenthesis that closes the outermost group.  `signs`
holds the sign between the items of each open group, the innermost first, if there is one so far;
`behind` says that an item has just come. -/
def groups? (signs : List (Option Lexeme)) (behind : Bool) : List Lexeme → Option (List Lexeme)
  | [] => none
  | l :: rest =>
      match l, behind, signs with
      | .openParen, false, signs => groups? (none :: signs) false rest
      | .name _, false, signs | .counted, false, signs => groups? signs true rest
      | .closeParen _, true, [_] => some rest
      | .closeParen _, true, _ :: outer => groups? outer true rest
      | sign, true, before :: outer =>
          if (sign = .comma || sign = .bar) && (before.all (· = sign)) then
            groups? (some sign :: outer) false rest
          else
            none
      | _, _, _ => none

def contents? : List Lexeme → Option (List Lexeme)
  | .openParen :: .hash keyword :: rest =>
      if keyword = "PCDATA".toList then mixed? true rest else none
  | .openParen :: rest => groups? [none] false rest
  | l :: rest => if l.isWord "EMPTY" || l.isWord "ANY" then some rest else none
  | [] => none

/-- The declaration of a kind of data behind its name.  A public one need not name a place. -/
def dataKind? : List Lexeme → Option (List Lexeme)
  | l :: .literal raw :: rest =>
      if l.isWord "SYSTEM" then
        close? rest
      else if l.isWord "PUBLIC" && raw.all isPublicChar then
        match rest with
        | .literal _ :: rest => close? rest
        | rest => close? rest
      else
        none
  | _ => none

/-- What one declaration declares, or a parameter or an aside in its place. -/
def one? : List Lexeme → Option (List Declaration × List Lexeme)
  | .aside :: rest => some ([], rest)
  | .parameter :: rest => some ([.parameter], rest)
  | .opening keyword :: rest =>
      match String.ofList keyword, rest with
      | "ENTITY", rest => (entity? rest).map fun (d, rest) => ([d], rest)
      | "ATTLIST", .name element :: rest => attributes? element rest.length rest
      | "ELEMENT", .name _ :: rest => do return ([], ← close? (← contents? rest))
      | "NOTATION", l :: rest => do
          guard l.plainName?.isSome
          return ([], ← dataKind? rest)
      | _, _ => none
  | _ => none

/-- What declarations declare, up to the bracket behind them.  Each takes lexemes, which bounds
them. -/
def upToBracket? : (fuel : Nat) → List Lexeme → Option (List Declaration × List Lexeme)
  | _, .closeBracket :: rest => some ([], rest)
  | fuel + 1, ls => do
      let (first, rest) ← one? ls
      let (more, rest) ← upToBracket? fuel rest
      return (first ++ more, rest)
  | 0, _ => none

/-- What the declaration of a document type declares: its name, perhaps a place outside where more
is declared, and perhaps declarations in brackets. -/
def ofLexemes? : List Lexeme → Option (List Declaration)
  | .name _ :: rest =>
      let (front, rest) :=
        match outside? rest with
        | some rest => ([elsewhere], rest)
        | none => ([], rest)
      match rest with
      | [.close] => some front
      | .openBracket :: rest => do
          let (inner, rest) ← upToBracket? rest.length rest
          guard (rest = [.close])
          return front ++ inner
      | _ => none
  | _ => none

/-- What the declaration of a document type at the front of a text declares, from behind its `<!`,
and the text after it. -/
def documentType? (cs : List Char) : Option (List Declaration × List Char) := do
  let (first, rest) ← Lexeme.openingAt? cs
  guard (first = .opening "DOCTYPE".toList)
  let (ls, rest) ← Lexeme.upToClose? (rest.length + 1) false rest
  return (← ofLexemes? ls, rest)

end Declaration

end Exchange

end InoBlocks
