import InoBlocks.Sketch.ExprGrammar
import InoBlocks.Token.Lexer

/-!
# The grammar of sketches

Statements and declarations, with recovery.  A statement that cannot be read is reported and
passed over up to the next statement boundary: a semicolon, which goes with it, or a closing
brace, which stays for the block around.  After more faults than are tolerated, reading is
abandoned, and the declarations that were complete by then remain.
-/

namespace InoBlocks

/-- Faults that are tolerated unless something else is asked for. -/
def defaultRecoveryLimit : Nat := 100

/-- The tokens still to read, the faults recovered from, and what was reported. -/
structure ReadState where
  tokens : List Token
  recoveries : Nat
  findings : Findings

/-- A step over tokens that may recover from faults. -/
abbrev Recover := EStateM Stop ReadState

/-- A sketch as it was read: its tree, what was reported, and the number token without a number,
if reading stopped at one. -/
structure Parsed where
  program : Program
  diagnostics : List Diagnostic
  unreadable : Option String

namespace Grammar

open Read ExprGrammar

/-! ## Recovery -/

def reading {α : Type} (step : Read α) : Recover α := fun s =>
  match step s.tokens with
  | .ok a ts => .ok a { s with tokens := ts }
  | .error stop ts => .error stop { s with tokens := ts }

def skipToBoundary : List Token → List Token
  | [] => []
  | t :: ts =>
      match t.kind with
      | .endOfInput | .rightBrace => t :: ts
      | .semicolon => ts
      | _ => skipToBoundary ts

/-- Report a fault and go on after the next statement boundary, if that many faults are
tolerated. -/
def recover (limit : Nat) (fault : Fault) : Recover Unit := fun s =>
  let recoveries := s.recoveries + 1
  if limit < recoveries then
    .error .exhausted { s with recoveries := recoveries }
  else
    .ok () ⟨skipToBoundary s.tokens, recoveries, s.findings.recordFault fault⟩

/-- Run a step; a fault in it is recovered from, and then there is no result. -/
def recovering {α : Type} (limit : Nat) (step : Recover α) : Recover (Option α) := fun s =>
  match step s with
  | .ok a s => .ok (some a) s
  | .error (.misread fault) s =>
      match recover limit fault s with
      | .ok _ s => .ok none s
      | .error stop s => .error stop s
  | .error stop s => .error stop s

def note (message : String) (location : Location) : Recover Unit := fun s =>
  .ok () { s with findings := s.findings.record .error message (some location) }

/-! ## Declarations -/

/-- Read an expression, unless a token of some kind stands in its place. -/
def unlessAt (kind : TokenKind) (expression : Read Expr) : Read Expr := do
  if (← peekKind 0) == kind then return .empty else expression

/-- Read the value a variable starts with, if it has one. -/
def initialValue (value : Read Expr) : Read Expr := do
  match ← acceptKind .assign with
  | some _ => value
  | none => return .empty

/-- Read a variable's declaration with its semicolon. -/
def declaration (value : Read Expr) : Read Node := do
  let location := (← peek).location
  let type ← typeSpecifier
  let name ← expect .identifier "variable name"
  let initial ← initialValue value
  let _ ← expect .semicolon "';' after variable declaration"
  return .declaration location type name.text initial

def parameter : Read Parameter := do
  let location := (← peek).location
  let type ← typeSpecifier
  let name ← expect .identifier "parameter name"
  return ⟨location, type, name.text⟩

/-- Read the parameters after the first, each behind a comma. -/
def moreParameters : (fuel : Nat) → Read (List Parameter)
  | 0 => return []
  | fuel + 1 => do
      match ← acceptKind .comma with
      | none => return []
      | some _ =>
          let p ← parameter
          return p :: (← moreParameters fuel)

/-- Read the parameters of a function; a lone `void` stands for none. -/
def parameters : Read (List Parameter) := do
  let kind ← peekKind 0
  if kind == .voidType && (← peekKind 1) == .rightParen then
    let _ ← advance
    return []
  else if kind == .rightParen then
    return []
  else
    let p ← parameter
    return p :: (← moreParameters (← remaining))

/-! ## Statements -/

/-- What a statement is made of: the expressions in it, and the statements in it. -/
structure Parts where
  expression : Read Expr
  statement : Recover (Option Node)

/-- Read statements up to a closing brace or the end of the input. -/
def statements (statement : Recover (Option Node)) : (fuel : Nat) → Recover (List Node)
  | 0 => return []
  | fuel + 1 => do
      let kind ← reading (peekKind 0)
      if kind == .rightBrace || kind == .endOfInput then
        return []
      else
        let node ← statement
        return node.toList ++ (← statements statement fuel)

/-- Read statements between braces.  A block cut off by the end of the input is reported and
kept. -/
def block (statement : Recover (Option Node)) : Recover Node := do
  let location := (← reading peek).location
  let _ ← reading (expect .leftBrace "'\x7b'")
  let body ← statements statement (← reading remaining)
  let t ← reading peek
  if t.kind == .endOfInput then
    note "expected '\x7d' before end of input" t.location
  else
    let _ ← reading advance
  return .block location body

/-- Read a statement inside another; one that cannot be read leaves its place empty. -/
def substatement (parts : Parts) : Recover Node := do
  return (← parts.statement).getD .empty

/-- Read the alternative of a choice, if it has one. -/
def alternative (parts : Parts) : Recover Node := do
  match ← reading (acceptKind .elseWord) with
  | some _ => substatement parts
  | none => return .empty

def condition (expression : Read Expr) (opening closing : String) : Read Expr := do
  let _ ← expect .leftParen opening
  let test ← expression
  let _ ← expect .rightParen closing
  return test

def branch (parts : Parts) : Recover Node := do
  let location := (← reading advance).location
  let test ← reading (condition parts.expression "'(' after 'if'" "')' after if condition")
  let consequent ← substatement parts
  let otherwise ← alternative parts
  return .branch location test consequent otherwise

/-- Read an expression by itself, unless a semicolon stands in its place. -/
def bareInit (expression : Read Expr) : Read Node := do
  if (← peekKind 0) == .semicolon then return .empty else return .bare (← expression)

/-- Read the first part of a loop header with its semicolon. -/
def loopInit (expression : Read Expr) : Read Node := do
  if ← atType then
    declaration expression
  else
    let init ← bareInit expression
    let _ ← expect .semicolon "';' after for-loop initializer"
    return init

/-- Read the header of a counted loop: its first part, its condition and its step. -/
def loopHeader (expression : Read Expr) : Read (Node × Expr × Expr) := do
  let _ ← expect .leftParen "'(' after 'for'"
  let init ← loopInit expression
  let test ← unlessAt .semicolon expression
  let _ ← expect .semicolon "';' after for-loop condition"
  let update ← unlessAt .rightParen expression
  let _ ← expect .rightParen "')' after for-loop"
  return (init, test, update)

def forLoop (parts : Parts) : Recover Node := do
  let location := (← reading advance).location
  let (init, test, update) ← reading (loopHeader parts.expression)
  let body ← substatement parts
  return .forLoop location init test update body

def whileLoop (parts : Parts) : Recover Node := do
  let location := (← reading advance).location
  let test ← reading (condition parts.expression "'(' after 'while'" "')' after while condition")
  let body ← substatement parts
  return .whileLoop location test body

def exit (expression : Read Expr) : Read Node := do
  let location := (← advance).location
  let value ← unlessAt .semicolon expression
  let _ ← expect .semicolon "';' after return"
  return .exit location value

def effect (expression : Read Expr) : Read Node := do
  let location := (← peek).location
  let value ← expression
  let _ ← expect .semicolon "';' after expression"
  return .effect location value

def statementOf (parts : Parts) : Recover Node := do
  match ← reading (peekKind 0) with
  | .ifWord => branch parts
  | .forWord => forLoop parts
  | .whileWord => whileLoop parts
  | .returnWord => reading (exit parts.expression)
  | .leftBrace => block parts.statement
  | kind =>
      if kind.beginsType then reading (declaration parts.expression)
      else reading (effect parts.expression)

/-- Read a statement with a number of levels of nesting left, and recover from a fault in it. -/
def statement (limit : Nat) : (levelsLeft : Nat) → (depth : Nat) → Recover (Option Node)
  | 0, _ => recovering limit (reading (tooDeep maxNesting))
  | n + 1, depth =>
      recovering limit <|
        if maxTreeDepth ≤ depth then
          reading (tooDeep maxTreeDepth)
        else
          statementOf ⟨expression n (depth + 1), statement limit n (depth + 1)⟩

/-! ## Sketches -/

/-- Read the parameters of a function with their parentheses. -/
def parameterList : Read (List Parameter) := do
  let _ ← expect .leftParen "'(' after function name"
  let ps ← parameters
  let _ ← expect .rightParen "')' after parameters"
  return ps

def function (limit : Nat) : Recover Node := do
  let location := (← reading peek).location
  let returnType ← reading typeSpecifier
  let name ← reading (expect .identifier "function name")
  let ps ← reading parameterList
  let body ← block (statement limit maxNesting 0)
  return .function location name.text returnType ps body

def skipSemicolons : List Token → List Token
  | [] => []
  | t :: ts => if t.kind = .semicolon then skipSemicolons ts else t :: ts

/-- Read a top-level declaration.  Semicolons, and a token that begins no declaration, are
passed over. -/
def topLevel (limit : Nat) : Recover (Option Node) := do
  modify fun s => { s with tokens := skipSemicolons s.tokens }
  let tokens := (← get).tokens
  if kindAt 0 tokens == .endOfInput then
    return none
  else
    let length := typeLength 0 tokens
    if length != 0 && kindAt length tokens == .identifier then
      if kindAt (length + 1) tokens == .leftParen then
        return some (← function limit)
      else
        return some (← reading (declaration (expression maxNesting 0)))
    else
      let _ ← reading advance
      return none

/-- Read top-level declarations up to the end of the input, and say why reading stopped before
it, if it did. -/
def declarations (limit : Nat) : (fuel : Nat) → ReadState → List Node × ReadState × Option Stop
  | 0, s => ([], s, none)
  | fuel + 1, s =>
      if kindAt 0 s.tokens == .endOfInput then
        ([], s, none)
      else
        match recovering limit (topLevel limit) s with
        | .ok node s =>
            let rest := declarations limit fuel s
            (node.join.toList ++ rest.1, rest.2)
        | .error stop s => ([], s, some stop)

/-- The findings of a reading, with the report that it was abandoned, if it was. -/
def closingFindings (s : ReadState) : Option Stop → Findings
  | some .exhausted =>
      s.findings.record .error
        ("parsing abandoned after " ++ Number.decimal s.recoveries ++ " recovered errors")
        (some (s.tokens.headD default).location)
  | _ => s.findings

/-- Tokens as they are read: without comments, and with a mark at their end. -/
def prepare (tokens : List Token) (file : String) : List Token :=
  let ts := tokens.filter Token.isSignificant
  match ts.getLast? with
  | none => [⟨.endOfInput, "", 0, 0, ⟨file, 1, 1⟩⟩]
  | some last =>
      if last.kind = .endOfInput then ts
      else ts ++ [⟨.endOfInput, "", 0, 0, ⟨file, last.location.line, 1⟩⟩]

def parseTokens (tokens : List Token) (file : String) (limit : Nat) : Parsed :=
  let ts := prepare tokens file
  let (body, s, stop) := declarations limit ts.length ⟨ts, 0, .empty "parser"⟩
  { program := ⟨⟨file, 1, 1⟩, body⟩
    diagnostics := (closingFindings s stop).diagnostics
    unreadable :=
      match stop with
      | some (.unreadable text) => some text
      | _ => none }

def parse (source file : String) (limit : Nat) : Parsed :=
  parseTokens (Token.tokenize source file) file limit

end Grammar

end InoBlocks
