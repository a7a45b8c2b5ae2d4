import InoBlocks.Location

/-!
# Tokens

The words of a sketch.  The constants of a board (`HIGH`, `OUTPUT`, ...) have kinds of their
own, so that the grammar can take them for literals without a symbol table.
-/

namespace InoBlocks

/-- What a token is. -/
inductive TokenKind where
  | number
  | string
  | identifier
  | boolean
  | voidType
  | intType
  | floatType
  | charType
  | booleanType
  | stringType
  | longType
  | byteType
  | unsigned
  | ifWord
  | elseWord
  | forWord
  | whileWord
  | returnWord
  | high
  | low
  | input
  | output
  | inputPullup
  | assign
  | plusAssign
  | plus
  | minus
  | multiply
  | divide
  | modulo
  | increment
  | decrement
  | equal
  | notEqual
  | lessThan
  | lessEqual
  | greaterThan
  | greaterEqual
  | logicalAnd
  | logicalOr
  | logicalNot
  | semicolon
  | comma
  | dot
  | leftParen
  | rightParen
  | leftBrace
  | rightBrace
  | comment
  | endOfInput
  deriving DecidableEq, Repr

namespace TokenKind

def name : TokenKind → String
  | number => "NUMBER"
  | string => "STRING"
  | identifier => "IDENTIFIER"
  | boolean => "BOOLEAN"
  | voidType => "VOID"
  | intType => "INT"
  | floatType => "FLOAT"
  | charType => "CHAR"
  | booleanType => "BOOLEAN_TYPE"
  | stringType => "STRING_TYPE"
  | longType => "LONG"
  | byteType => "BYTE"
  | unsigned => "UNSIGNED"
  | ifWord => "IF"
  | elseWord => "ELSE"
  | forWord => "FOR"
  | whileWord => "WHILE"
  | returnWord => "RETURN"
  | high => "HIGH"
  | low => "LOW"
  | input => "INPUT"
  | output => "OUTPUT"
  | inputPullup => "INPUT_PULLUP"
  | assign => "ASSIGN"
  | plusAssign => "PLUS_ASSIGN"
  | plus => "PLUS"
  | minus => "MINUS"
  | multiply => "MULTIPLY"
  | divide => "DIVIDE"
  | modulo => "MODULO"
  | increment => "INCREMENT"
  | decrement => "DECREMENT"
  | equal => "EQUAL"
  | notEqual => "NOT_EQUAL"
  | lessThan => "LESS_THAN"
  | lessEqual => "LESS_EQUAL"
  | greaterThan => "GREATER_THAN"
  | greaterEqual => "GREATER_EQUAL"
  | logicalAnd => "LOGICAL_AND"
  | logicalOr => "LOGICAL_OR"
  | logicalNot => "LOGICAL_NOT"
  | semicolon => "SEMICOLON"
  | comma => "COMMA"
  | dot => "DOT"
  | leftParen => "LEFT_PAREN"
  | rightParen => "RIGHT_PAREN"
  | leftBrace => "LEFT_BRACE"
  | rightBrace => "RIGHT_BRACE"
  | comment => "COMMENT"
  | endOfInput => "EOF"

def all : List TokenKind := [
    number, string, identifier, boolean, voidType, intType, floatType, charType, booleanType,
    stringType, longType, byteType, unsigned, ifWord, elseWord, forWord, whileWord, returnWord,
    high, low, input, output, inputPullup, assign, plusAssign, plus, minus, multiply, divide,
    modulo, increment, decrement, equal, notEqual, lessThan, lessEqual, greaterThan,
    greaterEqual, logicalAnd, logicalOr, logicalNot, semicolon, comma, dot, leftParen,
    rightParen, leftBrace, rightBrace, comment, endOfInput]

def ofName? (s : String) : Option TokenKind :=
  all.find? fun kind => kind.name == s

def namesType : TokenKind → Bool
  | voidType | intType | floatType | charType | booleanType | stringType | longType | byteType =>
      true
  | _ => false

def beginsType (kind : TokenKind) : Bool :=
  kind.namesType || kind == unsigned

def isConstant : TokenKind → Bool
  | high | low | input | output | inputPullup => true
  | _ => false

def keywords : List (String × TokenKind) := [
    ("void", voidType), ("int", intType), ("float", floatType), ("char", charType),
    ("boolean", booleanType), ("String", stringType), ("long", longType), ("byte", byteType),
    ("unsigned", unsigned), ("if", ifWord), ("else", elseWord), ("for", forWord),
    ("while", whileWord), ("return", returnWord), ("true", boolean), ("false", boolean),
    ("HIGH", high), ("LOW", low), ("INPUT", input), ("OUTPUT", output),
    ("INPUT_PULLUP", inputPullup)]

def ofWord (word : String) : TokenKind :=
  (keywords.lookup word).getD identifier

def ofPair? : Char → Char → Option TokenKind
  | '=', '=' => some equal
  | '!', '=' => some notEqual
  | '<', '=' => some lessEqual
  | '>', '=' => some greaterEqual
  | '&', '&' => some logicalAnd
  | '|', '|' => some logicalOr
  | '+', '+' => some increment
  | '-', '-' => some decrement
  | '+', '=' => some plusAssign
  | _, _ => none

def ofChar? : Char → Option TokenKind
  | '=' => some assign
  | '+' => some plus
  | '-' => some minus
  | '*' => some multiply
  | '/' => some divide
  | '%' => some modulo
  | '<' => some lessThan
  | '>' => some greaterThan
  | '!' => some logicalNot
  | ';' => some semicolon
  | ',' => some comma
  | '.' => some dot
  | '(' => some leftParen
  | ')' => some rightParen
  | '{' => some leftBrace
  | '}' => some rightBrace
  | _ => none

end TokenKind

/-- A token: its kind, its exact spelling, and where it stands. -/
structure Token where
  kind : TokenKind
  text : String
  start : Nat
  stop : Nat
  location : Location
  deriving DecidableEq, Repr

namespace Token

def endAt (p : Cursor) (file : String) : Token :=
  ⟨.endOfInput, "", p.offset, p.offset, p.toLocation file⟩

instance : Inhabited Token := ⟨endAt .start "<sketch>"⟩

/-- Two tokens are the same word if they have one kind and one spelling, wherever they stand. -/
def sameWord (s t : Token) : Bool :=
  s.kind == t.kind && s.text == t.text

end Token

end InoBlocks
