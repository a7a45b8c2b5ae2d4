import InoBlocks.Text.Class
import InoBlocks.Token

/-!
# Cutting a sketch into tokens

The lexer never fails.  A character that no rule reads is passed over, and a literal or a
comment that is not closed runs to the end.  `scan` says how far the token at some character
reaches; `tokensFrom` walks over the text one character at a time, and passes over those that
belong to a token already cut.
-/

namespace InoBlocks

namespace Token

/-! ## How far a token reaches -/

def isLayout (c : Char) : Bool :=
  c == ' ' || c == '\t' || c == '\r' || c == '\n' || c == '\x0c' || c == '\x0b'

/-- The length of a comment's inside and its closing mark. -/
def commentLength : List Char → Nat
  | [] => 0
  | '*' :: '/' :: _ => 2
  | _ :: cs => commentLength cs + 1

/-- The length of a literal after its opening quote, the closing quote included.  A backslash
keeps the next character from closing it. -/
def literalLength (quote : Char) : List Char → Nat
  | [] => 0
  | ['\\'] => 1
  | '\\' :: _ :: cs => literalLength quote cs + 2
  | c :: cs => if c = quote then 1 else literalLength quote cs + 1

/-- The length of the rest of a number: digits, and one point at most. -/
def numberLength (pointed : Bool) : List Char → Nat
  | [] => 0
  | c :: cs =>
      if c.isDigit then numberLength pointed cs + 1
      else if c = '.' && !pointed then numberLength true cs + 1
      else 0

def nameLength (cs : List Char) : Nat :=
  (cs.takeWhile Text.isNameChar).length

/-- The kind of the operator or delimiter at `c`, and how many characters it takes after it. -/
def scanOperator (c : Char) (cs : List Char) : Option (TokenKind × Nat) :=
  match cs.head?.bind (TokenKind.ofPair? c) with
  | some kind => some (kind, 1)
  | none => (TokenKind.ofChar? c).map fun kind => (kind, 0)

/-- The token that begins with `c`, which is not layout, and how many characters it takes after
it; nothing, if no rule reads `c`. -/
def scan (c : Char) (cs : List Char) : Option (TokenKind × Nat) :=
  match c, cs with
  | '/', '/' :: rest => some (.comment, (rest.takeWhile (· != '\n')).length + 1)
  | '/', '*' :: rest => some (.comment, commentLength rest + 1)
  | _, _ =>
      if c = '"' || c = '\'' then some (.string, literalLength c cs)
      else if c.isDigit then some (.number, numberLength false cs)
      else if Text.isNameStart c then
        let more := nameLength cs
        some (.ofWord (String.ofList (c :: cs.take more)), more)
      else
        scanOperator c cs

/-! ## The tokens of a text -/

/-- The token that begins with `c` and takes `more` characters after it. -/
def cutAt (file : String) (p : Cursor) (kind : TokenKind) (c : Char) (cs : List Char)
    (more : Nat) : Token :=
  let spelled := c :: cs.take more
  ⟨kind, String.ofList spelled, p.offset, p.offset + spelled.length, p.toLocation file⟩

/-- Whether a token carries meaning: all do but the comments. -/
def isSignificant (t : Token) : Bool :=
  t.kind != .comment

/-- The tokens of a text from some place on, the comments among them if they are kept; the first
`skip` characters belong to a token that is already cut. -/
def tokensFrom (file : String) (keep : Bool) (p : Cursor) (skip : Nat) : List Char → List Token
  | [] => [endAt p file]
  | c :: cs =>
      match skip with
      | skip + 1 => tokensFrom file keep (p.advance c) skip cs
      | 0 =>
          if isLayout c then
            tokensFrom file keep (p.advance c) 0 cs
          else
            match scan c cs with
            | none => tokensFrom file keep (p.advance c) 0 cs
            | some (kind, more) =>
                let t := cutAt file p kind c cs more
                let rest := tokensFrom file keep (p.advance c) more cs
                if keep || t.isSignificant then t :: rest else rest

/-- The tokens of a sketch, the last one marking its end. -/
def tokenize (source : String) (file : String) : List Token :=
  tokensFrom file true .start 0 source.toList

def significant (source : String) (file : String) : List Token :=
  tokensFrom file false .start 0 source.toList

end Token

end InoBlocks
