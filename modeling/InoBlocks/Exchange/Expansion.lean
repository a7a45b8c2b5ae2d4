import InoBlocks.Exchange.Markup
import InoBlocks.Text.Display

/-!
# Expansion

The pieces of a document with its entities in place of their names, and with the attributes that
its elements have without being given them.  An entity holds whole elements: it closes what it
opens, and nothing else.
-/

namespace InoBlocks

namespace Exchange

/-- How many elements are open behind some pieces, if none is closed that has not been opened
there. -/
def openBehind? (depth : Nat) : List Markup → Option Nat
  | [] => some depth
  | .opening _ _ false :: rest => openBehind? (depth + 1) rest
  | .closing _ :: rest =>
      match depth with
      | 0 => none
      | depth + 1 => openBehind? depth rest
  | _ :: rest => openBehind? depth rest

/-- Whether pieces close what they open, and nothing else. -/
def isBalanced (pieces : List Markup) : Bool :=
  openBehind? 0 pieces == some 0

def Markup.names : Markup → List (List Char)
  | reference name => [name]
  | opening _ attributes _ => attributes.flatMap fun a => namesIn a.value
  | _ => []

namespace DocumentType

/-- Pieces with entities, so many levels deep, in place of their names.  An entity counts as text,
even if it is empty. -/
def expandWithin? (d : DocumentType) : (levels : Nat) → List Markup → Option (List Markup)
  | 0, _ => none
  | levels + 1, pieces => do
      let expanded ← pieces.mapM fun piece =>
        match piece with
        | .reference name => do
            let inner ← pieces? (← (← d.entities.lookup name))
            guard (isBalanced inner)
            return .text [] :: (← d.expandWithin? levels inner)
        | .opening name attributes closed => do
            return [.opening name (← d.attributes? name attributes) closed]
        | piece => some [piece]
      return expanded.flatten

/-- The document type that pieces declare, if its declarations are sound. -/
def ofPieces? (start : DocumentType) (pieces : List Markup) : Option DocumentType :=
  let declarations := pieces.findSome? fun piece =>
    match piece with
    | .doctype ds => some ds
    | _ => none
  (declarations.getD []).foldlM takeUp? start

/-- Pieces with entities in place of their names, if there is room for them. -/
def expand? (d : DocumentType) (pieces : List Markup) : Option (List Markup) := do
  guard (d.hasRoom (pieces.flatMap Markup.names))
  d.expandWithin? (d.levels + 1) pieces

end DocumentType

/-- The pieces of a document, its entities in place of their names.  Every line end in it counts
as a line feed; codes of characters do not. -/
def documentPieces? (document : List Char) : Option (List Markup) := do
  let document := Text.unifyLineEnds document
  let (standalone, body) ← body? document
  let pieces ← pieces? body
  let d ← DocumentType.ofPieces? (.bare standalone document) pieces
  d.expand? pieces

end Exchange

end InoBlocks
