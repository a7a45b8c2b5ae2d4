import InoBlocks.Text.Display

/-!
# Elements

Markup as a tree, and how it is written down.  An element has a name, attributes, text up to its
first child, and children.  Written out, each child stands on a line of its own, indented by two
blanks for each level; an element without children stands on one line with its text.
-/

namespace InoBlocks

namespace Exchange

/-- An element. -/
inductive Element where
  | mk (name : String) (attributes : List (String × String)) (text : String)
      (children : List Element)

namespace Element

def name : Element → String
  | mk n _ _ _ => n

def attributes : Element → List (String × String)
  | mk _ as _ _ => as

def text : Element → String
  | mk _ _ t _ => t

def children : Element → List Element
  | mk _ _ _ cs => cs

def attribute? (e : Element) (name : String) : Option String :=
  e.attributes.lookup name

def withAttributes (e : Element) (more : List (String × String)) : Element :=
  .mk e.name (e.attributes ++ more) e.text e.children

def withChild (e child : Element) : Element :=
  .mk e.name e.attributes e.text (e.children ++ [child])

/-! ## Writing -/

def escapeText (c : Char) : List Char :=
  match c with
  | '&' => "&amp;".toList
  | '<' => "&lt;".toList
  | '>' => "&gt;".toList
  | c => [c]

/-- A character of an attribute; what a reader would take for a blank is written as a number. -/
def escapeAttribute (c : Char) : List Char :=
  match c with
  | '"' => "&quot;".toList
  | '\r' => "&#13;".toList
  | '\n' => "&#10;".toList
  | '\t' => "&#09;".toList
  | c => escapeText c

def writeAttribute (a : String × String) : List Char :=
  ' ' :: a.1.toList ++ '=' :: '"' :: a.2.toList.flatMap escapeAttribute ++ ['"']

def indent (level : Nat) : List Char :=
  List.replicate (2 * level) ' '

mutual

def write (level : Nat) : Element → List Char
  | mk name attributes text children =>
      let front := '<' :: name.toList ++ attributes.flatMap writeAttribute
      let back := '<' :: '/' :: name.toList ++ ['>']
      match children with
      | [] =>
          if text == "" then front ++ [' ', '/', '>']
          else front ++ '>' :: text.toList.flatMap escapeText ++ back
      | child :: rest =>
          front ++ '>' :: writeLines (level + 1) (child :: rest) ++ '\n' :: indent level ++ back

def writeLines (level : Nat) : List Element → List Char
  | [] => []
  | e :: es => '\n' :: indent level ++ e.write level ++ writeLines level es

end

def toText (e : Element) : String :=
  String.ofList (e.write 0)

/-! ## Height -/

mutual

/-- The levels of an element and those in it. -/
def height : Element → Nat
  | mk _ _ _ children => heightAll children + 1

def heightAll : List Element → Nat
  | [] => 0
  | e :: es => max e.height (heightAll es)

end

end Element

end Exchange

end InoBlocks
