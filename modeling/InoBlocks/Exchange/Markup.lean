import InoBlocks.Exchange.DocumentType

/-!
# Markup

The pieces of XML text: tags, character data, references, and what is passed over.  Codes of
characters are resolved here, and so are the names that are known everywhere; whether tags match
is decided where the tree is built.
-/

namespace InoBlocks

namespace Exchange

/-! ## Attributes and tags -/

/-- An attribute at the front of a text, its value as it is written, and the text after it. -/
def attribute? (cs : List Char) : Option (Attribute × List Char) := do
  let (name, rest) ← qualifiedName? cs
  match skipSpace rest with
  | '=' :: rest =>
      let (raw, rest) ← quoted? (skipSpace rest)
      return (⟨name, raw⟩, rest)
  | _ => none

/-- A piece of markup. -/
inductive Markup where
  /-- White space as it is. -/
  | space (cs : List Char)
  /-- Character data. -/
  | text (cs : List Char)
  /-- A name that stands for a text. -/
  | reference (name : List Char)
  /-- The start of an element, and its end too if the tag is closed. -/
  | opening (name : QualifiedName) (attributes : List Attribute) (closed : Bool)
  /-- The end of an element. -/
  | closing (name : QualifiedName)
  /-- The declaration of a document type. -/
  | doctype (declarations : List Declaration)
  /-- What is passed over. -/
  | aside
  deriving DecidableEq, Repr

/-- The rest of an opening tag: attributes, each behind white space, up to its end.  Every
attribute takes characters, which bounds them. -/
def tagRest? (fuel : Nat) (name : QualifiedName) (done : List Attribute) (cs : List Char) :
    Option (Markup × List Char) :=
  match fuel with
  | 0 => none
  | fuel + 1 =>
      match skipSpace cs with
      | '>' :: rest => some (.opening name done false, rest)
      | '/' :: '>' :: rest => some (.opening name done true, rest)
      | behind =>
          if (cs.head?.map isSpace).getD false then do
            let (a, rest) ← attribute? behind
            tagRest? fuel name (done ++ [a]) rest
          else
            none

def openingTag? (cs : List Char) : Option (Markup × List Char) := do
  let (name, rest) ← qualifiedName? cs
  tagRest? (rest.length + 1) name [] rest

def closingTag? (cs : List Char) : Option (Markup × List Char) := do
  let (name, rest) ← qualifiedName? cs
  match skipSpace rest with
  | '>' :: rest => some (.closing name, rest)
  | _ => none

/-! ## Text -/

/-- Verbatim text from behind its `<![CDATA[`, and the text after it. -/
def verbatim? : List Char → Option (List Char × List Char)
  | [] => none
  | ']' :: ']' :: '>' :: rest => some ([], rest)
  | c :: cs =>
      if isXmlChar c then (verbatim? cs).map fun (inside, rest) => (c :: inside, rest) else none

def characterData? (raw : List Char) : Option Markup :=
  if raw.all isSpace then
    some (.space raw)
  else if Text.occursIn "]]>".toList raw || !raw.all isXmlChar then
    none
  else
    some (.text raw)

def Markup.ofPart : Part → Markup
  | .char c => text [c]
  | .named name => ((predefined? name).map fun c => text [c]).getD (reference name)

/-- A reference behind its `&`, and the text after it. -/
def reference? (cs : List Char) : Option (Markup × List Char) := do
  match cs.dropWhile (· != ';') with
  | _ :: rest => return (.ofPart (← Part.ofReference? (cs.takeWhile (· != ';'))), rest)
  | [] => none

def isData (c : Char) : Bool :=
  c != '<' && c != '&'

/-! ## Pieces -/

/-- A piece that something else begins, behind its `<!`. -/
def special? (cs : List Char) : Option (Markup × List Char) :=
  match Text.after? "--".toList cs with
  | some rest => (afterComment? rest).map fun rest => (.aside, rest)
  | none =>
      match Text.after? "[CDATA[".toList cs with
      | some rest =>
          (verbatim? rest).map fun (inside, rest) => (.text inside, rest)
      | none => (Declaration.documentType? cs).map fun (ds, rest) => (.doctype ds, rest)

/-- The piece at the front of a text, and the text after it. -/
def piece? (cs : List Char) : Option (Markup × List Char) :=
  match cs with
  | '<' :: '!' :: rest => special? rest
  | '<' :: '?' :: rest => (instruction? rest).map fun rest => (.aside, rest)
  | '<' :: '/' :: rest => closingTag? rest
  | '<' :: rest => openingTag? rest
  | '&' :: rest => reference? rest
  | cs => (characterData? (cs.takeWhile isData)).map fun piece => (piece, cs.dropWhile isData)

/-- The pieces of a text.  Every piece takes characters, which bounds them. -/
def piecesWith? : (fuel : Nat) → List Char → Option (List Markup)
  | _, [] => some []
  | 0, _ => none
  | fuel + 1, cs => do
      let (first, rest) ← piece? cs
      return first :: (← piecesWith? fuel rest)

def pieces? (cs : List Char) : Option (List Markup) :=
  piecesWith? cs.length cs

/-! ## The front of a document -/

/-- A setting of the declaration in front of a document, by its name: its value and the text
after it. -/
def setting? (name : String) (cs : List Char) : Option (List Char × List Char) := do
  let rest ← Text.after? name.toList (← afterSpace? cs)
  match skipSpace rest with
  | '=' :: rest =>
      let (value, rest) ← quoted? (skipSpace rest)
      if value.all fun c => c.isAlphanum || c == '.' || c == '-' || c == '_' then
        some (value, rest)
      else
        none
  | _ => none

/-- A setting whose value is fit, if it is there, and the text behind it. -/
def optionalSetting? (name : String) (fits : List Char → Bool) (cs : List Char) :
    Option (Option (List Char) × List Char) :=
  match (afterSpace? cs).bind (Text.after? name.toList) with
  | none => some (none, cs)
  | some _ => do
      let (value, rest) ← setting? name cs
      if fits value then some (some value, rest) else none

def startsWithLetter (cs : List Char) : Bool :=
  (cs.head?.map Char.isAlpha).getD false

/-- The declaration in front of a document, from behind its `<?xml`: whether the document stands
alone, and the text behind the declaration. -/
def front? (cs : List Char) : Option (Bool × List Char) := do
  let (_, rest) ← setting? "version" cs
  let (_, rest) ← optionalSetting? "encoding" startsWithLetter rest
  let isAnswer (value : List Char) : Bool := value == "yes".toList || value == "no".toList
  let (standalone, rest) ← optionalSetting? "standalone" isAnswer rest
  return (standalone == some "yes".toList, ← Text.after? "?>".toList (skipSpace rest))

/-- The text of a document behind a byte order mark and a declaration, if they are there, and
whether it stands alone. -/
def body? (cs : List Char) : Option (Bool × List Char) :=
  let body := if cs.head? == some '\uFEFF' then cs.drop 1 else cs
  match Text.after? "<?xml".toList body with
  | none => some (false, body)
  | some rest => if (rest.head?.map isNameChar).getD false then some (false, body) else front? rest

end Exchange

end InoBlocks
