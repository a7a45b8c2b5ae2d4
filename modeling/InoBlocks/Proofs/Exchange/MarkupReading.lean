import InoBlocks.Exchange.Tree
import InoBlocks.Exchange.Workspace
import Mathlib.Data.Option.Basic

/-!
# Markup read back

Written text and written tags are read as the pieces they were written for.  A text leads from one
state of the reader to a finished document if its pieces, one after the other, do; what the front
of a text changes is said here for whatever stands behind it.
-/

namespace InoBlocks

namespace Exchange

/-!
## Escaped text

What is written for a character of text or of an attribute is read as that character again, as
long as it is a character that markup may hold.  A carriage return is not among them: a reader
takes it for a line feed.
-/

/-- A character that a text keeps when it is written as markup and read again. -/
def isCarried (c : Char) : Bool :=
  isXmlChar c && c != '\r'

def Carried (cs : List Char) : Prop :=
  ∀ c ∈ cs, isCarried c = true

instance (cs : List Char) : Decidable (Carried cs) :=
  inferInstanceAs (Decidable (∀ c ∈ cs, isCarried c = true))

theorem Carried.xmlChar {cs : List Char} (h : Carried cs) {c : Char} (hc : c ∈ cs) :
    isXmlChar c = true := by
  have := h c hc
  simp only [isCarried, Bool.and_eq_true] at this
  exact this.1

theorem Carried.ne_return {cs : List Char} (h : Carried cs) {c : Char} (hc : c ∈ cs) :
    c ≠ '\r' := by
  have := h c hc
  simp only [isCarried, Bool.and_eq_true, bne_iff_ne] at this
  exact this.2

/-- A pass that succeeds everywhere gives what it gives at each place. -/
theorem mapM_eq_some {α β : Type} {f : α → Option β} {g : α → β} {as : List α}
    (h : ∀ a ∈ as, f a = some (g a)) : as.mapM f = some (as.map g) := by
  induction as with
  | nil => rfl
  | cons a as ih =>
      rw [List.mapM_cons, h a List.mem_cons_self,
        ih fun b hb => h b (List.mem_cons_of_mem a hb)]
      rfl

/-! ## Attributes -/

/-- The part of a text that an escaped character of an attribute is read as. -/
def attributePart (c : Char) : Part :=
  match c with
  | '&' => .named "amp".toList
  | '<' => .named "lt".toList
  | '>' => .named "gt".toList
  | '"' => .named "quot".toList
  | c => .char c

/-- Every part is either the character itself or a name that everybody knows for it. -/
theorem attributePart_cases (c : Char) :
    attributePart c = .char c ∨
      ∃ name, attributePart c = .named name ∧ predefined? name = some c := by
  unfold attributePart
  split
  · exact Or.inr ⟨_, rfl, rfl⟩
  · exact Or.inr ⟨_, rfl, rfl⟩
  · exact Or.inr ⟨_, rfl, rfl⟩
  · exact Or.inr ⟨_, rfl, rfl⟩
  · exact Or.inl rfl

/-- A character is written as a reference or, where nothing can mistake it, as it is. -/
theorem escapeAttribute_cases (c : Char) :
    c ∈ ['&', '<', '>', '"', '\r', '\n', '\t'] ∨
      (Element.escapeAttribute c = [c] ∧ attributePart c = .char c ∧ c ≠ '&' ∧ c ≠ '<' ∧
        c ≠ '"' ∧ c ≠ '\r' ∧ c ≠ '\n' ∧ c ≠ '\t') := by
  by_cases h : c ∈ ['&', '<', '>', '"', '\r', '\n', '\t']
  · exact Or.inl h
  · refine Or.inr ?_
    simp only [List.mem_cons, List.not_mem_nil, or_false, not_or] at h
    obtain ⟨hamp, hlt, hgt, hquote, hreturn, hfeed, htab⟩ := h
    refine ⟨?_, ?_, hamp, hlt, hquote, hreturn, hfeed, htab⟩
    · unfold Element.escapeAttribute Element.escapeText
      split <;> first | contradiction | (split <;> first | contradiction | rfl)
    · unfold attributePart
      split <;> first | contradiction | rfl

/-- A reference is read up to its semicolon, whatever part of it has been read. -/
theorem partsFrom?_pending (done name rest : List Char) (hname : ';' ∉ name) :
    partsFrom? (some done) (name ++ ';' :: rest) =
      (Part.ofReference? (done.reverse ++ name)).bind fun part =>
        (partsFrom? none rest).map (part :: ·) := by
  induction name generalizing done with
  | nil =>
      simp only [List.nil_append, partsFrom?, beq_self_eq_true, if_true, List.append_nil]
      cases Part.ofReference? done.reverse <;> cases partsFrom? none rest <;> rfl
  | cons c name ih =>
      rw [List.mem_cons, not_or] at hname
      have hc : (c == ';') = false := by simpa using Ne.symm hname.1
      rw [List.cons_append, partsFrom?, hc, if_neg Bool.false_ne_true, ih _ hname.2,
        List.reverse_cons, List.append_assoc, List.singleton_append]

theorem partsFrom?_reference (name : List Char) {part : Part}
    (hpart : Part.ofReference? name = some part) (hname : ';' ∉ name) (rest : List Char) :
    partsFrom? none ('&' :: (name ++ ';' :: rest)) = (partsFrom? none rest).map (part :: ·) := by
  have h := partsFrom?_pending [] name rest hname
  rw [List.reverse_nil, List.nil_append, hpart, Option.bind_some] at h
  rw [partsFrom?, beq_self_eq_true, if_pos rfl, h]

/-- White space counts as a blank in an attribute; what is written for a character holds no other
white space. -/
theorem partsFrom?_escapeAttribute (c : Char) (rest : List Char) :
    partsFrom? none ((Element.escapeAttribute c).map (fun d => if isSpace d then ' ' else d)
        ++ rest) =
      (partsFrom? none rest).map (attributePart c :: ·) := by
  rcases escapeAttribute_cases c with h | ⟨hself, hpart, hamp, -, -, hreturn, hfeed, htab⟩
  · simp only [List.mem_cons, List.not_mem_nil, or_false] at h
    rcases h with rfl | rfl | rfl | rfl | rfl | rfl | rfl
    · exact partsFrom?_reference "amp".toList (by decide) (by decide) rest
    · exact partsFrom?_reference "lt".toList (by decide) (by decide) rest
    · exact partsFrom?_reference "gt".toList (by decide) (by decide) rest
    · exact partsFrom?_reference "quot".toList (by decide) (by decide) rest
    · exact partsFrom?_reference "#13".toList (by decide) (by decide) rest
    · exact partsFrom?_reference "#10".toList (by decide) (by decide) rest
    · exact partsFrom?_reference "#09".toList (by decide) (by decide) rest
  · have hblank : (if isSpace c then ' ' else c) = c := by
      by_cases hc : c = ' '
      · subst hc
        rfl
      · simp [isSpace, hc, hreturn, hfeed, htab]
    rw [hself, hpart, List.map_singleton, hblank, List.singleton_append, partsFrom?]
    simp [hamp]

theorem parts?_escapeAttribute (cs : List Char) :
    parts? ((cs.flatMap Element.escapeAttribute).map fun d => if isSpace d then ' ' else d) =
      some (cs.map attributePart) := by
  unfold parts?
  induction cs with
  | nil => rfl
  | cons c cs ih =>
      rw [List.flatMap_cons, List.map_append, partsFrom?_escapeAttribute, ih, List.map_cons]
      rfl

/-- What is written for a character of an attribute can stand there. -/
theorem escapeAttribute_sound {c : Char} (hc : isXmlChar c = true) :
    ∀ d ∈ Element.escapeAttribute c, isXmlChar d = true ∧ d ≠ '<' ∧ d ≠ '"' ∧ d ≠ '\r' := by
  rcases escapeAttribute_cases c with h | ⟨hself, -, -, hlt, hquote, hreturn, -, -⟩
  · simp only [List.mem_cons, List.not_mem_nil, or_false] at h
    rcases h with rfl | rfl | rfl | rfl | rfl | rfl | rfl <;> decide
  · rw [hself]
    intro d hd
    rw [List.mem_singleton] at hd
    subst hd
    exact ⟨hc, hlt, hquote, hreturn⟩

/-- An attribute has the value that it was written with. -/
theorem valueWithin?_escapeAttribute (d : DocumentType) (levels : Nat) {cs : List Char}
    (hcs : ∀ c ∈ cs, isXmlChar c = true) :
    d.valueWithin? (levels + 1) (cs.flatMap Element.escapeAttribute) = some cs := by
  have hsound : ∀ e ∈ cs.flatMap Element.escapeAttribute, isXmlChar e = true ∧ e ≠ '<' := by
    intro e he
    obtain ⟨c, hc, hec⟩ := List.mem_flatMap.mp he
    have h := escapeAttribute_sound (hcs c hc) e hec
    exact ⟨h.1, h.2.1⟩
  have hangle : (cs.flatMap Element.escapeAttribute).contains '<' = false := by
    rw [List.contains_eq_mem, decide_eq_false_iff_not]
    exact fun h => (hsound _ h).2 rfl
  have hchars : (cs.flatMap Element.escapeAttribute).all isXmlChar = true :=
    List.all_eq_true.mpr fun e he => (hsound e he).1
  unfold DocumentType.valueWithin?
  rw [hangle, hchars, parts?_escapeAttribute]
  have hguard : (guard (!false && true) : Option Unit) = some () := rfl
  rw [hguard, Option.bind_eq_bind, Option.bind_some, Option.bind_eq_bind, Option.bind_some,
    List.mapM_map, mapM_eq_some (g := fun c => [c])]
  · simp [← List.flatMap_def]
  · intro c hc
    rcases attributePart_cases c with h | ⟨name, h, hname⟩
    · rw [Function.comp_apply, h]
    · simp only [Function.comp_apply, h, hname]

/-! ## Pieces one after the other -/

/-- What a piece stands for in a document without entities of its own. -/
inductive StandsFor (d : DocumentType) : Markup → Markup → Prop
  | opening {name : QualifiedName} {given own : List Attribute} {closed : Bool}
      (h : d.attributes? name given = some own) :
      StandsFor d (.opening name given closed) (.opening name own closed)
  | space (cs : List Char) : StandsFor d (.space cs) (.space cs)
  | text (cs : List Char) : StandsFor d (.text cs) (.text cs)
  | closing (name : QualifiedName) : StandsFor d (.closing name) (.closing name)

/-- A text leads from a state to a document with a given outermost element. -/
inductive Leads (d : DocumentType) (root : Element) : Progress → List Char → Prop
  | done : Leads d root (.after root) []
  | piece {p q : Progress} {cs rest : List Char} {written read : Markup}
      (hpiece : piece? cs = some (written, rest)) (hless : rest.length < cs.length)
      (hstands : StandsFor d written read) (hstep : step? p read = some q)
      (hrest : Leads d root q rest) : Leads d root p cs

theorem StandsFor.expandWithin?_cons {d : DocumentType} {written read : Markup}
    {pieces expanded : List Markup} {levels : Nat} (hstands : StandsFor d written read)
    (h : d.expandWithin? (levels + 1) pieces = some expanded) :
    d.expandWithin? (levels + 1) (written :: pieces) = some (read :: expanded) := by
  simp only [DocumentType.expandWithin?, Option.bind_eq_bind, Option.bind_eq_some_iff] at h
  obtain ⟨parts, hparts, hflat⟩ := h
  simp only [DocumentType.expandWithin?, List.mapM_cons]
  cases hstands <;> simp_all

theorem Leads.pieces {d : DocumentType} {root : Element} {p : Progress} {cs : List Char}
    (h : Leads d root p cs) (levels : Nat) :
    ∃ pieces expanded : List Markup,
      (∀ fuel, cs.length ≤ fuel → piecesWith? fuel cs = some pieces) ∧
        (∀ piece ∈ pieces, ∀ ds, piece ≠ .doctype ds) ∧
        d.expandWithin? (levels + 1) pieces = some expanded ∧
        expanded.foldlM step? p = some (.after root) := by
  induction h with
  | done =>
      refine ⟨[], [], fun fuel _ => ?_, by simp, rfl, rfl⟩
      cases fuel <;> rfl
  | @piece p q cs rest written read hpiece hless hstands hstep hrest ih =>
      obtain ⟨pieces, expanded, hpieces, hplain, hexpand, hfold⟩ := ih
      refine ⟨written :: pieces, read :: expanded, fun fuel hfuel => ?_, ?_,
        hstands.expandWithin?_cons hexpand, ?_⟩
      · obtain ⟨fuel, rfl⟩ : ∃ n, fuel = n + 1 := ⟨fuel - 1, by omega⟩
        obtain ⟨c, cs, rfl⟩ := List.exists_cons_of_length_pos (by omega : 0 < cs.length)
        simp [piecesWith?, hpiece, hpieces fuel (by omega)]
      · intro piece hmem ds
        rcases List.mem_cons.mp hmem with rfl | hmem
        · cases hstands <;> simp
        · exact hplain piece hmem ds
      · simp [hstep, hfold]

/-! ## Text -/

/-- What is written for a character of text is the character itself, unless it is a mark. -/
theorem escapeText_cases (c : Char) :
    c ∈ ['&', '<', '>'] ∨
      (Element.escapeText c = [c] ∧ c ≠ '&' ∧ c ≠ '<' ∧ c ≠ '>') := by
  by_cases h : c ∈ ['&', '<', '>']
  · exact Or.inl h
  · refine Or.inr ?_
    simp only [List.mem_cons, List.not_mem_nil, or_false, not_or] at h
    obtain ⟨hamp, hlt, hgt⟩ := h
    refine ⟨?_, hamp, hlt, hgt⟩
    unfold Element.escapeText
    split <;> first | contradiction | rfl

theorem Frame.addText_nil (f : Frame) : f.addText [] = f := by
  obtain ⟨tag, scope, name, attributes, text, children⟩ := f
  cases children <;> simp [Frame.addText]

theorem Frame.addText_addText (f : Frame) (cs ds : List Char) :
    (f.addText cs).addText ds = f.addText (cs ++ ds) := by
  obtain ⟨tag, scope, name, attributes, text, children⟩ := f
  cases children <;> simp [Frame.addText, String.append_assoc]

def isPlain (c : Char) : Bool :=
  c != '&' && c != '<' && c != '>'

def AtTag (cs : List Char) : Prop :=
  ∀ c ∈ cs.head?, c = '<'

theorem mem_of_occursIn {pattern cs : List Char} (h : Text.occursIn pattern cs = true) {c : Char}
    (hc : c ∈ pattern) : c ∈ cs := by
  induction cs with
  | nil => simp_all [Text.occursIn]
  | cons d cs ih =>
      simp only [Text.occursIn, Text.startsWith, Bool.or_eq_true, List.isPrefixOf_iff_prefix] at h
      rcases h with h | h
      · exact h.mem hc
      · exact List.mem_cons_of_mem d (ih h)

section

variable {d : DocumentType} {root : Element} {top : Frame} {outer : List Frame}
  {rest : List Char}

/-- A reference to a character that everybody knows. -/
theorem Leads.mark {c : Char} (hc : c ∈ ['&', '<', '>'])
    (h : Leads d root (.inside (top.addText [c]) outer) rest) :
    Leads d root (.inside top outer) (Element.escapeText c ++ rest) := by
  have hpiece : piece? (Element.escapeText c ++ rest) = some (.text [c], rest) := by
    simp only [List.mem_cons, List.not_mem_nil, or_false] at hc
    rcases hc with rfl | rfl | rfl <;> rfl
  refine .piece hpiece ?_ (.text [c]) rfl h
  simp only [List.mem_cons, List.not_mem_nil, or_false] at hc
  rcases hc with rfl | rfl | rfl <;> simp [Element.escapeText] <;> omega

/-- Characters that stand for themselves, up to a tag or a reference. -/
theorem Leads.plain {cs : List Char} (hplain : ∀ c ∈ cs, isPlain c = true)
    (hcs : Carried cs) (hend : ∀ c ∈ rest.head?, isData c = false)
    (h : Leads d root (.inside (top.addText cs) outer) rest) :
    Leads d root (.inside top outer) (cs ++ rest) := by
  by_cases hne : cs = []
  · subst hne
    rwa [Frame.addText_nil] at h
  have hdata : ∀ c ∈ cs, isData c = true := fun c hc => by
    have := hplain c hc
    simp_all [isPlain, isData]
  have hspan : (cs ++ rest).takeWhile isData = cs ∧ (cs ++ rest).dropWhile isData = rest := by
    rw [List.takeWhile_append_of_pos hdata, List.dropWhile_append_of_pos hdata]
    cases rest with
    | nil => simp
    | cons c rest => simp [hend c rfl]
  have hpiece : piece? (cs ++ rest) = (characterData? cs).map fun piece => (piece, rest) := by
    obtain ⟨c, cs, rfl⟩ := List.exists_cons_of_ne_nil hne
    have hc := hdata c List.mem_cons_self
    simp only [isData, Bool.and_eq_true, bne_iff_ne] at hc
    rw [List.cons_append] at hspan ⊢
    unfold piece?
    split
    iterate 4
      · rename_i heq
        exact absurd (List.cons.inj heq).1 hc.1
    · rename_i heq
      exact absurd (List.cons.inj heq).1 hc.2
    · rw [hspan.1, hspan.2]
  have hless : rest.length < (cs ++ rest).length := by
    rw [List.length_append]
    have := List.length_pos_iff.mpr hne
    omega
  by_cases hspace : cs.all isSpace = true
  · have hdatum : characterData? cs = some (.space cs) := by rw [characterData?, if_pos hspace]
    rw [hdatum] at hpiece
    exact .piece hpiece hless (.space cs) rfl h
  · have hmark : Text.occursIn "]]>".toList cs = false := by
      rw [← Bool.not_eq_true]
      intro hoccurs
      have := hplain '>' (mem_of_occursIn hoccurs (by decide))
      contradiction
    have hxml : cs.all isXmlChar = true := List.all_eq_true.mpr fun c hc => hcs.xmlChar hc
    have hdatum : characterData? cs = some (.text cs) := by
      rw [characterData?, if_neg hspace, hmark, hxml]
      rfl
    rw [hdatum] at hpiece
    exact .piece hpiece hless (.text cs) rfl h

/-- A written text is taken up whole, and with it the plain characters in front of it. -/
theorem Leads.escapedAfter (run cs : List Char) (hplain : ∀ c ∈ run, isPlain c = true)
    (hcs : Carried (run ++ cs)) (htag : AtTag rest)
    (h : Leads d root (.inside (top.addText (run ++ cs)) outer) rest) :
    Leads d root (.inside top outer) (run ++ (cs.flatMap Element.escapeText ++ rest)) := by
  induction cs generalizing run top with
  | nil =>
      rw [List.append_nil] at hcs h
      refine .plain hplain hcs (fun c hc => ?_) h
      rw [htag c hc]
      rfl
  | cons c cs ih =>
      rcases escapeText_cases c with hmark | ⟨hself, hamp, hlt, hgt⟩
      · rw [List.flatMap_cons, List.append_assoc]
        refine .plain hplain (fun e he => hcs e (List.mem_append_left _ he)) (fun e he => ?_) ?_
        · simp only [List.mem_cons, List.not_mem_nil, or_false] at hmark
          rcases hmark with rfl | rfl | rfl <;> simp [Element.escapeText] at he <;> subst he <;> rfl
        · refine .mark hmark ?_
          have htail : Carried cs := fun e he =>
            hcs e (List.mem_append_right _ (List.mem_cons_of_mem c he))
          refine ih [] (by simp) htail ?_
          rwa [Frame.addText_addText, Frame.addText_addText]
      · have hc : isPlain c = true := by simp [isPlain, hamp, hlt, hgt]
        have hsplit : run ++ c :: cs = (run ++ [c]) ++ cs := by simp
        rw [hsplit] at hcs h
        have := ih (run ++ [c]) (by simpa [or_imp, forall_and, hc] using hplain) hcs h
        rwa [List.flatMap_cons, hself, List.append_assoc, ← List.append_assoc run]

theorem Leads.escapedText {cs : List Char} (hcs : Carried cs) (htag : AtTag rest)
    (h : Leads d root (.inside (top.addText cs) outer) rest) :
    Leads d root (.inside top outer) (cs.flatMap Element.escapeText ++ rest) :=
  .escapedAfter [] cs (by simp) hcs htag h

end

/-! ## Tags -/

def IsPlainName (s : String) : Prop :=
  ∃ c cs, s.toList = c :: cs ∧ isNameStart c = true ∧ ∀ d ∈ cs, isNameChar d = true

/-- A text behind a name, which the name does not run into. -/
def EndsName (cs : List Char) : Prop :=
  ∃ c rest, cs = c :: rest ∧ isNameChar c = false ∧ c ≠ ':'

theorem qualifiedName?_plain {s : String} (hs : IsPlainName s) {rest : List Char}
    (hrest : EndsName rest) :
    qualifiedName? (s.toList ++ rest) = some (⟨none, s.toList⟩, rest) := by
  obtain ⟨c, cs, hs, hc, hcs⟩ := hs
  obtain ⟨e, rest, rfl, he, hcolon⟩ := hrest
  have hname : name? (s.toList ++ e :: rest) = some (s.toList, e :: rest) := by
    rw [hs, List.cons_append, name?, if_pos hc, List.takeWhile_append_of_pos hcs,
      List.dropWhile_append_of_pos hcs]
    simp [he]
  rw [qualifiedName?, hname]
  simp only [Option.bind_eq_bind, Option.bind_some]
  split
  · rename_i heq
    injection heq with heq
    exact absurd heq hcolon
  · rfl

def writtenAttribute (a : String × String) : Attribute :=
  ⟨⟨none, a.1.toList⟩, a.2.toList.flatMap Element.escapeAttribute⟩

theorem attribute?_write {a : String × String} (hname : IsPlainName a.1)
    (hvalue : Carried a.2.toList) (rest : List Char) :
    attribute? (a.1.toList ++ '=' :: '"' :: (a.2.toList.flatMap Element.escapeAttribute ++
      '"' :: rest)) = some (writtenAttribute a, rest) := by
  have hquote : ∀ c ∈ a.2.toList.flatMap Element.escapeAttribute, (c != '"') = true := by
    intro e he
    obtain ⟨c, hc, hec⟩ := List.mem_flatMap.mp he
    exact bne_iff_ne.mpr (escapeAttribute_sound (hvalue.xmlChar hc) e hec).2.2.1
  have hquoted : quoted? ('"' :: (a.2.toList.flatMap Element.escapeAttribute ++ '"' :: rest)) =
      some (a.2.toList.flatMap Element.escapeAttribute, rest) := by
    rw [quoted?, List.takeWhile_append_of_pos hquote, List.dropWhile_append_of_pos hquote]
    simp
  have hends : EndsName ('=' :: '"' :: (a.2.toList.flatMap Element.escapeAttribute ++
      '"' :: rest)) := ⟨_, _, rfl, by decide, by decide⟩
  rw [attribute?, qualifiedName?_plain hname hends]
  have hskip : ∀ cs : List Char, skipSpace ('=' :: cs) = '=' :: cs := fun cs => rfl
  have hskip' : ∀ cs : List Char, skipSpace ('"' :: cs) = '"' :: cs := fun cs => rfl
  simp [hskip, hskip', hquoted, writtenAttribute]

/-- The end of a tag, by whether the tag closes its element too. -/
def tagEnd (closed : Bool) : List Char :=
  if closed then [' ', '/', '>'] else ['>']

theorem endsName_tag (attributes : List (String × String)) (closed : Bool) (rest : List Char) :
    EndsName (attributes.flatMap Element.writeAttribute ++ (tagEnd closed ++ rest)) := by
  cases attributes with
  | nil => cases closed <;> exact ⟨_, _, rfl, by decide, by decide⟩
  | cons a attributes => exact ⟨_, _, rfl, by decide, by decide⟩

/-- A name starts with none of the characters that begin or end something else in a tag. -/
theorem isNameStart_sound {c : Char} (hc : isNameStart c = true) :
    isSpace c = false ∧ c ≠ '>' ∧ c ≠ '/' ∧ c ≠ '!' ∧ c ≠ '?' := by
  refine ⟨?_, ?_, ?_, ?_, ?_⟩
  · rw [← Bool.not_eq_true]
    intro hspace
    simp only [isSpace, Bool.or_eq_true, beq_iff_eq] at hspace
    rcases hspace with ((rfl | rfl) | rfl) | rfl <;> exact absurd hc (by decide)
  all_goals
    rintro rfl
    exact absurd hc (by decide)

theorem tagRest?_attribute {c : Char} (hc : isNameStart c = true) (tag : QualifiedName)
    (done : List Attribute) (fuel : Nat) (cs : List Char) :
    tagRest? (fuel + 1) tag done (' ' :: c :: cs) =
      (attribute? (c :: cs)).bind fun found => tagRest? fuel tag (done ++ [found.1]) found.2 := by
  obtain ⟨hspace, hclose, hslash, -, -⟩ := isNameStart_sound hc
  have hskip : skipSpace (' ' :: c :: cs) = c :: cs := by
    change List.dropWhile isSpace (c :: cs) = c :: cs
    rw [List.dropWhile_cons, hspace, if_neg Bool.false_ne_true]
  rw [tagRest?, hskip]
  split <;> simp_all [isSpace]

theorem tagRest?_write {attributes : List (String × String)} (tag : QualifiedName) (closed : Bool)
    (hattributes : ∀ a ∈ attributes, IsPlainName a.1 ∧ Carried a.2.toList) (rest : List Char)
    (done : List Attribute) (fuel : Nat) (hfuel : attributes.length < fuel) :
    tagRest? fuel tag done (attributes.flatMap Element.writeAttribute ++ (tagEnd closed ++ rest)) =
      some (.opening tag (done ++ attributes.map writtenAttribute) closed, rest) := by
  induction attributes generalizing done fuel with
  | nil =>
      obtain ⟨fuel, rfl⟩ : ∃ n, fuel = n + 1 := ⟨fuel - 1, by omega⟩
      cases closed <;> simp [tagRest?, tagEnd, skipSpace, isSpace]
  | cons a attributes ih =>
      obtain ⟨fuel, rfl⟩ : ∃ n, fuel = n + 1 := ⟨fuel - 1, by omega⟩
      obtain ⟨⟨hname, hvalue⟩, hmore⟩ := List.forall_mem_cons.mp hattributes
      have hread := attribute?_write hname hvalue
        (attributes.flatMap Element.writeAttribute ++ (tagEnd closed ++ rest))
      have hcs : Element.writeAttribute a ++ (attributes.flatMap Element.writeAttribute ++
          (tagEnd closed ++ rest)) = ' ' :: (a.1.toList ++ '=' :: '"' ::
            (a.2.toList.flatMap Element.escapeAttribute ++ '"' ::
              (attributes.flatMap Element.writeAttribute ++ (tagEnd closed ++ rest)))) := by
        simp [Element.writeAttribute]
      obtain ⟨c, cs, hs, hc, -⟩ := hname
      rw [List.flatMap_cons, List.append_assoc, hcs]
      rw [hs, List.cons_append] at hread ⊢
      rw [tagRest?_attribute hc, hread, Option.bind_some,
        ih hmore _ fuel (by simpa using hfuel), List.append_assoc, List.map_cons,
        List.singleton_append]

theorem piece?_opening {name : String} {attributes : List (String × String)} (closed : Bool)
    (hname : IsPlainName name)
    (hattributes : ∀ a ∈ attributes, IsPlainName a.1 ∧ Carried a.2.toList) (rest : List Char) :
    piece? ('<' :: (name.toList ++ (attributes.flatMap Element.writeAttribute ++
        (tagEnd closed ++ rest)))) =
      some (.opening ⟨none, name.toList⟩ (attributes.map writtenAttribute) closed, rest) := by
  have hopening : openingTag? (name.toList ++ (attributes.flatMap Element.writeAttribute ++
      (tagEnd closed ++ rest))) =
      some (.opening ⟨none, name.toList⟩ (attributes.map writtenAttribute) closed, rest) := by
    have hfuel : ∀ as : List (String × String),
        as.length ≤ (as.flatMap Element.writeAttribute).length := fun as => by
      induction as with
      | nil => simp
      | cons a as ih => simp [Element.writeAttribute] at ih ⊢; omega
    rw [openingTag?, qualifiedName?_plain hname (endsName_tag attributes closed rest)]
    simp only [Option.bind_eq_bind, Option.bind_some]
    rw [tagRest?_write _ closed hattributes rest [] _ ?_, List.nil_append]
    have := hfuel attributes
    rw [List.length_append]
    omega
  obtain ⟨c, cs, hs, hc, -⟩ := hname
  obtain ⟨-, -, hslash, hbang, hask⟩ := isNameStart_sound hc
  rw [← hopening, hs]
  simp only [List.cons_append]
  unfold piece?
  split <;> simp_all

theorem piece?_closing {name : String} (hname : IsPlainName name) (rest : List Char) :
    piece? ('<' :: '/' :: (name.toList ++ '>' :: rest)) =
      some (.closing ⟨none, name.toList⟩, rest) := by
  have hends : EndsName ('>' :: rest) := ⟨_, _, rfl, by decide, by decide⟩
  have hskip : skipSpace ('>' :: rest) = '>' :: rest := rfl
  simp [piece?, closingTag?, qualifiedName?_plain hname hends, hskip]

end Exchange

end InoBlocks
