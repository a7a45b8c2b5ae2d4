import InoBlocks.Proofs.Token.Firm
import InoBlocks.Sketch.ExprGrammar
import InoBlocks.Sketch.RawText

/-!
# Quoted texts

Quoting makes one word of any text.  An escaped text is taken apart in one way only, into pairs of
a backslash and a letter that may stand behind it and into characters that mean nothing to a
literal, so that no quote closes it early, no line break is in it, and it needs no escaping.
-/

namespace InoBlocks

/-! ## Escaped texts -/

/-- A text made of escapes and of characters that need none. -/
inductive Escaped : List Char → Prop
  | nil : Escaped []
  | pair {c : Char} {cs : List Char} (hletter : isEscapeLetter c = true) (h : Escaped cs) :
      Escaped ('\\' :: c :: cs)
  | plain {c : Char} {cs : List Char} (hslash : c ≠ '\\') (hquote : c ≠ '"') (hfeed : c ≠ '\n')
      (hreturn : c ≠ '\r') (h : Escaped cs) : Escaped (c :: cs)

namespace Escaped

variable {cs : List Char}

theorem escapeChar (h : Escaped cs) (c : Char) : Escaped (escapeChar c ++ cs) := by
  unfold InoBlocks.escapeChar
  by_cases hmark : c = '\\' ∨ c = '"'
  · rw [if_pos (by simpa using hmark)]
    rcases hmark with rfl | rfl
    · exact .pair (by decide) h
    · exact .pair (by decide) h
  · rw [not_or] at hmark
    rw [if_neg (by simpa using hmark)]
    by_cases hfeed : c = '\n'
    · rw [if_pos (by simpa using hfeed)]
      exact .pair (by decide) h
    · rw [if_neg (by simpa using hfeed)]
      by_cases hreturn : c = '\r'
      · rw [if_pos (by simpa using hreturn)]
        exact .pair (by decide) h
      · rw [if_neg (by simpa using hreturn)]
        exact .plain hmark.1 hmark.2 hfeed hreturn h

theorem ne_lineBreak (h : Escaped cs) : ∀ c ∈ cs, c ≠ '\n' ∧ c ≠ '\r' := by
  induction h with
  | nil => simp
  | @pair c cs hletter _ ih =>
      have hc : c ≠ '\n' ∧ c ≠ '\r' := by
        constructor <;> rintro rfl <;> exact absurd hletter (by decide)
      exact List.forall_mem_cons.mpr ⟨by decide, List.forall_mem_cons.mpr ⟨hc, ih⟩⟩
  | plain _ _ hfeed hreturn _ ih => exact List.forall_mem_cons.mpr ⟨⟨hfeed, hreturn⟩, ih⟩

theorem escapeText_eq (h : Escaped cs) : escapeText cs = cs := by
  induction h with
  | nil => rfl
  | pair hletter _ ih => rw [escapeText, if_pos hletter, ih]
  | plain hslash hquote hfeed hreturn _ ih =>
      rw [escapeText, ih]
      · simp [InoBlocks.escapeChar, hslash, hquote, hfeed, hreturn]
      · exact fun _ _ heq => absurd heq hslash

theorem literalLength_eq (h : Escaped cs) (rest : List Char) :
    Token.literalLength '"' (cs ++ '"' :: rest) = cs.length + 1 := by
  induction h with
  | nil => rfl
  | pair _ _ ih => rw [List.cons_append, List.cons_append, Token.literalLength, ih]; rfl
  | plain hslash hquote _ _ _ ih =>
      rw [List.cons_append, Token.literalLength_cons hslash, if_neg hquote, ih]
      rfl

end Escaped

theorem escaped_escapeText (cs : List Char) : Escaped (escapeText cs) := by
  fun_induction escapeText cs with
  | case1 => exact .nil
  | case2 c cs hletter ih => exact .pair hletter ih
  | case3 c cs hletter ih => exact ih.escapeChar '\\'
  | case4 c cs hplain ih => exact ih.escapeChar c

theorem escapeText_escapeText (cs : List Char) : escapeText (escapeText cs) = escapeText cs :=
  (escaped_escapeText cs).escapeText_eq

/-! ## Quoted texts -/

theorem firm_quoteText (s : String) : Word.Firm ⟨.string, quoteText s⟩ := by
  refine ⟨'"', escapeText s.toList ++ ['"'], rfl, by decide, TokenKind.noConfusion, fun rest _ => ?_⟩
  rw [Token.scan_quote (Or.inl rfl), List.append_assoc, List.singleton_append,
    (escaped_escapeText _).literalLength_eq, List.length_append]
  rfl

theorem ne_lineBreak_of_mem_quoteText {s : String} {c : Char} (hc : c ∈ (quoteText s).toList) :
    c ≠ '\n' ∧ c ≠ '\r' := by
  rw [quoteText, String.toList_ofList, List.cons_append, List.mem_cons, List.mem_append,
    List.mem_singleton] at hc
  rcases hc with rfl | hc | rfl
  · decide
  · exact (escaped_escapeText _).ne_lineBreak c hc
  · decide

theorem lineFeed_not_mem_quoteText (s : String) : '\n' ∉ (quoteText s).toList :=
  fun h => (ne_lineBreak_of_mem_quoteText h).1 rfl

/-- What stands between the quotes of a quoted text is the escaped text. -/
theorem unquote_quoteText (s : String) :
    ExprGrammar.unquote (quoteText s) = String.ofList (escapeText s.toList) := by
  rw [ExprGrammar.unquote, quoteText, String.toList_ofList, List.cons_append]
  simp

theorem quoteText_unquote (s : String) :
    quoteText (ExprGrammar.unquote (quoteText s)) = quoteText s := by
  rw [unquote_quoteText, quoteText, String.toList_ofList, escapeText_escapeText, quoteText]

end InoBlocks
