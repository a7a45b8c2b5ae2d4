import InoBlocks.Proofs.Code.Coded
import InoBlocks.Proofs.Sketch.RawStrength

/-!
# Literals regenerated

A quoted literal is taken out of its quotes, sorted by what it says, and quoted again if it
becomes a text block.  It comes back as it was spelled exactly if it does not say `true` or
`false` and, between double quotes, escapes nothing but letters that escapes are known for.
-/

namespace InoBlocks

open Code ExprGrammar

/-- Whether every backslash of a text stands in front of a letter that it may escape. -/
def escapesKnown : List Char → Bool
  | [] => true
  | '\\' :: c :: cs => isEscapeLetter c && escapesKnown cs
  | c :: cs => c != '\\' && escapesKnown cs

/-! ## What stands between the quotes -/

/-- A closed literal is a quote, an inside, and the same quote again. -/
theorem exists_inside {raw : String} (h : isQuotedText raw.toList = true) :
    ∃ quote inside, (quote = '"' ∨ quote = '\'') ∧ raw.toList = quote :: (inside ++ [quote]) ∧
      closesAtEnd quote (inside ++ [quote]) = true ∧ (unquote raw).toList = inside := by
  cases hraw : raw.toList with
  | nil =>
      rw [hraw] at h
      cases h
  | cons quote cs =>
      rw [hraw] at h
      simp only [isQuotedText, Bool.and_eq_true, Bool.or_eq_true, beq_iff_eq] at h
      have hlast := getLast?_of_closesAtEnd h.2
      obtain ⟨inside, rfl⟩ : ∃ inside, cs = inside ++ [quote] := List.getLast?_eq_some_iff.mp hlast
      refine ⟨quote, inside, h.1, rfl, h.2, ?_⟩
      rw [unquote, hraw]
      simp

/-! ## Quoting again -/

theorem length_le_escapeText (cs : List Char) : cs.length ≤ (escapeText cs).length := by
  have hchar : ∀ c : Char, 1 ≤ (escapeChar c).length := by
    intro c
    unfold escapeChar
    repeat' split
    all_goals simp
  fun_induction escapeText cs with
  | case1 => exact Nat.le_refl 0
  | case2 c cs hletter ih => simpa using ih
  | case3 c cs hletter ih =>
      have hslash : (escapeChar '\\').length = 2 := rfl
      rw [List.length_append, hslash]
      simp only [List.length_cons] at *
      omega
  | case4 c cs hplain ih =>
      have hfirst := hchar c
      rw [List.length_append, List.length_cons]
      omega

/-- What stands in a literal between double quotes, on one line, is escaped already if all its
escapes are known, and only then. -/
theorem escapeText_eq_self_iff {inside : List Char}
    (hcloses : closesAtEnd '"' (inside ++ ['"']) = true)
    (hline : ∀ c ∈ inside, c ≠ '\n' ∧ c ≠ '\r') :
    escapeText inside = inside ↔ escapesKnown inside = true := by
  fun_induction escapeText inside with
  | case1 => simp [escapesKnown]
  | case2 c cs hletter ih =>
      have htail : closesAtEnd '"' (cs ++ ['"']) = true := by
        rw [List.cons_append, List.cons_append, closesAtEnd, Bool.and_eq_true] at hcloses
        exact hcloses.2
      rw [escapesKnown, hletter, Bool.true_and, ← ih htail fun d hd => hline d (by simp [hd])]
      simp
  | case3 c cs hletter ih =>
      rw [escapesKnown, Bool.eq_false_iff.mpr hletter, Bool.false_and]
      refine ⟨fun h => ?_, fun h => by cases h⟩
      have hlength := congrArg List.length h
      have hle := length_le_escapeText (c :: cs)
      have hslash : (escapeChar '\\').length = 2 := rfl
      simp only [List.length_append, List.length_cons, hslash] at hlength hle
      omega
  | case4 c cs hplain ih =>
      have hslash : c ≠ '\\' := by
        rintro rfl
        cases cs with
        | nil => simp [closesAtEnd] at hcloses
        | cons d ds => exact hplain d ds rfl rfl
      rw [List.cons_append, closesAtEnd_cons hslash] at hcloses
      have hquote : c ≠ '"' := by
        rintro rfl
        simp at hcloses
      rw [if_neg hquote] at hcloses
      obtain ⟨hfeed, hreturn⟩ := hline c List.mem_cons_self
      have hsame : escapeChar c = [c] := by simp [escapeChar, hslash, hquote, hfeed, hreturn]
      have hknown : escapesKnown (c :: cs) = escapesKnown cs := by
        rw [escapesKnown]
        · simp [hslash]
        · rintro _ _ rfl
          exact absurd rfl hslash
      rw [hsame, hknown, ← ih hcloses fun d hd => hline d (List.mem_cons_of_mem c hd)]
      simp

theorem quoteText_unquote_eq_iff {raw : String} (hquoted : isQuotedText raw.toList = true)
    (hdouble : raw.toList.head? = some '"') (hline : ∀ c ∈ raw.toList, c ≠ '\n' ∧ c ≠ '\r') :
    quoteText (unquote raw) = raw ↔ escapesKnown (unquote raw).toList = true := by
  obtain ⟨quote, inside, -, hraw, hcloses, hinside⟩ := exists_inside hquoted
  obtain rfl : quote = '"' := by simpa [hraw] using hdouble
  have hinner : ∀ c ∈ inside, c ≠ '\n' ∧ c ≠ '\r' := fun c hc => hline c (by simp [hraw, hc])
  rw [hinside, ← escapeText_eq_self_iff hcloses hinner, ← String.toList_inj, hraw, quoteText,
    String.toList_ofList, hinside]
  simp

/-! ## Literals as raw text -/

theorem trimmed_of_isQuotedText {raw : String} (h : isQuotedText raw.toList = true) :
    Text.trimmed raw = raw := by
  obtain ⟨quote, inside, hquote, hraw, -⟩ := exists_inside h
  have hblank : Text.isBlank quote = false := by rcases hquote with rfl | rfl <;> decide
  exact Text.trimmed_of_ends ⟨quote, _, hraw, hblank⟩ ⟨quote :: inside, quote, hraw, hblank⟩

theorem rawBinding_of_isQuotedText {cs : List Char} (h : isQuotedText cs = true) :
    rawBinding cs = Binding.primary := by
  cases cs with
  | nil => cases h
  | cons c cs =>
      have hatom : upToLineFeed isAtomText (c :: cs) = true := by
        rw [upToLineFeed, isAtomText, h, Bool.or_true, Bool.true_or]
      rw [rawBinding, if_pos hatom]

namespace Expr

theorem rawOperand_of_isQuotedText {raw : String} (h : isQuotedText raw.toList = true) :
    rawOperand raw = ⟨raw, Binding.primary⟩ := by
  have hne : raw ≠ "" := by
    rintro rfl
    cases h
  rw [rawOperand, trimmed_of_isQuotedText h, rawBinding_of_isQuotedText h,
    if_neg (by simpa using hne)]

/-- A literal on one line becomes a block whose code is a text that no operator can tear apart.
That text is the literal exactly if it does not say a truth value and, between double quotes,
has no escape but the known ones. -/
theorem literal_regenerates_iff (l : Location) {raw : String}
    (hquoted : isQuotedText raw.toList = true) (hline : ∀ c ∈ raw.toList, c ≠ '\n' ∧ c ≠ '\r') :
    ∃ b text, Blocks.expression? (.literal l (.text (unquote raw)) raw) = some b ∧
      Gives (part b).value ⟨text, Binding.primary⟩ [] [] ∧
      (text = raw ↔ unquote raw ≠ "true" ∧ unquote raw ≠ "false" ∧
        (raw.toList.head? = some '"' → escapesKnown (unquote raw).toList = true)) := by
  have hgives := part_value_literal (.text (unquote raw)) raw
  rcases literal_cases (unquote raw) raw with ⟨htext, -, hcoded⟩ | ⟨htext, ⟨value, -, hsays, hcoded⟩ |
    ⟨hblock, hcoded⟩⟩
  · dsimp only at hgives
    rw [hcoded] at hgives
    refine ⟨_, _, rfl, hgives, ?_⟩
    simp only [isTextBlock, Bool.and_eq_true, Bool.not_eq_true', Bool.or_eq_false_iff,
      beq_eq_false_iff_ne, beq_iff_eq] at htext
    rw [quoteText_unquote_eq_iff hquoted htext.2 hline]
    constructor
    · exact fun h => ⟨htext.1.1.1.1, htext.1.1.1.2, fun _ => h⟩
    · exact fun h => h.2.2 htext.2
  · dsimp only at hgives
    rw [hcoded] at hgives
    refine ⟨_, _, rfl, hgives, iff_of_false ?_ ?_⟩
    · -- A literal is longer than what it says.
      obtain ⟨quote, inside, -, hraw, -, hinside⟩ := exists_inside hquoted
      intro h
      have hlength := congrArg (fun s : String => s.toList.length) h
      simp only [hraw, hinside, List.length_cons, List.length_append, List.length_nil] at hlength
      omega
    · rintro ⟨htrue, hfalse, -⟩
      cases value
      · exact hfalse hsays
      · exact htrue hsays
  · dsimp only at hgives
    rw [hcoded, rawOperand_of_isQuotedText hquoted] at hgives
    refine ⟨_, _, rfl, hgives, iff_of_true rfl ⟨?_, ?_, fun hdouble => ?_⟩⟩
    · intro htrue
      rw [htrue] at hblock
      have htype : "logic_boolean" = "arduino_raw_expression" := congrArg Block.type hblock
      exact absurd htype (by decide)
    · intro hfalse
      rw [hfalse] at hblock
      have htype : "logic_boolean" = "arduino_raw_expression" := congrArg Block.type hblock
      exact absurd htype (by decide)
    · have hwords : ∀ word ∈ ["true", "false", "HIGH", "LOW", "INPUT", "OUTPUT", "INPUT_PULLUP"],
          escapesKnown word.toList = true := by decide
      apply hwords
      simp only [isTextBlock, hdouble, beq_self_eq_true, Bool.and_true, Bool.not_eq_false',
        Blocks.isState, Blocks.isMode, Bool.or_eq_true, beq_iff_eq] at htext
      simpa [or_assoc] using htext

/-- A text with an escaped quote and a line feed that is spelled out comes back. -/
theorem literal_regenerates_iff_escapes :
    isQuotedText "\"a \\\"b\\\" \\n\"".toList = true ∧
    (∀ c ∈ "\"a \\\"b\\\" \\n\"".toList, c ≠ '\n' ∧ c ≠ '\r') ∧
    ∃ b text, Blocks.expression? (.literal default (.text (unquote "\"a \\\"b\\\" \\n\""))
        "\"a \\\"b\\\" \\n\"") = some b ∧
      Gives (part b).value ⟨text, Binding.primary⟩ [] [] ∧ text = "\"a \\\"b\\\" \\n\"" := by
  have hquoted : isQuotedText "\"a \\\"b\\\" \\n\"".toList = true := by decide
  have hline : ∀ c ∈ "\"a \\\"b\\\" \\n\"".toList, c ≠ '\n' ∧ c ≠ '\r' := by decide
  obtain ⟨b, text, hb, hgives, htext⟩ := literal_regenerates_iff default hquoted hline
  exact ⟨hquoted, hline, b, text, hb, hgives, htext.mpr (by decide +kernel)⟩

/-- A text that says a truth value comes back without its quotes, and an escape that is not known
with its backslash escaped. -/
theorem literal_changes :
    (∃ b, Blocks.expression? (.literal default (.text (unquote "\"true\"")) "\"true\"") = some b ∧
      Gives (part b).value ⟨"true", Binding.primary⟩ [] []) ∧
    ∃ b, Blocks.expression? (.literal default (.text (unquote "\"\\x41\"")) "\"\\x41\"") = some b ∧
      Gives (part b).value ⟨"\"\\\\x41\"", Binding.primary⟩ [] [] := by
  have htrue := part_value_literal (.text "true") "\"true\""
  have hescape := part_value_literal (.text "\\x41") "\"\\x41\""
  exact ⟨⟨_, rfl, htrue⟩, ⟨_, rfl, hescape⟩⟩

end Expr

end InoBlocks
