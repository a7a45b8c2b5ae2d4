import InoBlocks.Proofs.Code.ValueTexts
import InoBlocks.Proofs.Number.Sanitized
import InoBlocks.Proofs.Token.Front
import InoBlocks.Proofs.Token.Marks

/-!
# Texts of fields as words

What is written for a field that holds a number or a pin: digits of any script, a point, signs,
the letter of an exponent and that of an analog pin.  The lexer passes over digits that are none of
its own and takes letters for names, so such a text may be any words of an expression; but they are
read wherever an expression may stand.
-/

namespace InoBlocks

open Word Text

/-! ## Characters of fields -/

/-- Whether a character may stand in what is written for a number or a pin. -/
def isFieldChar (c : Char) : Bool :=
  isDecimal c || ['-', '+', '.', 'e', 'E', 'A'].contains c

/-- Whether what is written for a number or a pin may end in a character. -/
def isFieldEnd (c : Char) : Bool :=
  isDecimal c || c == '.'

theorem isFieldChar_cases {c : Char} (h : isFieldChar c = true) :
    isDecimal c = true ∨ c ∈ ['-', '+', '.', 'e', 'E', 'A'] := by
  rwa [isFieldChar, Bool.or_eq_true, List.contains_iff_mem] at h

theorem isFieldChar_of_isFieldEnd {c : Char} (h : isFieldEnd c = true) : isFieldChar c = true := by
  rw [isFieldEnd, Bool.or_eq_true, beq_iff_eq] at h
  rcases h with h | rfl
  · rw [isFieldChar, h, Bool.true_or]
  · decide

theorem not_isBlank_of_isFieldChar {c : Char} (h : isFieldChar c = true) : isBlank c = false := by
  have hmarks : ∀ d ∈ ['-', '+', '.', 'e', 'E', 'A'], isBlank d = false := by decide
  exact (isFieldChar_cases h).elim not_isBlank_of_isDecimal (hmarks c)

/-- Characters of fields are neither layout nor marks of literals and comments. -/
theorem ne_of_isFieldChar {c : Char} (h : isFieldChar c = true) :
    Token.isLayout c = false ∧ c ∉ ['"', '\'', '/', '='] := by
  have hlayout : ∀ d ∈ [' ', '\t', '\r', '\n', '\x0c', '\x0b', '"', '\'', '/', '='],
      isFieldChar d = false := by
    decide
  have hne : ∀ d ∈ [' ', '\t', '\r', '\n', '\x0c', '\x0b', '"', '\'', '/', '='], c ≠ d := by
    rintro d hd rfl
    rw [hlayout c hd] at h
    cases h
  simp only [List.mem_cons, List.not_mem_nil, or_false, forall_eq_or_imp, forall_eq] at hne
  simp [Token.isLayout, hne]

/-- What does not go on with an expression does not go together with the end of a field. -/
theorem joins_isFieldEnd {c d : Char} (hc : isFieldEnd c = true) (hd : tail true d = false) :
    Token.joins c d = false := by
  have hpair : TokenKind.ofPair? c d = none := by
    have hmarks : ∀ a ∈ ['=', '!', '<', '>', '&', '|', '+', '-'], isFieldEnd a = false := by decide
    unfold TokenKind.ofPair?
    split <;> first | rfl | (rw [hmarks _ (by decide)] at hc; cases hc)
  have hslash : (c == '/') = false := by
    rw [beq_eq_false_iff_ne]
    rintro rfl
    exact absurd hc (by decide)
  rw [tail, Bool.true_and] at hd
  simp [Token.joins, hd, hpair, hslash]

/-! ## The words of such texts -/

/-- A token of such characters is a part of expressions: among the words, none is a keyword. -/
theorem inPhrase_of_isFieldChar {c : Char} {cs : List Char} {kind : TokenKind} {more : Nat}
    (h : Token.scan c cs = some (kind, more)) (hcs : ∀ d ∈ c :: cs, isFieldChar d = true) :
    kind.inPhrase = true := by
  have hc := hcs c List.mem_cons_self
  obtain ⟨-, hne⟩ := ne_of_isFieldChar hc
  simp only [List.mem_cons, List.not_mem_nil, or_false, not_or] at hne
  have hcomment : kind ≠ .comment := by
    rintro rfl
    obtain ⟨rest, ⟨htext, -⟩ | ⟨htext, -⟩⟩ := Token.scan_comment h <;>
      exact hne.2.2.1 (List.cons.inj htext).1
  rcases Token.scan_cases h hcomment with ⟨hquote, -, -⟩ | ⟨-, rfl, -⟩ | ⟨-, hk, -⟩ | ⟨-, -, hop⟩
  · exact absurd hquote (not_or.mpr ⟨hne.1, hne.2.1⟩)
  · rfl
  · have hkeywords : ∀ entry ∈ TokenKind.keywords, entry.1.toList.all isFieldChar = false := by
      decide
    rcases TokenKind.ofWord_cases (String.ofList (c :: cs.take more)) with hname | ⟨entry, hentry,
      hspelled, -⟩
    · rw [hk, hname]
      rfl
    · have hall := hkeywords entry hentry
      rw [hspelled, String.toList_ofList, List.all_eq_false] at hall
      obtain ⟨d, hd, hfalse⟩ := hall
      have hmem : d ∈ c :: cs :=
        (List.mem_cons.mp hd).elim (fun heq => heq ▸ List.mem_cons_self)
          fun hd => List.mem_cons_of_mem c (List.mem_of_mem_take hd)
      exact absurd (hcs d hmem) hfalse
  · have hsymbols : ∀ kind : TokenKind, ∀ s, kind.symbol? = some s →
        s.toList.head?.any isFieldChar = true → kind.inPhrase = true := by
      intro kind s hs hfirst
      cases kind <;> first | rfl | (cases hs; exact absurd hfirst (by decide)) | cases hs
    refine hsymbols kind _ (Token.symbol?_of_scanOperator hop) ?_
    rw [String.toList_ofList]
    exact hc

/-- Characters of fields are the words of an expression. -/
theorem calm_words_of_isFieldChar {cs : List Char} (hcs : ∀ c ∈ cs, isFieldChar c = true) :
    Calm (words cs) := by
  induction hn : cs.length using Nat.strong_induction_on generalizing cs with
  | _ n ih =>
      cases cs with
      | nil => exact nofun
      | cons c cs =>
          obtain ⟨hlayout, -⟩ := ne_of_isFieldChar (hcs c List.mem_cons_self)
          have hrest := (List.forall_mem_cons.mp hcs).2
          cases hscan : Token.scan c cs with
          | none =>
              rw [words_unread hlayout hscan]
              exact ih cs.length (by simp [← hn]) hrest rfl
          | some cut =>
              obtain ⟨kind, more⟩ := cut
              have hphrase := inPhrase_of_isFieldChar hscan hcs
              have hcomment : kind ≠ .comment := by
                rintro rfl
                cases hphrase
              rw [words_scan hlayout hscan hcomment]
              refine .cons hphrase (ih (cs.drop more).length ?_ ?_ rfl)
              · simp only [List.length_drop, List.length_cons] at hn ⊢
                omega
              · exact fun d hd => hrest d (List.mem_of_mem_drop hd)

/-- Characters of fields, the last of which is no sign and no letter, are read wherever an
expression may stand. -/
theorem readsBy_of_isFieldChar {cs : List Char} (hcs : ∀ c ∈ cs, isFieldChar c = true)
    (hlast : ∀ c ∈ cs.getLast?, isFieldEnd c = true) (read : List Char → List Word)
    [Cutting read] : ReadsBy read cs (words cs) (tail true) := by
  intro rest hrest
  induction hn : cs.length using Nat.strong_induction_on generalizing cs with
  | _ n ih =>
      cases cs with
      | nil => rfl
      | cons c cs =>
          obtain ⟨hlayout, -⟩ := ne_of_isFieldChar (hcs c List.mem_cons_self)
          have hcs' := (List.forall_mem_cons.mp hcs).2
          have hdrop : ∀ more, ∀ d ∈ (cs.drop more).getLast?, isFieldEnd d = true := by
            intro more d hd
            obtain ⟨ds, hds⟩ := List.getLast?_eq_some_iff.mp hd
            refine hlast d (List.getLast?_eq_some_iff.mpr ⟨c :: (cs.take more ++ ds), ?_⟩)
            rw [List.cons_append, List.append_assoc, ← hds, List.take_append_drop]
          -- What comes behind the last character does not go together with it.
          have hbehind : ∀ p ∈ (c :: cs).getLast?, ∀ d ∈ rest.head?, Token.joins p d = false :=
            fun p hp d hd => joins_isFieldEnd (hlast p hp) (hrest d hd)
          cases hscan : Token.scan c cs with
          | none =>
              have hnone : Token.scan c (cs ++ rest) = none := by
                refine Token.scan_of_unread (Token.unread_of_scan hscan) fun d hd => ?_
                cases cs with
                | nil => exact Or.inr (hbehind c rfl d hd)
                | cons e es => exact Or.inl hd
              have hread : read (c :: (cs ++ rest)) = read (cs ++ rest) :=
                Cutting.unread hlayout hnone
              rw [words_unread hlayout hscan, List.cons_append, hread]
              exact ih cs.length (by simp [← hn]) hcs' (by simpa using hdrop 0) rfl
          | some cut =>
              obtain ⟨kind, more⟩ := cut
              have hphrase := inPhrase_of_isFieldChar hscan hcs
              have hcomment : kind ≠ .comment := by
                rintro rfl
                cases hphrase
              have hquote : kind ≠ .string := by
                rintro rfl
                have hne := (ne_of_isFieldChar (hcs c List.mem_cons_self)).2
                rcases (Token.scan_string hscan).1 with rfl | rfl <;> exact absurd hne (by decide)
              have hfront : Token.scan c (cs.take more ++ (cs.drop more ++ rest)) =
                  some (kind, more) := by
                refine Token.scan_front hscan hcomment (fun h => absurd h hquote) fun p hp d hd => ?_
                cases hend : cs.drop more with
                | nil =>
                    rw [hend, List.nil_append] at hd
                    have hall : cs.take more = cs := by
                      rw [List.take_of_length_le (List.drop_eq_nil_iff.mp hend)]
                    rw [hall] at hp
                    exact Or.inr (hbehind p hp d hd)
                | cons e es =>
                    rw [hend] at hd
                    exact Or.inl hd
              have hread := read_front read hlayout hscan hcomment hfront
              rw [List.cons_append, ← List.append_assoc, List.take_append_drop] at hread
              rw [words_scan hlayout hscan hcomment, List.cons_append, hread, List.cons_append]
              refine congrArg _ (ih (cs.drop more).length ?_ (fun d hd => ?_) (hdrop more) rfl)
              · simp only [List.length_drop, List.length_cons] at hn ⊢
                omega
              · exact hcs' d (List.mem_of_mem_drop hd)

/-! ## Numbers and pins -/

/-- A text that may be written for a number or a pin. -/
structure IsFieldText (text : String) : Prop where
  chars : ∀ c ∈ text.toList, isFieldChar c = true
  last : ∃ cs c, text.toList = cs ++ [c] ∧ isFieldEnd c = true

namespace IsFieldText

theorem spelling {text : String} (h : IsFieldText text) :
    Spelling text (words text.toList) true := by
  obtain ⟨cs, d, hd, hend⟩ := h.last
  refine ⟨fun read _ => readsBy_of_isFieldChar h.chars ?_ read, ?_, cs, d, hd, ?_⟩
  · intro c hc
    rw [hd, List.getLast?_concat] at hc
    exact Option.mem_some_iff.mp hc ▸ hend
  · obtain ⟨c, es, hc⟩ := List.exists_cons_of_ne_nil
      (show text.toList ≠ [] by rw [hd]; exact List.concat_ne_nil d cs)
    have hfirst := h.chars c (by simp [hc])
    obtain ⟨-, hne⟩ := ne_of_isFieldChar hfirst
    refine ⟨c, es, hc, ?_, not_isBlank_of_isFieldChar hfirst⟩
    rintro rfl
    exact absurd hne (by decide)
  · exact not_isBlank_of_isFieldChar (isFieldChar_of_isFieldEnd hend)

theorem calm {text : String} (h : IsFieldText text) : Calm (words text.toList) :=
  calm_words_of_isFieldChar h.chars

theorem of_isSpelling {text : String} (h : Number.IsSpelling text.toList) : IsFieldText text := by
  have hends : ∀ {ds : List Char}, Number.AllDecimal ds → ds ≠ [] →
      ∃ cs c, ds = cs ++ [c] ∧ isFieldEnd c = true := by
    intro ds hds hne
    refine ⟨ds.dropLast, ds.getLast hne, (List.dropLast_append_getLast hne).symm, ?_⟩
    rw [isFieldEnd, hds _ (List.getLast_mem hne), Bool.true_or]
  have hbehind : ∀ {ds : List Char} (front : List Char),
      (∃ cs c, ds = cs ++ [c] ∧ isFieldEnd c = true) →
      ∃ cs c, front ++ ds = cs ++ [c] ∧ isFieldEnd c = true := by
    rintro ds front ⟨cs, c, rfl, hc⟩
    exact ⟨front ++ cs, c, (List.append_assoc _ _ _).symm, hc⟩
  refine ⟨fun c hc => ?_, ?_⟩
  · have hmarks : ∀ d ∈ ['-', '+', '.', 'e', 'E'], isFieldChar d = true := by decide
    rcases h.isDecimal_or_mem_marks hc with hc | hc
    · rw [isFieldChar, hc, Bool.true_or]
    · exact hmarks c hc
  · generalize text.toList = cs at h
    obtain ⟨-, hmantissa, hexponent⟩ := h
    refine hbehind _ ?_
    cases hexponent with
    | none =>
        rw [List.append_nil]
        cases hmantissa with
        | whole hne hds => exact hends hds hne
        | @pointed ds es hds hes hne =>
            refine hbehind ds ?_
            cases es with
            | nil => exact ⟨[], '.', rfl, by decide⟩
            | cons e es => exact hbehind ['.'] (hends hes (List.cons_ne_nil e es))
    | @letter c sign ds hc hsign hne hds => exact hbehind _ (hbehind (c :: sign) (hends hds hne))

/-- What is written for a number, from a default that may be written for one. -/
theorem ofField {default : String} (hdefault : IsFieldText default) {limits : Limits}
    (hlimits : ∀ limit, limits.least = some limit ∨ limits.greatest = some limit → limit.Exact)
    (field? : Option String) : IsFieldText (Numeral.ofField field? default limits) := by
  rw [Numeral.ofField]
  cases hfound : field?.bind Numeral.ofText? with
  | none => exact hdefault
  | some n =>
      obtain ⟨s, -, hs⟩ := Option.bind_eq_some_iff.mp hfound
      dsimp only
      rw [Numeral.textWithin]
      split
      · rename_i limit hcrossed
        exact of_isSpelling (hlimits limit (Check.eq_of_crossed? hcrossed)).names.spelling
      · exact of_isSpelling (Numeral.names_text hs).spelling

theorem ofField_none {default : String} (hdefault : IsFieldText default)
    (field? : Option String) : IsFieldText (Numeral.ofField field? default .none) :=
  ofField hdefault (by rintro limit (h | h) <;> cases h) field?

theorem ofField_natural {default : String} (hdefault : IsFieldText default)
    (field? : Option String) : IsFieldText (Numeral.ofField field? default .natural) := by
  refine ofField hdefault ?_ field?
  rintro limit (h | h) <;> cases h
  exact Limit.exact_of_lt (n := 0) (by decide)

theorem ofField_upTo {default : String} (hdefault : IsFieldText default) {n : Nat}
    (hn : n < 2 ^ 53) (field? : Option String) :
    IsFieldText (Numeral.ofField field? default (.upTo n)) := by
  refine ofField hdefault ?_ field?
  rintro limit (h | h) <;> cases h
  · exact Limit.exact_of_lt (n := 0) (by decide)
  · exact Limit.exact_of_lt hn

/-- The name of an analog pin, without blanks around it. -/
theorem of_isAnalogPin {typed : String} (h : isAnalogPin (trimmed typed) = true) :
    IsFieldText (trimmed typed) := by
  rw [isAnalogPin, trimmed, String.toList_ofList] at h
  unfold isAnalogPinText at h
  split at h
  · rename_i cs hcs
    simp only [Bool.and_eq_true, Bool.or_eq_true, beq_iff_eq, Bool.not_eq_true',
      List.isEmpty_eq_false_iff] at h
    have hsplit := (List.takeWhile_append_dropWhile (p := isDecimal) (l := cs)).symm
    rcases h.2 with hrest | hrest
    · rw [hrest, List.append_nil] at hsplit
      have hdecimal : ∀ c ∈ cs, isDecimal c = true := by
        rw [hsplit]
        exact fun c hc => List.all_eq_true.mp List.all_takeWhile c hc
      have hne : cs ≠ [] := hsplit ▸ h.1
      rw [trimmed, hcs]
      refine ⟨?_, ?_⟩
      · rw [String.toList_ofList]
        refine List.forall_mem_cons.mpr ⟨by decide, fun c hc => ?_⟩
        rw [isFieldChar, hdecimal c hc, Bool.true_or]
      · refine ⟨'A' :: cs.dropLast, cs.getLast hne, ?_, ?_⟩
        · rw [String.toList_ofList, List.cons_append, List.dropLast_append_getLast]
        · rw [isFieldEnd, hdecimal _ (List.getLast_mem hne), Bool.true_or]
    · rw [hrest] at hsplit
      have htrim : trim typed.toList = ('A' :: cs.takeWhile isDecimal) ++ ['\n'] := by
        rw [hcs, List.cons_append, ← hsplit]
      cases Code.isBlank_of_trim_append htrim
  · cases h

theorem typedPin {default : String} (hdefault : IsFieldText default) (typed? : Option String) :
    IsFieldText (Code.Shape.typedPin typed? default) := by
  unfold Code.Shape.typedPin
  split
  · rename_i name hname
    obtain ⟨hname, hpin⟩ := Option.filter_eq_some_iff.mp hname
    obtain ⟨typed, -, rfl⟩ := Option.map_eq_some_iff.mp hname
    exact of_isAnalogPin hpin
  · exact ofField_upTo hdefault (by decide) typed?

theorem of_mem_defaults : ∀ default ∈ ["0", "2", "9", "10", "13", "100", "128", "1000", "9600", "A0"],
    IsFieldText default := by
  have hdefaults : ∀ default ∈ ["0", "2", "9", "10", "13", "100", "128", "1000", "9600", "A0"],
      default.toList.all isFieldChar = true ∧ default.toList.getLast?.any isFieldEnd = true := by
    decide
  intro default hdefault
  obtain ⟨hall, hlast⟩ := hdefaults default hdefault
  obtain ⟨c, hc, hend⟩ := (Option.any_eq_true _ _).mp hlast
  obtain ⟨cs, hcs⟩ := List.getLast?_eq_some_iff.mp hc
  exact ⟨List.all_eq_true.mp hall, cs, c, hcs, hend⟩

end IsFieldText

end InoBlocks
