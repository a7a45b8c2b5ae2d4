import InoBlocks.Proofs.Code.Gives
import InoBlocks.Proofs.Number.Sanitized
import InoBlocks.Proofs.Sketch.ReadBack
import InoBlocks.Proofs.Token.Front
import InoBlocks.Proofs.Token.Respacing

/-!
# Numbers as the lexer reads them

A number that is typed may have an exponent, may begin with its point and may have digits of any
script.  The lexer knows none of these: its numbers are ASCII digits with at most one point behind the
first of them.  So the number that a block is written as is one token with all its text, behind its
sign, exactly if it is none of these.  As the value of an assignment such a number is read back.
-/

namespace InoBlocks

open Word

namespace Token

/-- Whether tokens are those of a number, perhaps with a sign in front of it, and no more. -/
def IsSignedNumber (ts : List Token) : Prop :=
  ∃ signs ∈ [[], [⟨.plus, "+"⟩], [⟨.minus, "-"⟩]], ∃ raw,
    ts.map Token.word = signs ++ [⟨.number, raw⟩, endMark]

/-- Whether tokens are those of one number and no more, perhaps with a sign in front of it. -/
def IsNumberBehindSign (number : String) (ts : List Token) : Prop :=
  ∃ signs ∈ [[], [⟨.plus, "+"⟩], [⟨.minus, "-"⟩]],
    ts.map Token.word = signs ++ [⟨.number, number⟩, endMark]

theorem map_word_tokenize_eq_iff {source file raw : String} {signs : List Word} :
    (tokenize source file).map Token.word = signs ++ [⟨.number, raw⟩, endMark] ↔
      wordsFrom 0 source.toList = signs ++ [⟨.number, raw⟩] := by
  have hwords : (tokenize source file).map Token.word = wordsFrom 0 source.toList ++ [endMark] :=
    tokensFrom_word file .start 0 source.toList
  rw [hwords, List.append_cons signs ⟨.number, raw⟩ [endMark]]
  exact List.append_left_inj [endMark]

theorem isSignedNumber_tokenize {source file : String} : IsSignedNumber (tokenize source file) ↔
    ∃ signs ∈ [[], [⟨.plus, "+"⟩], [⟨.minus, "-"⟩]], ∃ raw,
      wordsFrom 0 source.toList = signs ++ [⟨.number, raw⟩] := by
  simp only [IsSignedNumber, map_word_tokenize_eq_iff]

end Token

namespace Word

def isSign (w : Word) : Bool :=
  w.kind == .plus || w.kind == .minus

theorem dropWhile_isSign {signs ws : List Word} {w : Word}
    (hsigns : signs ∈ [[], [⟨.plus, "+"⟩], [⟨.minus, "-"⟩]])
    (hw : w.kind = .number ∨ w.kind = .dot) : (signs ++ w :: ws).dropWhile isSign = w :: ws := by
  have hnot : ¬w.isSign = true := by
    rcases hw with hw | hw <;> simp [isSign, hw]
  simp only [List.mem_cons, List.not_mem_nil, or_false] at hsigns
  rcases hsigns with rfl | rfl | rfl
  · exact List.dropWhile_cons_of_neg hnot
  · exact List.dropWhile_cons_of_neg hnot
  · exact List.dropWhile_cons_of_neg hnot

/-- A number of the lexer begins with a digit, and it has ASCII digits and points alone. -/
theorem number_of_mem {cs : List Char} {raw : List Char}
    (h : ⟨.number, String.ofList raw⟩ ∈ wordsFrom 0 cs) :
    raw.head? ≠ some '.' ∧ ∀ c ∈ raw, c.isDigit = true ∨ c = '.' := by
  obtain ⟨c, ds, more, -, hscan, htext⟩ := cut_of_mem h
  obtain rfl : raw = c :: ds.take more := String.ofList_injective htext
  have hcomment : TokenKind.number ≠ .comment := by decide
  rcases Token.scan_cases hscan hcomment with
    ⟨-, hkind, -⟩ | ⟨hdigit, -, rfl⟩ | ⟨-, hkind, -⟩ | ⟨-, -, hoperator⟩
  · cases hkind
  · refine ⟨?_, List.forall_mem_cons.mpr ⟨Or.inl hdigit, Token.isDigit_or_point_of_mem false ds⟩⟩
    rintro ⟨⟩
    exact absurd hdigit (by decide)
  · exact absurd hkind.symm (TokenKind.ofWord_ne _).2
  · have hsymbol := Token.symbol?_of_scanOperator hoperator
    cases hsymbol

end Word

namespace Number

open Text

variable {sign mantissa exponent : List Char}

/-- A number whose first character is a digit is a word of the lexer. -/
theorem IsMantissa.firm (h : IsMantissa mantissa)
    (hascii : ∀ c ∈ mantissa, isDecimal c = true → c.isDigit = true)
    (hpoint : mantissa.head? ≠ some '.') : Firm ⟨.number, String.ofList mantissa⟩ := by
  obtain ⟨c, cs, hcs, hc⟩ := h.head?
  have hhead : mantissa.head? = some c := congrArg List.head? hcs
  have hdecimal : isDecimal c = true := hc.resolve_right fun heq => hpoint (heq ▸ hhead)
  have hdigits : ∀ d ∈ mantissa, d.isDigit = true ∨ d = '.' := fun d hd =>
    (h.isDecimal_or_point hd).imp_left (hascii d hd)
  exact firm_number_of_count hdigits h.count_point hhead
    (hascii c (List.mem_of_mem_head? hhead) hdecimal)

theorem wordsFrom_number (hmantissa : IsMantissa mantissa) (hexponent : IsExponent exponent)
    (hascii : ∀ c ∈ mantissa, isDecimal c = true → c.isDigit = true) :
    ∃ w ws, wordsFrom 0 (mantissa ++ exponent) = w :: ws ∧
      (w.kind = .number ∧ mantissa.head? ≠ some '.' ∧ ws = wordsFrom 0 exponent ∨
        w.kind = .dot ∧ mantissa.head? = some '.') := by
  by_cases hpoint : mantissa.head? = some '.'
  · obtain ⟨cs, rfl⟩ := List.head?_eq_some_iff.mp hpoint
    have hdot : Firm ⟨.dot, "."⟩ := firm_symbol rfl
    have hread := hdot.readsBy (wordsFrom 0) (cs ++ exponent) fun _ _ => rfl
    exact ⟨_, _, hread, Or.inr ⟨rfl, rfl⟩⟩
  · have hapart : Apart TokenKind.number.runsOn exponent := by
      intro d hd
      obtain ⟨hdecimal, hne⟩ := hexponent.head? d hd
      rw [TokenKind.runsOn, Bool.or_eq_false_iff, beq_eq_false_iff_ne]
      refine ⟨Bool.eq_false_iff.mpr fun hdigit => ?_, hne⟩
      rw [isDecimal_of_isDigit hdigit] at hdecimal
      cases hdecimal
    have hread := (hmantissa.firm hascii hpoint).readsBy (wordsFrom 0) exponent hapart
    rw [String.toList_ofList] at hread
    exact ⟨_, _, hread, Or.inl ⟨rfl, hpoint, rfl⟩⟩

theorem wordsFrom_exponent_eq_nil (h : IsExponent exponent) :
    wordsFrom 0 exponent = [] ↔ exponent = [] := by
  cases h with
  | none => exact iff_of_true rfl rfl
  | @letter c sign ds hc hsign hne hds =>
      have hstart : isNameStart c = true := by
        rcases hc with rfl | rfl <;> decide
      have hlay := not_isLayout_of_isNameChar (isNameChar_of_isNameStart hstart)
      rw [wordsFrom_scan hlay (Token.scan_nameStart hstart _)]
      simp

/-- A sign in front of a number is a word of its own. -/
theorem wordsFrom_sign (hsign : IsSign sign) (hmantissa : IsMantissa mantissa) (rest : List Char) :
    ∃ signs ∈ [[], [⟨.plus, "+"⟩], [⟨.minus, "-"⟩]],
      wordsFrom 0 (sign ++ (mantissa ++ rest)) = signs ++ wordsFrom 0 (mantissa ++ rest) := by
  obtain ⟨c, cs, rfl, hc⟩ := hmantissa.head?
  have hfirst : c ∉ ['+', '-', '='] := by
    have hmarks : ∀ d ∈ ['+', '-', '='], ¬(isDecimal d = true ∨ d = '.') := by decide
    exact fun hmem => hmarks c hmem hc
  simp only [List.mem_cons, List.not_mem_nil, or_false, not_or] at hfirst
  cases hsign with
  | none => exact ⟨[], by simp, rfl⟩
  | minus =>
      have hfirm : Firm ⟨.minus, "-"⟩ := firm_symbol rfl
      have hapart : Apart TokenKind.minus.runsOn (c :: cs ++ rest) :=
        apart_cons (by simp [TokenKind.runsOn, hfirst]) _
      exact ⟨_, by simp, hfirm.readsBy (wordsFrom 0) _ hapart⟩
  | plus =>
      have hfirm : Firm ⟨.plus, "+"⟩ := firm_symbol rfl
      have hapart : Apart TokenKind.plus.runsOn (c :: cs ++ rest) :=
        apart_cons (by simp [TokenKind.runsOn, hfirst]) _
      exact ⟨_, by simp, hfirm.readsBy (wordsFrom 0) _ hapart⟩

theorem head?_spanSign (hsign : IsSign sign) (hmantissa : IsMantissa mantissa)
    (rest : List Char) : (spanSign (sign ++ (mantissa ++ rest))).2.head? = mantissa.head? := by
  obtain ⟨c, cs, rfl, -⟩ := hmantissa.head?
  rw [spanSign_append hsign (hmantissa.ne_sign rest)]
  rfl

/-- A number has an exponent exactly if it has its letter. -/
theorem exponent_eq_nil_iff (hsign : IsSign sign) (hmantissa : IsMantissa mantissa)
    (hexponent : IsExponent exponent) :
    exponent = [] ↔ ∀ c ∈ sign ++ (mantissa ++ exponent), c ≠ 'e' ∧ c ≠ 'E' := by
  constructor
  · rintro rfl c hc
    rw [List.append_nil] at hc
    rcases List.mem_append.mp hc with hc | hc
    · cases hsign with
      | none => cases hc
      | minus => simp_all
      | plus => simp_all
    · rcases hmantissa.isDecimal_or_point hc with hc | rfl
      · constructor
        · rintro rfl
          exact absurd hc (by decide)
        · rintro rfl
          exact absurd hc (by decide)
      · decide
  · intro h
    cases hexponent with
    | none => rfl
    | letter hc hmark hne hds =>
        have hletter := h _ (List.mem_append_right _ (List.mem_append_right _ List.mem_cons_self))
        exact absurd hc (not_or.mpr hletter)

/-- A number in ASCII is a token of the lexer behind its sign exactly if it has no exponent and
does not begin with its point. -/
theorem IsSpelling.isSignedNumber_iff {cs : List Char} (h : IsSpelling cs)
    (hascii : ∀ c ∈ cs, isDecimal c = true → c.isDigit = true) (file : String) :
    Token.IsSignedNumber (Token.tokenize (String.ofList cs) file) ↔
      (spanSign cs).2.head? ≠ some '.' ∧ ∀ c ∈ cs, c ≠ 'e' ∧ c ≠ 'E' := by
  obtain ⟨hsign, hmantissa, hexponent⟩ := h
  rename_i sign mantissa exponent
  have hdigits : ∀ c ∈ mantissa, isDecimal c = true → c.isDigit = true := fun c hc =>
    hascii c (List.mem_append_right _ (List.mem_append_left _ hc))
  have hhead := head?_spanSign hsign hmantissa exponent
  obtain ⟨signs, hsigns, hwords⟩ := wordsFrom_sign hsign hmantissa exponent
  obtain ⟨w, ws, hbody, hfirst⟩ := wordsFrom_number hmantissa hexponent hdigits
  have hkind : w.kind = .number ∨ w.kind = .dot := hfirst.imp And.left And.left
  rw [Token.isSignedNumber_tokenize, String.toList_ofList, hwords, hbody, hhead,
    ← exponent_eq_nil_iff hsign hmantissa hexponent, ← wordsFrom_exponent_eq_nil hexponent]
  constructor
  · rintro ⟨signs', hsigns', raw, heq⟩
    have hcancel := congrArg (List.dropWhile Word.isSign) heq
    rw [dropWhile_isSign hsigns hkind, dropWhile_isSign hsigns' (Or.inl rfl)] at hcancel
    obtain ⟨rfl, rfl⟩ := List.cons.inj hcancel
    rcases hfirst with ⟨-, hpoint, hrest⟩ | ⟨hdot, -⟩
    · exact ⟨hpoint, hrest.symm⟩
    · cases hdot
  · rintro ⟨hpoint, hrest⟩
    rcases hfirst with ⟨hnumber, -, hws⟩ | ⟨-, hdot⟩
    · refine ⟨signs, hsigns, w.text, ?_⟩
      rw [hws, hrest, ← hnumber]
    · exact absurd hdot hpoint

/-- A number in whatever digits is one token behind its sign, with all its text, exactly if it has
no exponent, does not begin with its point and has ASCII digits alone. -/
theorem IsSpelling.isNumberBehindSign_iff {cs : List Char} (h : IsSpelling cs) (file : String) :
    Token.IsNumberBehindSign (String.ofList (spanSign cs).2)
        (Token.tokenize (String.ofList cs) file) ↔
      (spanSign cs).2.head? ≠ some '.' ∧
        ∀ c ∈ cs, c ≠ 'e' ∧ c ≠ 'E' ∧ (isDecimal c = true → c.isDigit = true) := by
  obtain ⟨hsign, hmantissa, hexponent⟩ := h
  rename_i sign mantissa exponent
  have hspan : spanSign (sign ++ (mantissa ++ exponent)) = (sign, mantissa ++ exponent) :=
    spanSign_append hsign (hmantissa.ne_sign exponent)
  simp only [Token.IsNumberBehindSign, Token.map_word_tokenize_eq_iff, String.toList_ofList, hspan]
  constructor
  · rintro ⟨signs, -, hwords⟩
    have hmem : (⟨.number, String.ofList (mantissa ++ exponent)⟩ : Word) ∈
        wordsFrom 0 (sign ++ (mantissa ++ exponent)) := by
      rw [hwords]
      simp
    obtain ⟨hhead, hdigits⟩ := Word.number_of_mem hmem
    refine ⟨hhead, fun c hc => ?_⟩
    rcases List.mem_append.mp hc with hc | hc
    · cases hsign with
      | none => cases hc
      | minus =>
          obtain rfl := List.mem_singleton.mp hc
          decide
      | plus =>
          obtain rfl := List.mem_singleton.mp hc
          decide
    · rcases hdigits c hc with hdigit | rfl
      · refine ⟨?_, ?_, fun _ => hdigit⟩
        · rintro rfl
          exact absurd hdigit (by decide)
        · rintro rfl
          exact absurd hdigit (by decide)
      · decide
  · rintro ⟨hpoint, hall⟩
    have hletter : ∀ c ∈ sign ++ (mantissa ++ exponent), c ≠ 'e' ∧ c ≠ 'E' := fun c hc =>
      ⟨(hall c hc).1, (hall c hc).2.1⟩
    obtain rfl := (exponent_eq_nil_iff hsign hmantissa hexponent).mpr hletter
    rw [List.append_nil] at hpoint hall ⊢
    have hascii : ∀ c ∈ mantissa, isDecimal c = true → c.isDigit = true := fun c hc =>
      (hall c (List.mem_append_right _ hc)).2.2
    obtain ⟨signs, hsigns, hwords⟩ := wordsFrom_sign hsign hmantissa []
    have hread := (hmantissa.firm hascii hpoint).readsBy (wordsFrom 0) [] (Word.apart_nil _)
    rw [String.toList_ofList, List.append_nil] at hread
    rw [List.append_nil] at hwords
    exact ⟨signs, hsigns, hwords.trans (congrArg (signs ++ ·) hread)⟩

end Number

/-! ## Reading a number back -/

namespace Grammar

/-- A text that is an expression which has just this text and binds as tight as an operand. -/
structure IsOperand (text : String) (ws : List Word) (e : Expr) : Prop where
  phrase : Phrase 8 ws e
  spelling : Spelling text ws true
  source : e.source = text
  binding : Binding.leading ≤ e.binding

/-- A sign in front of an operand that does not begin with it. -/
theorem IsOperand.signed {cs : List Char} {ws : List Word} {e : Expr}
    (h : IsOperand (String.ofList cs) ws e) {kind : TokenKind} {c : Char}
    (hop : kind.symbol? = some (String.singleton c)) (hkind : ExprGrammar.isLeading kind = true)
    (hne : cs.head? ≠ some c) :
    IsOperand (String.ofList (c :: cs)) (symbol kind :: ws)
      (.unary default (String.singleton c) e true) := by
  have hjoin : joinLeading (String.singleton c) (String.ofList cs) = String.ofList (c :: cs) := by
    have hfuses : ¬fuses [c] cs = true := by
      cases cs with
      | nil => exact Bool.false_ne_true
      | cons d ds =>
          have hd : d ≠ c := fun heq => hne (congrArg some heq)
          simp [fuses, hd]
    rw [joinLeading, String.toList_singleton, String.toList_ofList, if_neg hfuses]
    exact String.toList_inj.mp (by simp)
  have hphrase : Phrase 8 (symbol kind :: ws) (.unary default (symbol kind).text e true) :=
    .leading default hkind h.phrase
  rw [symbol_eq hop] at hphrase ⊢
  refine ⟨hphrase, ?_, ?_, Nat.le_refl _⟩
  · rw [← hjoin, ← symbol_eq hop]
    exact h.spelling.joinLeading hop hkind
  · rw [Expr.source, if_pos rfl, Expr.guarded, if_neg (Nat.not_lt.mpr h.binding), h.source, hjoin]

/-- An assignment to a name is read if its value is a short operand. -/
theorem IsOperand.isRead_assignment {id text : String} {ws : List Word} {e : Expr}
    (h : IsOperand text ws e) (hid : Firm ⟨.identifier, id⟩) (hshort : ws.length ≤ 2) :
    IsRead (id ++ " = " ++ text) := by
  have hname : ∃ target, Phrase 10 [⟨.identifier, id⟩] target ∧ target.source = id ∧
      target.binding = Binding.primary := by
    by_cases hpin : isAnalogPin id = true
    · exact ⟨_, .pin default hpin, rfl, rfl⟩
    · exact ⟨_, .name default (Bool.eq_false_iff.mpr hpin), rfl, rfl⟩
  obtain ⟨target, htarget, hsource, hprimary⟩ := hname
  have hphrase : Phrase 1 ([⟨.identifier, id⟩] ++ symbol .assign :: ws)
      (.assign default "=" target e) :=
    .assign default rfl (htarget.loosenTo (by decide) (by decide))
      (h.phrase.loosenTo (by decide) (by decide))
  have hspaced : id ++ " " ++ "=" ++ " " ++ text = id ++ " = " ++ text :=
    String.toList_inj.mp (by simp)
  have hspelling := Spelling.infixed (show TokenKind.assign.symbol? = some "=" from rfl)
    (Spelling.word hid rfl rfl) h.spelling
  rw [hspaced] at hspelling
  refine isRead_of_spelling hphrase hspelling ?_ ?_
  · rw [List.length_append, List.length_singleton, List.length_cons, maxNesting]
    omega
  · have hloose : Binding.ofOperator "=" ≤ Binding.leading := by decide
    rw [Expr.source, Expr.guarded, Expr.guarded, hsource, hprimary, h.source,
      if_neg (by decide), if_neg (Nat.not_lt.mpr (hloose.trans h.binding)), hspaced]

end Grammar

namespace Number

open Text Grammar

/-- A number in ASCII with a digit in front and no exponent is an operand. -/
theorem IsSpelling.exists_isOperand {cs : List Char} (h : IsSpelling cs)
    (hascii : ∀ c ∈ cs, isDecimal c = true → c.isDigit = true)
    (hpoint : (spanSign cs).2.head? ≠ some '.') (hletter : ∀ c ∈ cs, c ≠ 'e' ∧ c ≠ 'E') :
    ∃ ws e, IsOperand (String.ofList cs) ws e ∧ ws.length ≤ 2 := by
  obtain ⟨hsign, hmantissa, hexponent⟩ := h
  rename_i sign mantissa exponent
  rw [head?_spanSign hsign hmantissa] at hpoint
  obtain rfl := (exponent_eq_nil_iff hsign hmantissa hexponent).mpr hletter
  rw [List.append_nil] at hascii ⊢
  obtain ⟨value, hvalue⟩ := hmantissa.isSpelling.exists_double?
  have hfirm := hmantissa.firm (fun c hc => hascii c (List.mem_append_right _ hc)) hpoint
  have hplain : IsOperand (String.ofList mantissa) [⟨.number, String.ofList mantissa⟩]
      (.literal default (.number value) (String.ofList mantissa)) :=
    ⟨(Phrase.number default hvalue).loosenTo (by decide) (by decide),
      Spelling.word hfirm rfl rfl, rfl, show Binding.leading ≤ Binding.primary by decide⟩
  have hne : ∀ c, c = '-' ∨ c = '+' → mantissa.head? ≠ some c := by
    intro c hc hhead
    have hfirst := hmantissa.ne_sign [] c (by rw [List.append_nil, hhead]; rfl)
    exact absurd hc (not_or.mpr hfirst)
  cases hsign with
  | none => exact ⟨_, _, hplain, Nat.le_succ 1⟩
  | minus =>
      have hop : TokenKind.minus.symbol? = some (String.singleton '-') := rfl
      exact ⟨_, _, hplain.signed hop rfl (hne '-' (Or.inl rfl)), Nat.le_refl 2⟩
  | plus =>
      have hop : TokenKind.plus.symbol? = some (String.singleton '+') := rfl
      exact ⟨_, _, hplain.signed hop rfl (hne '+' (Or.inr rfl)), Nat.le_refl 2⟩

end Number

namespace Code

/-- The number that a block is written as is one token behind its sign, with all its text, exactly if
it has no exponent, a digit in front and no digits of other scripts, which the lexer does not know. -/
theorem number_isNumberBehindSign_iff (fields : List (String × Scalar)) (inputs : List Input)
    (c : Context) (file : String) :
    ∃ operand, (part (.mk "math_number" fields inputs)).value c = .ok (operand, c) ∧
      (Token.IsNumberBehindSign (String.ofList (Number.spanSign operand.text.toList).2)
          (Token.tokenize operand.text file) ↔
        (Number.spanSign operand.text.toList).2.head? ≠ some '.' ∧
          ∀ d ∈ operand.text.toList,
            d ≠ 'e' ∧ d ≠ 'E' ∧ (Text.isDecimal d = true → d.isDigit = true)) := by
  let s : Shape := ⟨"math_number", fields, slots inputs⟩
  have htype : s.type ≠ "" := show "math_number" ≠ "" by decide
  have htemplate : Value.template? s.type = some Value.number := rfl
  have hnumber : (part (.mk "math_number" fields inputs)).value = Value.number s :=
    Shape.operand_eq htype htemplate
  obtain ⟨q, hnames⟩ := Numeral.names_ofField (s.field? "NUM")
  have hiff := hnames.spelling.isNumberBehindSign_iff file
  rw [String.ofList_toList] at hiff
  exact ⟨_, congrFun hnumber c, hiff⟩

/-- The number that a block is written as is one token behind its sign exactly if it has no exponent
and a digit in front; an assignment of it is then read as it is written.  Digits of other scripts,
which the lexer does not know, are left aside. -/
theorem number_isSignedNumber_iff (fields : List (String × Scalar)) (inputs : List Input)
    (c : Context) (file : String) :
    ∃ operand, (part (.mk "math_number" fields inputs)).value c = .ok (operand, c) ∧
      ((∀ d ∈ operand.text.toList, Text.isDecimal d = true → d.isDigit = true) →
        (Token.IsSignedNumber (Token.tokenize operand.text file) ↔
          (Number.spanSign operand.text.toList).2.head? ≠ some '.' ∧
            ∀ d ∈ operand.text.toList, d ≠ 'e' ∧ d ≠ 'E') ∧
        (Token.IsSignedNumber (Token.tokenize operand.text file) →
          ∀ id, Firm ⟨.identifier, id⟩ → Grammar.IsRead (id ++ " = " ++ operand.text))) := by
  let s : Shape := ⟨"math_number", fields, slots inputs⟩
  have htype : s.type ≠ "" := show "math_number" ≠ "" by decide
  have htemplate : Value.template? s.type = some Value.number := rfl
  have hnumber : (part (.mk "math_number" fields inputs)).value = Value.number s :=
    Shape.operand_eq htype htemplate
  obtain ⟨q, hnames⟩ := Numeral.names_ofField (s.field? "NUM")
  refine ⟨_, congrFun hnumber c, fun hascii => ?_⟩
  have hiff := hnames.spelling.isSignedNumber_iff hascii file
  rw [String.ofList_toList] at hiff
  refine ⟨hiff, fun hsigned id hid => ?_⟩
  obtain ⟨hpoint, hletter⟩ := hiff.mp hsigned
  obtain ⟨ws, e, hoperand, hshort⟩ := hnames.spelling.exists_isOperand hascii hpoint hletter
  rw [String.ofList_toList] at hoperand
  exact hoperand.isRead_assignment hid hshort

/-- A sign, a point and a zero at the end. -/
theorem number_isSignedNumber_negative :
    ∃ operand c, (part (.mk "math_number" [("NUM", .text "-12.50")] [])).value {} =
        .ok (operand, c) ∧ operand.text = "-12.50" ∧
      Token.IsSignedNumber (Token.tokenize operand.text "<sketch>") ∧
      Grammar.IsRead ("x" ++ " = " ++ operand.text) := by
  obtain ⟨operand, hvalue, hnumber⟩ :=
    number_isSignedNumber_iff [("NUM", .text "-12.50")] [] {} "<sketch>"
  have htext : operand.text = "-12.50" := by
    have hwritten : ((part (.mk "math_number" [("NUM", .text "-12.50")] [])).value
        {}).toOption.map (fun r => r.1.text) = some "-12.50" := by
      decide +kernel
    rw [hvalue] at hwritten
    exact Option.some.inj hwritten
  have hx : Firm ⟨.identifier, "x"⟩ := firm_name 'x' [] (by decide) (by decide)
  rw [htext] at hnumber
  obtain ⟨hiff, hread⟩ := hnumber (by decide +kernel)
  have hsigned := hiff.mpr (by decide +kernel)
  exact ⟨operand, {}, hvalue, htext, htext ▸ hsigned, htext ▸ hread hsigned "x" hx⟩

/-- An exponent is kept, and is a name to the lexer. -/
theorem number_exponent_not_isSignedNumber :
    ∃ operand c, (part (.mk "math_number" [("NUM", .text "1e5")] [])).value {} =
        .ok (operand, c) ∧ operand.text = "1e5" ∧
      (Token.tokenize operand.text "<sketch>").map Token.kind =
        [.number, .identifier, .endOfInput] ∧
      ¬Token.IsSignedNumber (Token.tokenize operand.text "<sketch>") := by
  have htokens : (Token.tokenize "1e5" "<sketch>").map Token.word =
      [⟨.number, "1"⟩, ⟨.identifier, "e5"⟩, endMark] := by
    decide +kernel
  refine ⟨⟨"1e5", Binding.primary⟩, {}, by rfl, rfl, by decide +kernel, ?_⟩
  rintro ⟨signs, hsigns, raw, h⟩
  rw [htokens] at h
  simp only [List.mem_cons, List.not_mem_nil, or_false] at hsigns
  rcases hsigns with rfl | rfl | rfl <;> simp [endMark] at h

end Code

end InoBlocks
