import InoBlocks.Proofs.Sketch.PhraseStrength
import InoBlocks.Proofs.Sketch.RawStrength
import InoBlocks.Proofs.Token.Tiling

/-!
# The words of raw text

What the lexer cuts out of a text of which no more is known than what the guess at its strength has
looked at: the characters it is made of, its quotes and its parentheses.
-/

namespace InoBlocks

open Word

theorem TokenKind.ofChar?_eq_none {c : Char} (hc : 128 ≤ c.toNat) : ofChar? c = none := by
  unfold ofChar?
  split <;> first
    | rfl
    | exact absurd hc (by decide)

theorem TokenKind.ofPair?_eq_none {c : Char} (hc : 128 ≤ c.toNat) (d : Char) :
    ofPair? c d = none := by
  unfold ofPair?
  split <;> first
    | rfl
    | exact absurd hc (by decide)

namespace Word

/-! ## Texts of plain characters -/

/-- The characters of names, the point, and all that lies beyond ASCII. -/
def isPlainChar (c : Char) : Bool :=
  Text.isNameChar c || c == '.' || decide (128 ≤ c.toNat)

theorem isPlainChar_cases {c : Char} (h : isPlainChar c = true) :
    c.isDigit = true ∨ Text.isNameStart c = true ∨ c = '.' ∨ 128 ≤ c.toNat := by
  simp only [isPlainChar, Bool.or_eq_true, beq_iff_eq, decide_eq_true_eq] at h
  rcases h with (h | h) | h
  · exact (Text.isNameChar_iff.mp h).symm.elim Or.inl fun h => Or.inr (Or.inl h)
  · exact Or.inr (Or.inr (Or.inl h))
  · exact Or.inr (Or.inr (Or.inr h))

theorem isPlainChar_of_isNameChar {c : Char} (h : Text.isNameChar c = true) :
    isPlainChar c = true := by
  simp [isPlainChar, h]

theorem isPlainChar_of_isWord {c : Char} (h : Text.isWord c = true) : isPlainChar c = true := by
  rw [Text.isWord, Bool.or_eq_true, Bool.and_eq_true] at h
  rcases h with h | h <;> simp [isPlainChar, h]

theorem not_isPlainChar_of_isLayout {c : Char} (h : Token.isLayout c = true) :
    isPlainChar c = false := by
  simp only [Token.isLayout, Bool.or_eq_true, beq_iff_eq] at h
  rcases h with ((((rfl | rfl) | rfl) | rfl) | rfl) | rfl <;> decide

theorem not_isLayout_of_isPlainChar {c : Char} (h : isPlainChar c = true) :
    Token.isLayout c = false := by
  rw [Bool.eq_false_iff]
  intro hlayout
  rw [not_isPlainChar_of_isLayout hlayout] at h
  cases h

theorem scan_beyond {c : Char} (hc : 128 ≤ c.toNat) (cs : List Char) : Token.scan c cs = none := by
  have hne : ∀ d : Char, d.toNat < 128 → c ≠ d := by
    rintro d hd rfl
    omega
  have hdigit : c.isDigit = false := by
    rw [Bool.eq_false_iff, ne_eq, Text.isDigit_iff]
    omega
  have hname : Text.isNameStart c = false := by
    rw [Bool.eq_false_iff, ne_eq, Text.isNameStart_iff]
    omega
  have hpair : cs.head?.bind (TokenKind.ofPair? c) = none := by
    cases cs with
    | nil => rfl
    | cons d ds => exact TokenKind.ofPair?_eq_none hc d
  have hopen := Token.opensComment_of_ne (hne '/' (by decide)) cs
  rw [Token.scan_of_not_opensComment hopen,
    if_neg (by simpa using ⟨hne '"' (by decide), hne '\'' (by decide)⟩), if_neg (by simp [hdigit]),
    if_neg (by simp [hname]), Token.scanOperator, hpair, TokenKind.ofChar?_eq_none hc]
  rfl

theorem scan_point (cs : List Char) : Token.scan '.' cs = some (.dot, 0) := by
  have hfirm : Firm ⟨.dot, "."⟩ := firm_symbol rfl
  obtain ⟨c, ds, htext, -, -, hscan⟩ := hfirm
  obtain ⟨rfl, rfl⟩ : '.' = c ∧ [] = ds := by
    simpa using congrArg String.toList htext
  exact hscan cs fun _ _ => rfl

/-- What is known of a word that is cut out of plain characters. -/
structure PlainFrom (cs : List Char) (w : Word) : Prop where
  plain : w.kind.isPlain = true
  point : w.kind = .dot → '.' ∈ cs
  name : w.kind = .identifier → ∃ c ∈ cs, Text.isNameStart c = true

theorem PlainFrom.cons {cs : List Char} {w : Word} (h : PlainFrom cs w) (c : Char) :
    PlainFrom (c :: cs) w where
  plain := h.plain
  point hkind := List.mem_cons_of_mem c (h.point hkind)
  name hkind := by
    obtain ⟨d, hd, hname⟩ := h.name hkind
    exact ⟨d, List.mem_cons_of_mem c hd, hname⟩

theorem plainFrom_ofWord {c : Char} (hc : Text.isNameStart c = true) (cs : List Char)
    (word text : String) : PlainFrom (c :: cs) ⟨.ofWord word, text⟩ where
  plain := by simp [TokenKind.isPlain, TokenKind.symbol?_ofWord]
  point hkind := by
    have hsymbol := TokenKind.symbol?_ofWord word
    rw [show TokenKind.ofWord word = .dot from hkind] at hsymbol
    cases hsymbol
  name _ := ⟨c, List.mem_cons_self, hc⟩

theorem numberLength_append_le {rest : List Char} (hrest : Apart isPlainChar rest)
    (pointed : Bool) (cs : List Char) : Token.numberLength pointed (cs ++ rest) ≤ cs.length := by
  induction cs generalizing pointed with
  | nil =>
      cases rest with
      | nil => exact Nat.le_refl 0
      | cons d ds =>
          have hplain := hrest d rfl
          have hdigit : ¬ d.isDigit = true := fun h => by
            rw [isPlainChar_of_isNameChar (Text.isNameChar_of_isDigit h)] at hplain
            cases hplain
          have hpoint : ¬ d = '.' := by
            rintro rfl
            exact absurd hplain (by decide)
          rw [List.nil_append, Token.numberLength, if_neg hdigit, if_neg (by simp [hpoint])]
          exact Nat.le_refl 0
  | cons c cs ih =>
      rw [List.cons_append, Token.numberLength, List.length_cons]
      split
      · exact Nat.succ_le_succ (ih pointed)
      · split
        · exact Nat.succ_le_succ (ih true)
        · exact Nat.zero_le _

theorem nameLength_append_le {rest : List Char} (hrest : Apart isPlainChar rest)
    (cs : List Char) : Token.nameLength (cs ++ rest) ≤ cs.length := by
  have hstop : rest.takeWhile Text.isNameChar = [] := by
    cases rest with
    | nil => rfl
    | cons d ds =>
        have hname := hrest.mono (fun _ => isPlainChar_of_isNameChar) d rfl
        exact List.takeWhile_cons_of_neg (by simp [hname])
  rw [Token.nameLength, List.takeWhile_append, hstop]
  split
  · rw [List.append_nil]
  · exact (List.takeWhile_prefix _).length_le

/-- Out of plain characters plain words are cut, whatever else stands behind them.  The first
`skip` characters belong to a word that is already cut. -/
theorem wordsFrom_plain {rest : List Char} (hrest : Apart isPlainChar rest) {cs : List Char}
    (hcs : ∀ c ∈ cs, isPlainChar c = true) {skip : Nat} (hskip : skip ≤ cs.length) :
    ∃ ws, wordsFrom skip (cs ++ rest) = ws ++ wordsFrom 0 rest ∧ ∀ w ∈ ws, PlainFrom cs w := by
  induction cs generalizing skip with
  | nil =>
      obtain rfl : skip = 0 := by simpa using hskip
      exact ⟨[], rfl, by simp⟩
  | cons c cs ih =>
      obtain ⟨hc, htail⟩ := List.forall_mem_cons.mp hcs
      have hbehind : ∀ {skip : Nat}, skip ≤ cs.length →
          ∃ ws, wordsFrom skip (cs ++ rest) = ws ++ wordsFrom 0 rest ∧
            ∀ w ∈ ws, PlainFrom (c :: cs) w := by
        intro skip hskip
        obtain ⟨ws, hws, hplain⟩ := ih htail hskip
        exact ⟨ws, hws, fun w hw => (hplain w hw).cons c⟩
      have hcut : ∀ {kind : TokenKind} {more : Nat},
          Token.scan c (cs ++ rest) = some (kind, more) → more ≤ cs.length →
          (∀ text, PlainFrom (c :: cs) ⟨kind, text⟩) →
          ∃ ws, wordsFrom 0 (c :: cs ++ rest) = ws ++ wordsFrom 0 rest ∧
            ∀ w ∈ ws, PlainFrom (c :: cs) w := by
        intro kind more hscan hmore hword
        obtain ⟨ws, hws, hplain⟩ := hbehind hmore
        refine ⟨⟨kind, String.ofList (c :: (cs ++ rest).take more)⟩ :: ws, ?_,
          List.forall_mem_cons.mpr ⟨hword _, hplain⟩⟩
        rw [List.cons_append, wordsFrom_scan (not_isLayout_of_isPlainChar hc) hscan,
          ← wordsFrom_eq_drop, hws]
        rfl
      cases skip with
      | succ skip => exact hbehind (by simpa using hskip)
      | zero =>
          rcases isPlainChar_cases hc with hdigit | hname | rfl | hbeyond
          · exact hcut (Token.scan_digit hdigit _) (numberLength_append_le hrest false cs)
              fun text => ⟨rfl, nofun, nofun⟩
          · exact hcut (Token.scan_nameStart hname _) (nameLength_append_le hrest cs)
              (plainFrom_ofWord hname cs _)
          · exact hcut (scan_point _) (Nat.zero_le _) fun text => ⟨rfl, by simp, nofun⟩
          · obtain ⟨ws, hws, hplain⟩ := hbehind (Nat.zero_le _)
            refine ⟨ws, ?_, hplain⟩
            rw [← hws, List.cons_append, wordsFrom, not_isLayout_of_isPlainChar hc,
              scan_beyond hbeyond]
            rfl

theorem words_plain {rest : List Char} (hrest : Apart isPlainChar rest) {cs : List Char}
    (hcs : ∀ c ∈ cs, isPlainChar c = true) {skip : Nat} (hskip : skip ≤ cs.length) :
    ∃ ws, words ((cs ++ rest).drop skip) = ws ++ words rest ∧ ∀ w ∈ ws, PlainFrom cs w := by
  obtain ⟨ws, hws, hplain⟩ := wordsFrom_plain hrest hcs hskip
  refine ⟨ws.filter isSignificant, ?_, fun w hw => hplain w (List.mem_filter.mp hw).1⟩
  rw [words, ← wordsFrom_eq_drop, hws, List.filter_append, words]

/-- A text of plain characters that begins like a name has a word. -/
theorem words_named {rest : List Char} (hrest : Apart isPlainChar rest) {c : Char}
    {cs : List Char} (hc : Text.isNameStart c = true) (hcs : ∀ d ∈ cs, isPlainChar d = true) :
    ∃ ws, ws ≠ [] ∧ words (c :: cs ++ rest) = ws ++ words rest ∧
      ∀ w ∈ ws, PlainFrom (c :: cs) w := by
  obtain ⟨ws, hws, hplain⟩ := words_plain hrest hcs (nameLength_append_le hrest cs)
  have hlayout := Text.not_isLayout_of_isNameChar (Text.isNameChar_of_isNameStart hc)
  obtain ⟨w, hfront, hw⟩ : ∃ w, words (c :: (cs ++ rest)) =
      w :: words ((cs ++ rest).drop (Token.nameLength (cs ++ rest))) ∧ PlainFrom (c :: cs) w :=
    ⟨_, words_scan hlayout (Token.scan_nameStart hc _) (TokenKind.ofWord_ne_comment _),
      plainFrom_ofWord hc cs _ _⟩
  refine ⟨w :: ws, List.cons_ne_nil w ws, ?_,
    List.forall_mem_cons.mpr ⟨hw, fun v hv => (hplain v hv).cons c⟩⟩
  rw [List.cons_append, hfront, hws]
  rfl

/-! ## Atoms and steps -/

theorem isPlainChar_of_isNumberText {cs : List Char} (h : isNumberText cs = true) :
    ∀ c ∈ cs, isPlainChar c = true ∧ Text.isNameStart c = false := by
  intro c hc
  rcases isDecimal_or_point_of_isNumberText h c hc with hdecimal | rfl
  · refine ⟨?_, Bool.eq_false_iff.mpr fun hname => ?_⟩
    · rcases isDigit_or_le_of_isDecimal hdecimal with hdigit | hle
      · exact isPlainChar_of_isNameChar (Text.isNameChar_of_isDigit hdigit)
      · simp [isPlainChar, hle]
    · rw [not_isDecimal_of_isNameStart hname] at hdecimal
      cases hdecimal
  · decide

theorem literalLength_of_closesAtEnd {quote : Char} (hquote : quote ≠ '\\') {cs : List Char}
    (h : closesAtEnd quote cs = true) (rest : List Char) :
    Token.literalLength quote (cs ++ rest) = cs.length := by
  fun_induction closesAtEnd quote cs with
  | case1 => cases h
  | case2 c cs ih =>
      rw [Bool.and_eq_true] at h
      rw [List.cons_append, List.cons_append, Token.literalLength, ih h.2]
      rfl
  | case3 c cs hnext heq =>
      obtain rfl := eq_of_beq heq
      rw [List.isEmpty_iff.mp h, List.singleton_append, Token.literalLength_cons hquote, if_pos rfl]
      rfl
  | case4 c cs hnext hne ih =>
      rw [Bool.and_eq_true, bne_iff_ne] at h
      rw [List.cons_append, Token.literalLength_cons h.1, if_neg (by simpa using hne), ih h.2]
      rfl

theorem words_of_isQuotedText {cs : List Char} (h : isQuotedText cs = true) (rest : List Char) :
    words (cs ++ rest) = ⟨.string, String.ofList cs⟩ :: words rest := by
  cases cs with
  | nil => cases h
  | cons quote cs =>
      simp only [isQuotedText, Bool.and_eq_true, Bool.or_eq_true, beq_iff_eq] at h
      obtain ⟨hquote, hcloses⟩ := h
      have hne : quote ≠ '\\' ∧ Token.isLayout quote = false := by
        rcases hquote with rfl | rfl <;> decide
      have hscan := Token.scan_quote hquote (cs ++ rest)
      rw [literalLength_of_closesAtEnd hne.1 hcloses] at hscan
      rw [List.cons_append, words_scan hne.2 hscan (by decide), List.take_left, List.drop_left]

theorem words_of_isAtomText {cs rest : List Char} (h : isAtomText cs = true)
    (hrest : Apart isPlainChar rest) :
    ∃ ws, words (cs ++ rest) = ws ++ words rest ∧ (∀ w ∈ ws, w.kind.isPlain = true) ∧
      ((∀ w ∈ ws, w.kind ≠ .dot) ∨ ∀ w ∈ ws, w.kind ≠ .identifier) := by
  rw [isAtomText, Bool.or_eq_true, Bool.or_eq_true] at h
  rcases h with (h | h) | h
  · have hword := isWord_of_isNameText h
    obtain ⟨ws, hws, hplain⟩ := words_plain hrest
      (fun c hc => isPlainChar_of_isWord (hword c hc)) (Nat.zero_le _)
    refine ⟨ws, hws, fun w hw => (hplain w hw).plain, Or.inl fun w hw hkind => ?_⟩
    exact absurd (hword '.' ((hplain w hw).point hkind)) (by decide)
  · have hchars := isPlainChar_of_isNumberText h
    obtain ⟨ws, hws, hplain⟩ := words_plain hrest (fun c hc => (hchars c hc).1) (Nat.zero_le _)
    refine ⟨ws, hws, fun w hw => (hplain w hw).plain, Or.inr fun w hw hkind => ?_⟩
    obtain ⟨c, hc, hname⟩ := (hplain w hw).name hkind
    exact Bool.false_ne_true ((hchars c hc).2.symm.trans hname)
  · refine ⟨[⟨.string, String.ofList cs⟩], words_of_isQuotedText h rest, ?_, Or.inl ?_⟩
    · exact List.forall_mem_singleton.mpr rfl
    · exact List.forall_mem_singleton.mpr TokenKind.noConfusion

theorem words_of_isStepText {cs : List Char} (h : isStepText cs = true) (rest : List Char) :
    ∃ ws op, words (cs ++ rest) = ws ++ op :: words rest ∧ ws ≠ [] ∧
      (∀ w ∈ ws, w.kind.isPlain = true) ∧ ExprGrammar.isTrailing op.kind = true := by
  obtain ⟨name, a, rfl, hname, ha⟩ := exists_name_of_isStepText h
  obtain ⟨op, hop, hread⟩ : ∃ op : Word, ExprGrammar.isTrailing op.kind = true ∧
      words (a :: a :: rest) = op :: words rest := by
    rcases ha with rfl | rfl
    · have hfirm : Firm ⟨.increment, "++"⟩ := firm_symbol rfl
      exact ⟨_, rfl, hfirm.readsAs rest fun _ _ => rfl⟩
    · have hfirm : Firm ⟨.decrement, "--"⟩ := firm_symbol rfl
      exact ⟨_, rfl, hfirm.readsAs rest fun _ _ => rfl⟩
  have hapart : Apart isPlainChar (a :: a :: rest) :=
    apart_cons (by rcases ha with rfl | rfl <;> decide) _
  cases name with
  | nil => cases hname
  | cons c name =>
      have hword := isWord_of_isNameText hname
      rw [isNameText, Bool.and_eq_true] at hname
      obtain ⟨ws, hne, hws, hplain⟩ := words_named hapart hname.1
        fun d hd => isPlainChar_of_isWord (hword d (List.mem_cons_of_mem c hd))
      refine ⟨ws, op, ?_, hne, fun w hw => (hplain w hw).plain, hop⟩
      rw [List.append_assoc, ← hread, ← hws]
      rfl

end Word

end InoBlocks
