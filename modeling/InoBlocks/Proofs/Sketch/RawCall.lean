import InoBlocks.Proofs.Sketch.RawWords

/-!
# The parentheses of a raw call

Where the first parenthesis of a raw text closes is found in its characters.  This scan knows no
comments, and a quote behind a backslash never closes a literal for it.  Over texts in which neither
makes a difference it follows the parentheses of the words that the lexer cuts.
-/

namespace InoBlocks

/-- The characters that the scan for parentheses looks at outside of literals. -/
def isMark (c : Char) : Bool :=
  c == '"' || c == '\'' || c == '(' || c == ')'

/-- The scan for parentheses passes over a word as the lexer does: there is nothing for it in a
comment, and the quote that closes a literal has no backslash in front of it. -/
structure Word.ScansAlike (w : Word) : Prop where
  comment : w.kind = .comment → ∀ c ∈ w.text.toList, isMark c = false
  literal : w.kind = .string → w.text.toList.dropLast.getLast? ≠ some '\\'

instance : DecidablePred Word.ScansAlike := fun w =>
  decidable_of_iff ((w.kind = .comment → ∀ c ∈ w.text.toList, isMark c = false) ∧
    (w.kind = .string → w.text.toList.dropLast.getLast? ≠ some '\\'))
    ⟨fun h => ⟨h.1, h.2⟩, fun h => ⟨h.comment, h.literal⟩⟩

open Word

/-! ## The scan over one word -/

variable {p : Char} {d : Nat}

theorem closesLast_plain {cs : List Char} (hcs : ∀ c ∈ cs, isMark c = false) (ds : List Char) :
    closesLast p none d (cs ++ ds) = closesLast p none d ds := by
  have hprevious : ∀ (p q : Char) (cs : List Char),
      closesLast p none d cs = closesLast q none d cs := by
    intro p q cs
    cases cs <;> rfl
  induction cs generalizing p with
  | nil => rfl
  | cons c cs ih =>
      obtain ⟨hc, hcs⟩ := List.forall_mem_cons.mp hcs
      simp only [isMark, Bool.or_eq_false_iff, beq_eq_false_iff_ne] at hc
      rw [List.cons_append, closesLast]
      simp only [hc.1.1.1, hc.1.1.2, hc.1.2, hc.2, beq_iff_eq, Bool.or_eq_true, or_self, ↓reduceIte]
      rw [ih hcs, hprevious]

/-- The scan leaves a literal where the lexer does or later, and later only if the quote there has a
backslash in front of it. -/
theorem closesLast_literal {q : Char} (hq : q ≠ '\\') {cs : List Char}
    (h : closesLast p (some q) d cs = true) :
    ∃ inside rest, cs = inside ++ q :: rest ∧
      (∀ ds, Token.literalLength q (cs ++ ds) = inside.length + 1) ∧
      ((p :: inside).getLast? ≠ some '\\' → closesLast q none d rest = true) := by
  have hslash : ('\\' == q) = false := beq_eq_false_iff_ne.mpr hq.symm
  fun_induction Token.literalLength q cs generalizing p with
  | case1 => cases h
  | case2 =>
      simp only [closesLast, Bool.false_eq_true] at h
  | case3 c cs ih =>
      simp only [closesLast, hslash, bne_self_eq_false, Bool.false_and, Bool.and_false,
        Bool.false_eq_true, ↓reduceIte] at h
      obtain ⟨inside, rest, rfl, hlength, hrest⟩ := ih h
      refine ⟨'\\' :: c :: inside, rest, rfl, fun ds => ?_, fun hlast => hrest ?_⟩
      · rw [List.cons_append, List.cons_append, Token.literalLength, hlength]
        rfl
      · rwa [List.getLast?_cons_cons, List.getLast?_cons_cons] at hlast
  | case4 cs hsingle hpair =>
      refine ⟨[], cs, rfl, fun ds => ?_, fun hlast => ?_⟩
      · rw [List.cons_append, Token.literalLength_cons hq, if_pos rfl]
        rfl
      · have hp : (p != '\\') = true := by simpa using hlast
        simpa only [closesLast, hp, beq_self_eq_true, Bool.and_self, ↓reduceIte] using h
  | case5 c cs hsingle hpair hne ih =>
      have hc : c ≠ '\\' := by
        rintro rfl
        cases cs with
        | nil => exact hsingle rfl rfl
        | cons d ds => exact hpair d ds rfl rfl
      have hquote : (c == q) = false := beq_eq_false_iff_ne.mpr hne
      simp only [closesLast, hquote, Bool.false_and, Bool.false_eq_true, ↓reduceIte] at h
      obtain ⟨inside, rest, rfl, hlength, hrest⟩ := ih h
      refine ⟨c :: inside, rest, rfl, fun ds => ?_, fun hlast => hrest ?_⟩
      · rw [List.cons_append, Token.literalLength_cons hc, if_neg hne, hlength]
        rfl
      · rwa [List.getLast?_cons_cons] at hlast

theorem read_literal {read : List Char → List Word} [Cutting read] {q : Char}
    (hq : q = '"' ∨ q = '\'') {inside ds : List Char}
    (h : Token.literalLength q (inside ++ q :: ds) = inside.length + 1) :
    read (q :: (inside ++ q :: ds)) =
      ⟨.string, String.ofList (q :: (inside ++ [q]))⟩ :: read ds := by
  have hlayout : Token.isLayout q = false := by
    rcases hq with rfl | rfl <;> decide
  have hcut : read (q :: (inside ++ q :: ds)) = _ :=
    Cutting.scan hlayout (Token.scan_quote hq _) (by decide)
  have hsplit : inside ++ q :: ds = inside ++ [q] ++ ds := by simp
  have hlong : inside.length + 1 = (inside ++ [q]).length := by simp
  rw [hcut, h, hsplit, hlong, List.take_left, List.drop_left]

/-- A word that is neither a comment nor a literal holds no mark behind its first character. -/
theorem not_isMark_of_scan {c : Char} {cs : List Char} {kind : TokenKind} {more : Nat}
    (h : Token.scan c cs = some (kind, more)) (hkind : kind ≠ .comment) (hc : isMark c = false) :
    ∀ x ∈ cs.take more, isMark x = false := by
  have hstring : kind ≠ .string := by
    rintro rfl
    rcases Token.scan_cases h hkind with ⟨hquote, -, -⟩ | ⟨-, hk, -⟩ | ⟨-, hk, -⟩ | ⟨-, -, hop⟩
    · rcases hquote with rfl | rfl <;> cases hc
    · cases hk
    · exact (TokenKind.ofWord_ne _).1 hk.symm
    · cases Token.symbol?_of_scanOperator hop
  rcases Token.chars_of_scan h hkind hstring with hchars | ⟨-, hsymbol⟩
  · intro x hx
    rcases hchars x (List.mem_cons_of_mem c hx) with hname | rfl
    · simp only [isMark, Bool.or_eq_false_iff, beq_eq_false_iff_ne]
      refine ⟨⟨⟨?_, ?_⟩, ?_⟩, ?_⟩ <;> rintro rfl <;> exact absurd hname (by decide)
    · decide
  · have hsymbols : ∀ text, kind.symbol? = some text →
        ∀ x ∈ text.toList.tail, isMark x = false := by
      cases kind <;> simp only [TokenKind.symbol?, reduceCtorEq, Option.some.injEq, forall_eq',
        IsEmpty.forall_iff, implies_true] <;> decide
    simpa using hsymbols _ hsymbol

theorem turn_of_scan {c : Char} {cs : List Char} {kind : TokenKind} {more : Nat}
    (hlayout : Token.isLayout c = false) (h : Token.scan c cs = some (kind, more))
    (hkind : kind ≠ .comment) (hc : isMark c = false) :
    turn ⟨kind, String.ofList (c :: cs.take more)⟩ = 0 := by
  have hne : ∀ {text : String}, kind.symbol? = some text → text.toList.head? = some c := by
    intro text hsymbol
    have hfirm := firm_of_scan hlayout h hkind fun hstring => by
      rw [hstring] at hsymbol
      cases hsymbol
    rw [← hfirm.lexed.text_eq hsymbol, String.toList_ofList]
    rfl
  refine turn_of_ne ?_ ?_ <;> rintro rfl <;> cases hne rfl <;> cases hc

/-- Behind a word that begins with no mark the scan goes on as it was.  Such a word does not take in
the semicolon, since there would be nothing left to close the parenthesis. -/
theorem closesLast_drop {c : Char} {cs : List Char} {kind : TokenKind} {more : Nat}
    (h : Token.scan c (cs ++ [';']) = some (kind, more)) (hc : isMark c = false)
    (halike : ScansAlike ⟨kind, String.ofList (c :: (cs ++ [';']).take more)⟩)
    (hcloses : closesLast p none d cs = true) :
    (cs ++ [';']).drop more = cs.drop more ++ [';'] ∧
      closesLast p none d (cs.drop more) = true := by
  have hmarks : ∀ x ∈ (cs ++ [';']).take more, isMark x = false := by
    by_cases hkind : kind = .comment
    · have hall := halike.comment hkind
      rw [String.toList_ofList] at hall
      exact fun x hx => hall x (List.mem_cons_of_mem c hx)
    · exact not_isMark_of_scan h hkind hc
  have hmore : more ≤ cs.length := by
    by_contra hge
    have htake : (cs ++ [';']).take more = cs ++ [';'] :=
      List.take_of_length_le (by simp; omega)
    have hnil := closesLast_plain (p := p) (d := d)
      (fun x hx => hmarks x (by simp [htake, hx]) : ∀ x ∈ cs, isMark x = false) []
    rw [List.append_nil, hcloses] at hnil
    cases hnil
  rw [List.take_append_of_le_length hmore] at hmarks
  rw [← List.take_append_drop more cs, closesLast_plain hmarks] at hcloses
  exact ⟨List.drop_append_of_le_length hmore, hcloses⟩

/-! ## The scan over a text -/

/-- A scan for parentheses passes over all words of a text as the lexer does, a semicolon behind the
text included. -/
def ScansAlong (cs : List Char) : Prop :=
  ∀ w ∈ wordsFrom 0 (cs ++ [';']), w.ScansAlike

instance (cs : List Char) : Decidable (ScansAlong cs) :=
  inferInstanceAs (Decidable (∀ w ∈ wordsFrom 0 (cs ++ [';']), w.ScansAlike))

/-- The words of a text stand within some parentheses that are open in front of it. -/
def StaysWithin (d : Nat) (cs : List Char) : Prop :=
  ∃ ws, words (cs ++ [';']) = ws ++ [⟨.semicolon, ";"⟩] ∧ Within d ws

theorem StaysWithin.of_word {cs rest : List Char} {w : Word} {d' : Nat} (h : StaysWithin d' rest)
    (hd : 1 ≤ d) (hturn : (d' : Int) = d + w.turn)
    (hread : words (cs ++ [';']) = w :: words (rest ++ [';'])) : StaysWithin d cs := by
  obtain ⟨ws, hws, hwithin⟩ := h
  exact ⟨w :: ws, by rw [hread, hws]; rfl, by omega, hturn ▸ hwithin⟩

theorem ScansAlong.of_word {cs rest : List Char} {w : Word} (h : ScansAlong cs)
    (hread : wordsFrom 0 (cs ++ [';']) = w :: wordsFrom 0 (rest ++ [';'])) :
    w.ScansAlike ∧ ScansAlong rest := by
  rw [ScansAlong, hread] at h
  exact List.forall_mem_cons.mp h

/-- Behind a character that is no mark, and behind the word that it begins. -/
theorem staysWithin_unmarked {c : Char} {cs : List Char} (hc : isMark c = false) (hd : 1 ≤ d)
    (h : closesLast p none d cs = true) (halong : ScansAlong (c :: cs))
    (hrest : ∀ rest : List Char, rest.length ≤ cs.length → closesLast p none d rest = true →
      ScansAlong rest → StaysWithin d rest) : StaysWithin d (c :: cs) := by
  cases hlayout : Token.isLayout c with
  | true =>
      have hfrom : wordsFrom 0 (c :: cs ++ [';']) = wordsFrom 0 (cs ++ [';']) :=
        Cutting.layout hlayout _
      rw [StaysWithin, List.cons_append, words_layout hlayout]
      exact hrest cs (Nat.le_refl _) h (by rwa [ScansAlong, hfrom] at halong)
  | false =>
      cases hscan : Token.scan c (cs ++ [';']) with
      | none =>
          have hfrom : wordsFrom 0 (c :: cs ++ [';']) = wordsFrom 0 (cs ++ [';']) := by
            simp [wordsFrom, hlayout, hscan]
          rw [StaysWithin, List.cons_append, words_unread hlayout hscan]
          exact hrest cs (Nat.le_refl _) h (by rwa [ScansAlong, hfrom] at halong)
      | some cut =>
          obtain ⟨kind, more⟩ := cut
          have hfrom := wordsFrom_scan hlayout hscan
          obtain ⟨hdrop, hcloses⟩ := closesLast_drop hscan hc
            (halong _ (hfrom ▸ List.mem_cons_self)) h
          rw [hdrop] at hfrom
          have hbehind := hrest _ (by simp) hcloses (halong.of_word hfrom).2
          by_cases hkind : kind = .comment
          · subst hkind
            rwa [StaysWithin, List.cons_append, words_comment hlayout hscan, hdrop]
          · have hturn := turn_of_scan hlayout hscan hkind hc
            have hread := words_scan hlayout hscan hkind
            rw [hdrop] at hread
            exact hbehind.of_word hd (by rw [hturn, Int.add_zero]) hread

/-- If the parenthesis that is open closes with the last character, the words of the text stand
within it.  By induction on the text, word by word. -/
theorem staysWithin_of_closesLast {cs : List Char} (hd : 1 ≤ d)
    (h : closesLast p none d cs = true) (halong : ScansAlong cs) : StaysWithin d cs := by
  induction hlength : cs.length using Nat.strong_induction_on generalizing p d cs with
  | _ n ih =>
  subst hlength
  cases cs with
  | nil => cases h
  | cons c cs =>
      have hbehind : ∀ {rest : List Char} {q : Char} {d' : Nat}, rest.length ≤ cs.length →
          1 ≤ d' → closesLast q none d' rest = true → ScansAlong rest → StaysWithin d' rest :=
        fun hle hd' hrest halong => ih _ (Nat.lt_succ_of_le hle) hd' hrest halong rfl
      by_cases hquote : c = '"' ∨ c = '\''
      · have hne : c ≠ '\\' := by
          rcases hquote with rfl | rfl <;> decide
        have hinside : closesLast c (some c) d cs = true := by
          simpa [closesLast, hquote] using h
        obtain ⟨inside, rest, rfl, hclosed, hrest⟩ := closesLast_literal hne hinside
        have hread : ∀ read [Cutting read], read (c :: (inside ++ c :: rest) ++ [';']) =
            ⟨.string, String.ofList (c :: (inside ++ [c]))⟩ :: read (rest ++ [';']) := by
          intro read _
          have hlength := hclosed [';']
          rw [List.append_assoc] at hlength
          rw [List.cons_append, List.append_assoc]
          exact read_literal hquote hlength
        obtain ⟨hliteral, halong⟩ := halong.of_word (hread (wordsFrom 0))
        have hlast := hliteral.literal rfl
        rw [String.toList_ofList, ← List.cons_append, List.dropLast_concat] at hlast
        have hshort : rest.length ≤ (inside ++ c :: rest).length := by
          rw [List.length_append, List.length_cons]
          omega
        exact (hbehind hshort hd (hrest hlast) halong).of_word hd (by simp [turn]) (hread words)
      by_cases hleft : c = '('
      · subst hleft
        have hfirm : Firm ⟨.leftParen, "("⟩ := firm_symbol rfl
        have hread : ∀ read [Cutting read], read ('(' :: cs ++ [';']) = _ :=
          fun read _ => hfirm.readsBy read (cs ++ [';']) fun _ _ => rfl
        have hrest : closesLast '(' none (d + 1) cs = true := by simpa [closesLast] using h
        have halong := (halong.of_word (hread (wordsFrom 0))).2
        exact (hbehind (Nat.le_refl _) (by omega) hrest halong).of_word hd rfl (hread words)
      by_cases hright : c = ')'
      · subst hright
        have hfirm : Firm ⟨.rightParen, ")"⟩ := firm_symbol rfl
        have hread : ∀ read [Cutting read], read (')' :: cs ++ [';']) = _ :=
          fun read _ => hfirm.readsBy read (cs ++ [';']) fun _ _ => rfl
        by_cases hdeep : d ≤ 1
        · have hnil : cs = [] := by simpa [closesLast, hdeep] using h
          subst hnil
          exact ⟨[⟨.rightParen, ")"⟩], rfl, by omega, trivial⟩
        · have hrest : closesLast ')' none (d - 1) cs = true := by
            simpa [closesLast, hdeep] using h
          have halong := (halong.of_word (hread (wordsFrom 0))).2
          refine (hbehind (Nat.le_refl _) (by omega) hrest halong).of_word hd ?_ (hread words)
          rw [turn_rightParen rfl]
          omega
      · have hc : isMark c = false := by
          simp [isMark, not_or.mp hquote, hleft, hright]
        have hcs : closesLast p none d cs = true := by
          rwa [← List.singleton_append, closesLast_plain (by simpa using hc)] at h
        exact staysWithin_unmarked hc hd hcs halong fun rest hle => hbehind hle hd

end InoBlocks
