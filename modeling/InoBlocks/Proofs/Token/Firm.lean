import InoBlocks.Proofs.Text.Ascii
import InoBlocks.Proofs.Token.Word

/-!
# Firm words

A word is firm if it is cut again, as it is, in front of every text that does not run on from
it.  Every word that the lexer cuts is firm, but for a literal that is not closed: and that one
is the last of its text.
-/

namespace InoBlocks

namespace TokenKind

/-- The characters that a token of some kind would take in if they came right after it. -/
def runsOn : TokenKind → Char → Bool
  | number, d => d.isDigit || d == '.'
  | plus, d => d == '+' || d == '='
  | minus, d => d == '-'
  | divide, d => d == '/' || d == '*'
  | assign, d | lessThan, d | greaterThan, d | logicalNot, d => d == '='
  | string, _ | plusAssign, _ | multiply, _ | modulo, _ | increment, _ | decrement, _ | equal, _
  | notEqual, _ | lessEqual, _ | greaterEqual, _ | logicalAnd, _ | logicalOr, _ | semicolon, _
  | comma, _ | dot, _ | leftParen, _ | rightParen, _ | leftBrace, _ | rightBrace, _ => false
  | comment, _ | endOfInput, _ => true
  | _, d => Text.isNameChar d

/-- An operator of one character runs on into those that would make a pair of it. -/
theorem runsOn_of_ofPair? {c d : Char} {kind kind' : TokenKind} (hc : ofChar? c = some kind)
    (hpair : ofPair? c d = some kind') : kind.runsOn d = true := by
  unfold ofPair? at hpair
  split at hpair <;> simp_all [ofChar?] <;> subst hc <;> rfl

def symbol? : TokenKind → Option String
  | assign => some "="
  | plusAssign => some "+="
  | plus => some "+"
  | minus => some "-"
  | multiply => some "*"
  | divide => some "/"
  | modulo => some "%"
  | increment => some "++"
  | decrement => some "--"
  | equal => some "=="
  | notEqual => some "!="
  | lessThan => some "<"
  | lessEqual => some "<="
  | greaterThan => some ">"
  | greaterEqual => some ">="
  | logicalAnd => some "&&"
  | logicalOr => some "||"
  | logicalNot => some "!"
  | semicolon => some ";"
  | comma => some ","
  | dot => some "."
  | leftParen => some "("
  | rightParen => some ")"
  | leftBrace => some "\x7b"
  | rightBrace => some "\x7d"
  | _ => none

theorem symbol?_of_ofChar? {c : Char} {kind : TokenKind} (h : ofChar? c = some kind) :
    kind.symbol? = some (String.ofList [c]) := by
  unfold ofChar? at h
  split at h <;> simp_all <;> subst h <;> rfl

theorem symbol?_of_ofPair? {c d : Char} {kind : TokenKind} (h : ofPair? c d = some kind) :
    kind.symbol? = some (String.ofList [c, d]) := by
  unfold ofPair? at h
  split at h <;> simp_all <;> subst h <;> rfl

/-- What a word can be: a name, or one of the keywords. -/
theorem ofWord_cases (word : String) :
    ofWord word = identifier ∨ ∃ entry ∈ keywords, entry.1 = word ∧ ofWord word = entry.2 := by
  unfold ofWord
  cases hlook : keywords.lookup word with
  | none => exact Or.inl rfl
  | some kind =>
      obtain ⟨before, after, hsplit, -⟩ := List.lookup_eq_some_iff.mp hlook
      exact Or.inr ⟨(word, kind), by simp [hsplit], rfl, rfl⟩

theorem symbol?_ofWord (word : String) : (ofWord word).symbol? = none := by
  have hkeys : ∀ entry ∈ keywords, entry.2.symbol? = none := by decide
  rcases ofWord_cases word with h | ⟨entry, hmem, -, h⟩
  · rw [h]
    rfl
  · rw [h, hkeys entry hmem]

/-- A word's kind runs on into the characters of names. -/
theorem runsOn_ofWord (word : String) : (ofWord word).runsOn = Text.isNameChar := by
  have hkeys : ∀ entry ∈ keywords, entry.2.runsOn = Text.isNameChar := by
    intro entry hmem
    simp only [keywords, List.mem_cons, List.not_mem_nil, or_false] at hmem
    rcases hmem with h | h | h | h | h | h | h | h | h | h | h | h | h | h | h | h | h | h | h | h |
      h <;> subst h <;> rfl
  rcases ofWord_cases word with h | ⟨entry, hmem, -, h⟩
  · rw [h]
    rfl
  · rw [h, hkeys entry hmem]

theorem ofWord_ne_comment (word : String) : ofWord word ≠ comment := by
  intro hkind
  have hruns := runsOn_ofWord word
  rw [hkind] at hruns
  exact absurd (congrFun hruns ' ') (by decide)

end TokenKind

namespace Token

/-! ## The rules of the lexer, one by one -/

def opensComment : List Char → Bool
  | '/' :: d :: _ => d == '/' || d == '*'
  | _ => false

theorem scan_of_not_opensComment {c : Char} {cs : List Char}
    (h : opensComment (c :: cs) = false) :
    scan c cs =
      if c = '"' || c = '\'' then some (.string, literalLength c cs)
      else if c.isDigit then some (.number, numberLength false cs)
      else if Text.isNameStart c then
        some (.ofWord (String.ofList (c :: cs.take (nameLength cs))), nameLength cs)
      else scanOperator c cs := by
  unfold scan
  split
  · simp [opensComment] at h
  · simp [opensComment] at h
  · rfl

theorem opensComment_of_ne {c : Char} (hc : c ≠ '/') (cs : List Char) :
    opensComment (c :: cs) = false := by
  unfold opensComment
  split
  · rename_i heq
    exact absurd (List.cons.inj heq).1 hc
  · rfl

theorem scan_quote {c : Char} (hc : c = '"' ∨ c = '\'') (cs : List Char) :
    scan c cs = some (.string, literalLength c cs) := by
  have hslash : c ≠ '/' := by
    rcases hc with rfl | rfl <;> decide
  rw [scan_of_not_opensComment (opensComment_of_ne hslash cs), if_pos (by simpa using hc)]

theorem scan_digit {c : Char} (hc : c.isDigit = true) (cs : List Char) :
    scan c cs = some (.number, numberLength false cs) := by
  have hquote : ¬ (c = '"' ∨ c = '\'') := by
    rintro (rfl | rfl) <;> exact absurd hc (by decide)
  have hslash : c ≠ '/' := by
    rintro rfl
    exact absurd hc (by decide)
  rw [scan_of_not_opensComment (opensComment_of_ne hslash cs), if_neg (by simpa using hquote),
    if_pos hc]

theorem scan_nameStart {c : Char} (hc : Text.isNameStart c = true) (cs : List Char) :
    scan c cs =
      some (.ofWord (String.ofList (c :: cs.take (nameLength cs))), nameLength cs) := by
  have hquote : ¬ (c = '"' ∨ c = '\'') := by
    rintro (rfl | rfl) <;> exact absurd hc (by decide)
  have hslash : c ≠ '/' := by
    rintro rfl
    exact absurd hc (by decide)
  have hdigit : ¬ c.isDigit = true := by
    intro hd
    rw [Text.not_isNameStart_of_isDigit hd] at hc
    exact Bool.false_ne_true hc
  rw [scan_of_not_opensComment (opensComment_of_ne hslash cs), if_neg (by simpa using hquote),
    if_neg hdigit, if_pos hc]

/-- The characters at which neither a literal nor a number nor a name begins. -/
def isOther (c : Char) : Bool :=
  !(c == '"' || c == '\'' || c.isDigit || Text.isNameStart c)

theorem scan_other {c : Char} {cs : List Char} (hc : isOther c = true)
    (h : opensComment (c :: cs) = false) : scan c cs = scanOperator c cs := by
  simp only [isOther, Bool.not_eq_true', Bool.or_eq_false_iff, beq_eq_false_iff_ne] at hc
  obtain ⟨⟨⟨hdouble, hsingle⟩, hdigit⟩, hname⟩ := hc
  rw [scan_of_not_opensComment h]
  simp [hdouble, hsingle, hdigit, hname]

/-- A character at which some token begins that is no comment: what rule cuts it. -/
theorem scan_cases {c : Char} {cs : List Char} {kind : TokenKind} {more : Nat}
    (h : scan c cs = some (kind, more)) (hkind : kind ≠ .comment) :
    ((c = '"' ∨ c = '\'') ∧ kind = .string ∧ more = literalLength c cs) ∨
    (c.isDigit = true ∧ kind = .number ∧ more = numberLength false cs) ∨
    (Text.isNameStart c = true ∧ kind = .ofWord (String.ofList (c :: cs.take more)) ∧
      more = nameLength cs) ∨
    (isOther c = true ∧ opensComment (c :: cs) = false ∧
      scanOperator c cs = some (kind, more)) := by
  by_cases hquote : c = '"' ∨ c = '\''
  · rw [scan_quote hquote] at h
    simp only [Option.some.injEq, Prod.mk.injEq] at h
    exact Or.inl ⟨hquote, h.1.symm, h.2.symm⟩
  · by_cases hdigit : c.isDigit = true
    · rw [scan_digit hdigit] at h
      simp only [Option.some.injEq, Prod.mk.injEq] at h
      exact Or.inr (Or.inl ⟨hdigit, h.1.symm, h.2.symm⟩)
    · by_cases hname : Text.isNameStart c = true
      · rw [scan_nameStart hname] at h
        simp only [Option.some.injEq, Prod.mk.injEq] at h
        obtain ⟨hk, hm⟩ := h
        exact Or.inr (Or.inr (Or.inl ⟨hname, by rw [← hm, hk], hm.symm⟩))
      · have hother : isOther c = true := by
          simp only [isOther, Bool.not_eq_true', Bool.or_eq_false_iff, beq_eq_false_iff_ne]
          refine ⟨⟨?_, ?_⟩, ?_⟩
          · exact not_or.mp hquote
          · exact Bool.eq_false_iff.mpr hdigit
          · exact Bool.eq_false_iff.mpr hname
        have hopen : opensComment (c :: cs) = false := by
          unfold scan at h
          split at h
          · simp only [Option.some.injEq, Prod.mk.injEq] at h
            exact absurd h.1.symm hkind
          · simp only [Option.some.injEq, Prod.mk.injEq] at h
            exact absurd h.1.symm hkind
          · rename_i hline hblock
            cases hcs : opensComment (c :: cs) with
            | false => rfl
            | true =>
                unfold opensComment at hcs
                split at hcs
                · rename_i d rest heq
                  obtain ⟨hc, hcs'⟩ := List.cons.inj heq
                  simp only [Bool.or_eq_true, beq_iff_eq] at hcs
                  rcases hcs with hd | hd
                  · exact (hline rest hc (by rw [hcs', hd])).elim
                  · exact (hblock rest hc (by rw [hcs', hd])).elim
                · exact absurd hcs (by decide)
        rw [scan_other hother hopen] at h
        exact Or.inr (Or.inr (Or.inr ⟨hother, hopen, h⟩))

/-! ## What stands behind a token does not change it -/

theorem literalLength_cons {quote c : Char} (hc : c ≠ '\\') (cs : List Char) :
    literalLength quote (c :: cs) = if c = quote then 1 else literalLength quote cs + 1 := by
  conv => lhs; unfold literalLength
  split
  · rename_i heq
    exact absurd heq (by simp)
  · rename_i heq
    exact absurd (List.cons.inj heq).1 hc
  · rename_i heq
    exact absurd (List.cons.inj heq).1 hc
  · rename_i heq
    obtain ⟨rfl, rfl⟩ := List.cons.inj heq
    rfl

theorem literalLength_le (quote : Char) (cs : List Char) : literalLength quote cs ≤ cs.length := by
  fun_induction literalLength quote cs with
  | case1 => simp
  | case2 => simp
  | case3 d cs ih => simpa using ih
  | case4 cs _ _ => simp
  | case5 c cs _ _ _ ih => simpa using ih

/-- A text that neither rule for a backslash fits does not begin with one. -/
theorem ne_backslash {c : Char} {cs : List Char} (hsingle : c = '\\' → cs = [] → False)
    (hpair : ∀ d ds, c = '\\' → cs = d :: ds → False) : c ≠ '\\' := by
  intro hc
  cases cs with
  | nil => exact hsingle hc rfl
  | cons d ds => exact hpair d ds hc rfl

/-- A literal that closes is as long in front of any other text. -/
theorem literalLength_take {quote : Char} {cs : List Char}
    (h : literalLength quote cs < cs.length) (rest : List Char) :
    literalLength quote (cs.take (literalLength quote cs) ++ rest) = literalLength quote cs := by
  fun_induction literalLength quote cs with
  | case1 => simp at h
  | case2 => simp at h
  | case3 d cs ih =>
      have hlt : literalLength quote cs < cs.length := by simpa using h
      simp [literalLength, ih hlt]
  | case4 cs hsingle hpair =>
      have hc := ne_backslash hsingle hpair
      simp [literalLength_cons hc]
  | case5 c cs hsingle hpair hne ih =>
      have hlt : literalLength quote cs < cs.length := by simpa using h
      have hc := ne_backslash hsingle hpair
      simp [literalLength_cons hc, hne, ih hlt]

theorem numberLength_le (pointed : Bool) (cs : List Char) :
    numberLength pointed cs ≤ cs.length := by
  fun_induction numberLength pointed cs with
  | case1 => simp
  | case2 => simpa
  | case3 => simpa
  | case4 => simp

/-- A number is as long in front of any text that begins with neither a digit nor a point. -/
theorem numberLength_take (pointed : Bool) (cs : List Char) {rest : List Char}
    (hrest : Word.Apart TokenKind.number.runsOn rest) :
    numberLength pointed (cs.take (numberLength pointed cs) ++ rest) =
      numberLength pointed cs := by
  have hstop : ∀ p, numberLength p rest = 0 := by
    intro p
    cases rest with
    | nil => rfl
    | cons d ds =>
        have hd := hrest d rfl
        simp only [TokenKind.runsOn, Bool.or_eq_false_iff, beq_eq_false_iff_ne] at hd
        simp [numberLength, hd.1, hd.2]
  fun_induction numberLength pointed cs with
  | case1 => simp [hstop]
  | case2 pointed c cs hdigit ih => simp [numberLength, hdigit, ih]
  | case3 pointed c cs hdigit hpoint ih => simp [numberLength, hdigit, hpoint, ih]
  | case4 => simp [hstop]

theorem nameLength_le (cs : List Char) : nameLength cs ≤ cs.length :=
  (List.takeWhile_prefix _).length_le

theorem take_nameLength (cs : List Char) :
    cs.take (nameLength cs) = cs.takeWhile Text.isNameChar :=
  (List.prefix_iff_eq_take.mp (List.takeWhile_prefix _)).symm

/-- A name is as long in front of any text that does not begin with a name's character. -/
theorem nameLength_take (cs : List Char) {rest : List Char}
    (hrest : Word.Apart Text.isNameChar rest) :
    nameLength (cs.take (nameLength cs) ++ rest) = nameLength cs := by
  have hstop : rest.takeWhile Text.isNameChar = [] := by
    cases rest with
    | nil => rfl
    | cons d ds => simp [hrest d rfl]
  have hall : ∀ a ∈ cs.takeWhile Text.isNameChar, Text.isNameChar a = true := by
    simpa only [List.all_eq_true] using List.all_takeWhile
  rw [take_nameLength, nameLength, List.takeWhile_append_of_pos hall, hstop, List.append_nil,
    nameLength]

/-- An operator is spelled with the characters that it takes. -/
theorem symbol?_of_scanOperator {c : Char} {cs : List Char} {kind : TokenKind} {more : Nat}
    (h : scanOperator c cs = some (kind, more)) :
    kind.symbol? = some (String.ofList (c :: cs.take more)) := by
  unfold scanOperator at h
  split at h
  · rename_i pair hpair
    obtain ⟨rfl, rfl⟩ := Prod.mk.inj (Option.some.inj h)
    cases cs with
    | nil => cases hpair
    | cons d ds => exact TokenKind.symbol?_of_ofPair? (by simpa using hpair)
  · simp only [Option.map_eq_some_iff, Prod.mk.injEq] at h
    obtain ⟨single, hsingle, rfl, rfl⟩ := h
    exact TokenKind.symbol?_of_ofChar? hsingle

/-- An operator is the same in front of any text that does not make a longer one of it. -/
theorem scanOperator_take {c : Char} {cs : List Char} {kind : TokenKind} {more : Nat}
    (h : scanOperator c cs = some (kind, more)) {rest : List Char}
    (hrest : Word.Apart kind.runsOn rest) :
    scanOperator c (cs.take more ++ rest) = some (kind, more) := by
  unfold scanOperator at h
  split at h
  · rename_i pair hpair
    simp only [Option.some.injEq, Prod.mk.injEq] at h
    obtain ⟨rfl, rfl⟩ := h
    cases cs with
    | nil => simp at hpair
    | cons d ds =>
        simp only [List.head?_cons, Option.bind_some] at hpair
        simp [scanOperator, hpair]
  · simp only [Option.map_eq_some_iff, Prod.mk.injEq] at h
    obtain ⟨single, hsingle, rfl, rfl⟩ := h
    have hnone : rest.head?.bind (TokenKind.ofPair? c) = none := by
      cases rest with
      | nil => rfl
      | cons d ds =>
          cases hp : TokenKind.ofPair? c d with
          | none => simpa using hp
          | some kind' =>
              have := hrest d rfl
              rw [TokenKind.runsOn_of_ofPair? hsingle hp] at this
              cases this
    simp [scanOperator, hnone, hsingle]

theorem opensComment_take {c : Char} {cs : List Char} {kind : TokenKind} {more : Nat}
    (h : scanOperator c cs = some (kind, more)) {rest : List Char}
    (hrest : Word.Apart kind.runsOn rest) :
    opensComment (c :: (cs.take more ++ rest)) = false := by
  by_cases hc : c = '/'
  · subst hc
    have hdivide : kind = .divide ∧ more = 0 := by
      unfold scanOperator at h
      cases cs with
      | nil => simpa [TokenKind.ofChar?, eq_comm] using h
      | cons d ds =>
          have hpair : TokenKind.ofPair? '/' d = none := by
            unfold TokenKind.ofPair?
            split <;> simp_all
          simpa [hpair, TokenKind.ofChar?, eq_comm] using h
    obtain ⟨rfl, rfl⟩ := hdivide
    cases rest with
    | nil => rfl
    | cons d ds => simpa [opensComment, TokenKind.runsOn] using hrest d rfl
  · exact opensComment_of_ne hc _

theorem scan_le {c : Char} {cs : List Char} {kind : TokenKind} {more : Nat}
    (h : scan c cs = some (kind, more)) (hkind : kind ≠ .comment) : more ≤ cs.length := by
  rcases scan_cases h hkind with ⟨-, -, rfl⟩ | ⟨-, -, rfl⟩ | ⟨-, -, rfl⟩ | ⟨-, -, hop⟩
  · exact literalLength_le c cs
  · exact numberLength_le false cs
  · exact nameLength_le cs
  · unfold scanOperator at hop
    split at hop
    · cases cs with
      | nil => simp_all
      | cons d ds => simp_all
    · simp only [Option.map_eq_some_iff, Prod.mk.injEq] at hop
      obtain ⟨-, -, -, rfl⟩ := hop
      exact Nat.zero_le _

/-- A token that does not end its text, or that is no literal, is cut again in front of every
text that it does not run on into. -/
theorem scan_take {c : Char} {cs : List Char} {kind : TokenKind} {more : Nat}
    (h : scan c cs = some (kind, more)) (hkind : kind ≠ .comment)
    (hclosed : kind = .string → more < cs.length) {rest : List Char}
    (hrest : Word.Apart kind.runsOn rest) :
    scan c (cs.take more ++ rest) = some (kind, more) := by
  rcases scan_cases h hkind with ⟨hc, rfl, rfl⟩ | ⟨hc, rfl, rfl⟩ | ⟨hc, hk, rfl⟩ | ⟨hc, -, hop⟩
  · rw [scan_quote hc, literalLength_take (hclosed rfl)]
  · rw [scan_digit hc, numberLength_take false cs hrest]
  · have happ : Word.Apart Text.isNameChar rest := by
      rw [hk, TokenKind.runsOn_ofWord] at hrest
      exact hrest
    rw [scan_nameStart hc, nameLength_take cs happ]
    have hlen : (cs.take (nameLength cs)).length = nameLength cs := by
      rw [List.length_take, Nat.min_eq_left (nameLength_le cs)]
    rw [List.take_append_of_le_length (by omega), List.take_of_length_le (by omega), ← hk]
  · rw [scan_other hc (opensComment_take hop hrest), scanOperator_take hop hrest]

end Token

namespace Word

/-- A word is cut again, as it is, in front of every text that does not run on from it. -/
def Firm (w : Word) : Prop :=
  ∃ c cs, w.text = String.ofList (c :: cs) ∧ Token.isLayout c = false ∧ w.kind ≠ .comment ∧
    ∀ rest, Apart w.kind.runsOn rest → Token.scan c (cs ++ rest) = some (w.kind, cs.length)

theorem Firm.readsBy {w : Word} (h : w.Firm) (read : List Char → List Word) [Cutting read] :
    ReadsBy read w.text.toList [w] w.kind.runsOn := by
  obtain ⟨c, cs, htext, hc, hkind, hscan⟩ := h
  intro rest hrest
  have hcut : read (c :: (cs ++ rest)) = _ := Cutting.scan hc (hscan rest hrest) hkind
  rw [htext, String.toList_ofList, List.cons_append, hcut]
  simp [← htext]

theorem Firm.readsAs {w : Word} (h : w.Firm) : ReadsAs w.text.toList [w] w.kind.runsOn :=
  h.readsBy words

/-- A token that is cut off the front of a text is firm, unless it is a literal up to the end of
the text. -/
theorem firm_of_scan {c : Char} {cs : List Char} {kind : TokenKind} {more : Nat}
    (hc : Token.isLayout c = false) (h : Token.scan c cs = some (kind, more))
    (hkind : kind ≠ .comment) (hclosed : kind = .string → more < cs.length) :
    Firm ⟨kind, String.ofList (c :: cs.take more)⟩ := by
  refine ⟨c, cs.take more, rfl, hc, hkind, ?_⟩
  intro rest hrest
  rw [Token.scan_take h hkind hclosed hrest, List.length_take,
    Nat.min_eq_left (Token.scan_le h hkind)]

theorem firm_symbol {kind : TokenKind} {text : String} (h : kind.symbol? = some text) :
    Firm ⟨kind, text⟩ := by
  have single : ∀ {c : Char} {k : TokenKind}, Token.isLayout c = false →
      Token.scan c [] = some (k, 0) → k ≠ .comment → k ≠ .string → Firm ⟨k, String.ofList [c]⟩ :=
    fun hc hscan hcomment hstring =>
      firm_of_scan hc hscan hcomment fun hk => absurd hk hstring
  have double : ∀ {c d : Char} {k : TokenKind}, Token.isLayout c = false →
      Token.scan c [d] = some (k, 1) → k ≠ .comment → k ≠ .string →
      Firm ⟨k, String.ofList [c, d]⟩ :=
    fun hc hscan hcomment hstring =>
      firm_of_scan hc hscan hcomment fun hk => absurd hk hstring
  cases kind <;> simp only [TokenKind.symbol?, Option.some.injEq, reduceCtorEq] at h <;> subst h <;>
    first
    | exact single (by decide) rfl (by decide) (by decide)
    | exact double (by decide) rfl (by decide) (by decide)

theorem firm_name (c : Char) (cs : List Char) (hc : Text.isNameStart c = true)
    (hcs : cs.all Text.isNameChar = true) :
    Firm ⟨.ofWord (String.ofList (c :: cs)), String.ofList (c :: cs)⟩ := by
  have hlen : Token.nameLength cs = cs.length := by
    have htake : cs.takeWhile Text.isNameChar = cs := by
      have happend : (cs ++ []).takeWhile Text.isNameChar = cs ++ [] :=
        List.takeWhile_append_of_pos (List.all_eq_true.mp hcs)
      simpa using happend
    rw [Token.nameLength, htake]
  have hscan := Token.scan_nameStart hc cs
  rw [hlen, List.take_length] at hscan
  have hlay := Text.not_isLayout_of_isNameChar (Text.isNameChar_of_isNameStart hc)
  have hsymbol := TokenKind.symbol?_ofWord (String.ofList (c :: cs))
  have hruns := TokenKind.runsOn_ofWord (String.ofList (c :: cs))
  have hfirm := firm_of_scan hlay hscan (TokenKind.ofWord_ne_comment _)
    (by
      intro hk
      rw [hk] at hruns
      exact absurd (congrFun hruns 'a') (by decide))
  rwa [List.take_length] at hfirm

/-- A number of digits with at most one point among them is firm. -/
theorem firm_number {c : Char} {cs : List Char} (hc : c.isDigit = true)
    (hcs : Token.numberLength false cs = cs.length) : Firm ⟨.number, String.ofList (c :: cs)⟩ := by
  have hscan := Token.scan_digit hc cs
  rw [hcs] at hscan
  have hlay := Text.not_isLayout_of_isNameChar (Text.isNameChar_of_isDigit hc)
  have hfirm := firm_of_scan hlay hscan (by decide) fun hk => absurd hk (by decide)
  rwa [List.take_length] at hfirm

def Lexed (w : Word) : Prop :=
  ∃ c cs, w.text = String.ofList (c :: cs) ∧ Token.isLayout c = false ∧ w.kind ≠ .comment ∧
    Token.scan c cs = some (w.kind, cs.length)

/-- How a firm word is cut when nothing comes after it. -/
theorem Firm.lexed {w : Word} (h : w.Firm) : w.Lexed := by
  obtain ⟨c, cs, htext, hc, hkind, hscan⟩ := h
  exact ⟨c, cs, htext, hc, hkind, by simpa using hscan [] (apart_nil _)⟩

theorem Lexed.text_eq {w : Word} (h : w.Lexed) {text : String}
    (hsymbol : w.kind.symbol? = some text) : w.text = text := by
  obtain ⟨c, cs, htext, -, hkind, hscan⟩ := h
  have hnone : ∀ {k : TokenKind}, w.kind = k → k.symbol? = none → False := by
    intro k hk hn
    rw [hk, hn] at hsymbol
    cases hsymbol
  rcases Token.scan_cases hscan hkind with ⟨-, hk, -⟩ | ⟨-, hk, -⟩ | ⟨-, hk, -⟩ | ⟨-, -, hop⟩
  · exact (hnone hk rfl).elim
  · exact (hnone hk rfl).elim
  · exact (hnone hk (TokenKind.symbol?_ofWord _)).elim
  · have hs := Token.symbol?_of_scanOperator hop
    rw [List.take_length] at hs
    rw [htext, ← Option.some.inj (hs.symm.trans hsymbol)]

/-- Of the words that are cut as they are, only literals may be open. -/
theorem Lexed.firm {w : Word} (h : w.Lexed) (hstring : w.kind ≠ .string) : w.Firm := by
  obtain ⟨kind, text⟩ := w
  obtain ⟨c, cs, rfl, hc, hkind, hscan⟩ := h
  have hfirm := firm_of_scan hc hscan hkind fun hk => absurd hk hstring
  rwa [List.take_length] at hfirm

end Word

namespace Token

/-! ## The tokens of a text are firm, all but perhaps the last -/

/-- Every token that another one follows, the end mark aside, is a firm word. -/
def Steady (ts : List Token) : Prop :=
  ts.Pairwise fun t u => t.kind ≠ .comment → u.kind ≠ .endOfInput → t.word.Firm

theorem tokensFrom_of_length_le (file : String) (p : Cursor) {skip : Nat} {cs : List Char}
    (h : cs.length ≤ skip) : ∃ q, tokensFrom file true p skip cs = [endAt q file] := by
  induction cs generalizing p skip with
  | nil => exact ⟨p, rfl⟩
  | cons c cs ih =>
      cases skip with
      | zero => simp at h
      | succ skip => exact ih (p.advance c) (by simpa using h)

theorem steady_tokensFrom (file : String) (p : Cursor) (skip : Nat) (cs : List Char) :
    Steady (tokensFrom file true p skip cs) := by
  induction cs generalizing p skip with
  | nil => exact List.pairwise_singleton _ _
  | cons c cs ih =>
      cases skip with
      | succ skip => exact ih _ _
      | zero =>
          simp only [tokensFrom, Bool.true_or, ↓reduceIte]
          cases hlay : isLayout c with
          | true => exact ih _ _
          | false =>
              cases hscan : scan c cs with
              | none => exact ih _ _
              | some cut =>
                  obtain ⟨kind, more⟩ := cut
                  refine List.pairwise_cons.mpr ⟨?_, ih _ _⟩
                  intro u hu hkind huend
                  by_cases hclosed : kind = .string → more < cs.length
                  · exact Word.firm_of_scan hlay hscan hkind hclosed
                  · -- An open literal takes in the rest of the text.
                    have hall : cs.length ≤ more :=
                      Nat.le_of_not_lt fun hlt => hclosed fun _ => hlt
                    obtain ⟨q, hq⟩ := tokensFrom_of_length_le file (p.advance c) hall
                    rw [hq, List.mem_singleton] at hu
                    exact absurd (congrArg Token.kind hu) huend

theorem steady_significant (source file : String) : Steady (significant source file) := by
  rw [significant_eq_filter]
  exact (steady_tokensFrom file .start 0 source.toList).filter _

theorem Steady.suffix {ts us : List Token} (h : Steady ts) (hsuffix : us <:+ ts) : Steady us :=
  List.Pairwise.sublist hsuffix.sublist h

/-- What is read in front of a token that is not the end mark is firm. -/
theorem Steady.firm {us rest : List Token} (h : Steady (us ++ rest)) {u : Token}
    (hu : u ∈ rest) (huend : u.kind ≠ .endOfInput) {t : Token} (ht : t ∈ us)
    (hcomment : t.kind ≠ .comment) : t.word.Firm :=
  (List.pairwise_append.mp h).2.2 t ht u hu hcomment huend

end Token

end InoBlocks
