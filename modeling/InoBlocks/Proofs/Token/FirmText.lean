import InoBlocks.Proofs.Token.Firm

/-!
# The spelling of firm words

How a firm word that is no operator is spelled: a literal between two quotes of one kind, a number
that begins with a digit, or a name.
-/

namespace InoBlocks

namespace Text

theorem not_isBlank_of_isNameChar {c : Char} (hc : isNameChar c = true) : isBlank c = false := by
  have hrange : 48 ≤ c.toNat ∧ c.toNat ≤ 122 := by
    rw [isNameChar_iff, isNameStart_iff, isDigit_iff] at hc
    omega
  simp only [isBlank, Bool.or_eq_false_iff, Bool.and_eq_false_iff, decide_eq_false_iff_not,
    beq_eq_false_iff_ne]
  omega

theorem trim_eq_self {cs : List Char} (h : ∀ c ∈ cs, isBlank c = false) : trim cs = cs := by
  have hstart : trimStart cs = cs := by
    cases cs with
    | nil => rfl
    | cons c cs =>
        rw [trimStart, List.dropWhile_cons, h c List.mem_cons_self, if_neg Bool.false_ne_true]
  rw [trim, hstart]
  clear hstart
  induction cs with
  | nil => rfl
  | cons c cs ih =>
      obtain ⟨hc, hcs⟩ := List.forall_mem_cons.mp h
      rw [trimEnd, ih hcs]
      cases cs <;> simp [hc]

theorem trimEnd_append_singleton (cs : List Char) {d : Char} (hd : isBlank d = false) :
    trimEnd (cs ++ [d]) = cs ++ [d] := by
  induction cs with
  | nil => simp [trimEnd, hd]
  | cons c cs ih =>
      rw [List.cons_append, trimEnd, ih]
      cases cs <;> rfl

/-- Blanks in front of a text that has none at its ends go when it is trimmed. -/
theorem trim_of_ends {gap l : List Char} (hgap : ∀ c ∈ gap, isBlank c = true)
    (hhead : ∃ c cs, l = c :: cs ∧ isBlank c = false)
    (hlast : ∃ cs c, l = cs ++ [c] ∧ isBlank c = false) : trim (gap ++ l) = l := by
  obtain ⟨c, cs, hl, hc⟩ := hhead
  obtain ⟨ds, d, hl', hd⟩ := hlast
  have hstart : trimStart (gap ++ l) = l := by
    rw [trimStart, List.dropWhile_append_of_pos hgap, hl,
      List.dropWhile_cons_of_neg (by simp [hc])]
  rw [trim, hstart, hl', trimEnd_append_singleton ds hd]

theorem trimmed_of_ends {text : String} (hhead : ∃ c cs, text.toList = c :: cs ∧ isBlank c = false)
    (hlast : ∃ cs c, text.toList = cs ++ [c] ∧ isBlank c = false) : trimmed text = text := by
  have htrim := trim_of_ends (List.forall_mem_nil _) hhead hlast
  rw [List.nil_append] at htrim
  rw [trimmed, htrim, String.ofList_toList]

end Text

namespace Token

theorem take_literalLength (quote : Char) (cs : List Char)
    (h : literalLength quote cs < cs.length) :
    ∃ inside, cs.take (literalLength quote cs) = inside ++ [quote] := by
  fun_induction literalLength quote cs with
  | case1 => simp at h
  | case2 => simp at h
  | case3 d cs ih =>
      obtain ⟨inside, hinside⟩ := ih (by simpa using h)
      exact ⟨'\\' :: d :: inside, by simp [hinside]⟩
  | case4 cs _ _ => exact ⟨[], by simp⟩
  | case5 c cs _ _ _ ih =>
      obtain ⟨inside, hinside⟩ := ih (by simpa using h)
      exact ⟨c :: inside, by simp [hinside]⟩

theorem isDigit_or_point_of_mem (pointed : Bool) (cs : List Char) :
    ∀ d ∈ cs.take (numberLength pointed cs), d.isDigit = true ∨ d = '.' := by
  fun_induction numberLength pointed cs with
  | case1 => simp
  | case2 pointed c cs hdigit ih => exact List.forall_mem_cons.mpr ⟨Or.inl hdigit, ih⟩
  | case3 pointed c cs hdigit hpoint ih =>
      simp only [Bool.and_eq_true, decide_eq_true_eq] at hpoint
      exact List.forall_mem_cons.mpr ⟨Or.inr hpoint.1, ih⟩
  | case4 => simp

theorem isDigit_or_point_of_numberLength {pointed : Bool} {cs : List Char}
    (h : numberLength pointed cs = cs.length) : ∀ c ∈ cs, c.isDigit = true ∨ c = '.' := by
  have hall := isDigit_or_point_of_mem pointed cs
  rwa [h, List.take_length] at hall

/-- Digits with no more points than a number may still have belong to the number. -/
theorem numberLength_eq_length {pointed : Bool} {cs : List Char}
    (hdigits : ∀ c ∈ cs, c.isDigit = true ∨ c = '.')
    (hpoints : cs.count '.' ≤ if pointed then 0 else 1) :
    numberLength pointed cs = cs.length := by
  fun_induction numberLength pointed cs with
  | case1 => rfl
  | case2 pointed c cs hdigit ih =>
      have hne : c ≠ '.' := by
        rintro rfl
        exact absurd hdigit (by decide)
      rw [ih (fun d hd => hdigits d (List.mem_cons_of_mem c hd))
        (by rwa [List.count_cons_of_ne hne] at hpoints), List.length_cons]
  | case3 pointed c cs hdigit hpoint ih =>
      simp only [Bool.and_eq_true, decide_eq_true_eq, Bool.not_eq_true'] at hpoint
      obtain ⟨rfl, rfl⟩ := hpoint
      rw [ih (fun d hd => hdigits d (List.mem_cons_of_mem _ hd))
        (by rw [List.count_cons_self] at hpoints; exact Nat.le_of_succ_le_succ hpoints),
        List.length_cons]
  | case4 pointed c cs hdigit hpoint =>
      exfalso
      obtain rfl : c = '.' := (hdigits c List.mem_cons_self).resolve_left hdigit
      rw [List.count_cons_self] at hpoints
      cases pointed <;> simp_all

/-- What a token is spelled with that is neither a comment nor a literal. -/
theorem chars_of_scan {c : Char} {cs : List Char} {kind : TokenKind} {more : Nat}
    (h : scan c cs = some (kind, more)) (hcomment : kind ≠ .comment)
    (hstring : kind ≠ .string) :
    (∀ d ∈ c :: cs.take more, Text.isNameChar d = true ∨ d = '.') ∨
      (opensComment (c :: cs) = false ∧
        kind.symbol? = some (String.ofList (c :: cs.take more))) := by
  rcases scan_cases h hcomment with ⟨-, hk, -⟩ | ⟨hc, -, rfl⟩ | ⟨hc, -, rfl⟩ | ⟨-, hopen, hop⟩
  · exact absurd hk hstring
  · refine Or.inl (List.forall_mem_cons.mpr ⟨Or.inl (Text.isNameChar_of_isDigit hc), ?_⟩)
    exact fun d hd => (isDigit_or_point_of_mem false cs d hd).imp_left Text.isNameChar_of_isDigit
  · refine Or.inl (List.forall_mem_cons.mpr ⟨Or.inl (Text.isNameChar_of_isNameStart hc), ?_⟩)
    rw [take_nameLength]
    exact fun d hd => Or.inl (List.all_eq_true.mp List.all_takeWhile d hd)
  · exact Or.inr ⟨hopen, symbol?_of_scanOperator hop⟩

end Token

namespace TokenKind

/-- The kind of a name is none that is read off its first character. -/
theorem ofWord_ne (word : String) : ofWord word ≠ .string ∧ ofWord word ≠ .number := by
  have hkeywords : ∀ entry ∈ keywords, entry.2 ≠ .string ∧ entry.2 ≠ .number := by decide
  rcases ofWord_cases word with h | ⟨entry, hentry, -, h⟩
  · rw [h]
    decide
  · rw [h]
    exact hkeywords entry hentry

end TokenKind

namespace Word

/-- Digits with at most one point behind the first of them are a word. -/
theorem firm_number_of_count {c : Char} {cs : List Char}
    (hdigits : ∀ d ∈ cs, d.isDigit = true ∨ d = '.') (hpoints : cs.count '.' ≤ 1)
    (hhead : cs.head? = some c) (hc : c.isDigit = true) : Firm ⟨.number, String.ofList cs⟩ := by
  obtain ⟨ds, rfl⟩ := List.head?_eq_some_iff.mp hhead
  have hcount : ds.count '.' ≤ 1 :=
    Nat.le_trans (List.Sublist.count_le '.' (List.sublist_cons_self c ds)) hpoints
  exact firm_number hc (Token.numberLength_eq_length (List.forall_mem_cons.mp hdigits).2 hcount)

theorem firm_ofWord {word : String} {kind : TokenKind} (hkind : TokenKind.ofWord word = kind)
    (hhead : word.toList.head?.any Text.isNameStart = true)
    (htail : word.toList.tail.all Text.isNameChar = true) : Word.Firm ⟨kind, word⟩ := by
  cases hchars : word.toList with
  | nil =>
      rw [hchars] at hhead
      cases hhead
  | cons c cs =>
      rw [hchars] at hhead htail
      have hfirm := Word.firm_name c cs hhead htail
      rwa [← hchars, String.ofList_toList, hkind] at hfirm

theorem Firm.text_cases {w : Word} (h : w.Firm) (hsymbol : w.kind.symbol? = none) :
    (w.kind = .string ∧ ∃ quote inside, (quote = '"' ∨ quote = '\'') ∧
      w.text.toList = quote :: inside ++ [quote]) ∨
    (w.kind = .number ∧ ∃ c cs, w.text.toList = c :: cs ∧ c.isDigit = true ∧
      Token.numberLength false cs = cs.length) ∨
    (w.kind = .ofWord w.text ∧ ∃ c cs, w.text.toList = c :: cs ∧ Text.isNameStart c = true ∧
      cs.all Text.isNameChar = true) := by
  have hall := h
  obtain ⟨c, cs, htext, -, hkind, hscan⟩ := hall
  have hself : Token.scan c cs = some (w.kind, cs.length) := by simpa using hscan [] (apart_nil _)
  have hlist : w.text.toList = c :: cs := by rw [htext, String.toList_ofList]
  rcases Token.scan_cases hself hkind with
    ⟨hquote, hk, -⟩ | ⟨hdigit, hk, hlen⟩ | ⟨hname, hk, hlen⟩ | ⟨-, -, hop⟩
  · have hmore := hscan ['x'] (by rw [hk]; exact apart_cons rfl [])
    rw [Token.scan_quote hquote, Option.some.injEq, Prod.mk.injEq] at hmore
    obtain ⟨inside, hinside⟩ := Token.take_literalLength c (cs ++ ['x'])
      (by rw [hmore.2]; simp)
    rw [hmore.2, List.take_left] at hinside
    exact Or.inl ⟨hk, c, inside, hquote, by rw [hlist, hinside]; rfl⟩
  · exact Or.inr (Or.inl ⟨hk, c, cs, hlist, hdigit, hlen.symm⟩)
  · refine Or.inr (Or.inr ⟨?_, c, cs, hlist, hname, ?_⟩)
    · rw [hk, List.take_length, ← htext]
    · have htake : cs.takeWhile Text.isNameChar = cs := by
        apply List.IsPrefix.eq_of_length (List.takeWhile_prefix _)
        exact hlen.symm
      rw [← htake]
      exact List.all_takeWhile
  · rw [Token.symbol?_of_scanOperator hop] at hsymbol
    cases hsymbol

/-- A firm word that is no operator neither begins nor ends with a blank, and does not begin like
an operator that others run on into. -/
theorem Firm.ends {w : Word} (h : w.Firm) (hsymbol : w.kind.symbol? = none) :
    (∃ c cs, w.text.toList = c :: cs ∧ c ≠ '=' ∧ Text.isBlank c = false) ∧
    (∃ cs d, w.text.toList = cs ++ [d] ∧ Text.isBlank d = false) := by
  have hlast : ∀ {c : Char} {cs : List Char}, w.text.toList = c :: cs →
      (∀ d ∈ c :: cs, Text.isBlank d = false) →
      ∃ cs d, w.text.toList = cs ++ [d] ∧ Text.isBlank d = false := by
    intro c cs htext hblank
    have hne : c :: cs ≠ [] := List.cons_ne_nil c cs
    exact ⟨(c :: cs).dropLast, (c :: cs).getLast hne,
      by rw [htext, List.dropLast_concat_getLast hne], hblank _ (List.getLast_mem hne)⟩
  have hequals : ∀ {c : Char}, Text.isNameChar c = true → c ≠ '=' := by
    rintro c hc rfl
    exact absurd hc (by decide)
  rcases h.text_cases hsymbol with ⟨-, quote, inside, hquote, htext⟩ | ⟨-, c, cs, htext, hc, hlen⟩ |
    ⟨-, c, cs, htext, hc, hcs⟩
  · have hblank : Text.isBlank quote = false := by
      rcases hquote with rfl | rfl <;> decide
    have hne : quote ≠ '=' := by
      rcases hquote with rfl | rfl <;> decide
    exact ⟨⟨quote, _, htext, hne, hblank⟩, ⟨quote :: inside, quote, htext, hblank⟩⟩
  · have hname := Text.isNameChar_of_isDigit hc
    refine ⟨⟨c, cs, htext, hequals hname, Text.not_isBlank_of_isNameChar hname⟩,
      hlast htext fun d hd => ?_⟩
    rcases List.mem_cons.mp hd with rfl | hd
    · exact Text.not_isBlank_of_isNameChar hname
    · rcases Token.isDigit_or_point_of_numberLength hlen d hd with hdigit | rfl
      · exact Text.not_isBlank_of_isNameChar (Text.isNameChar_of_isDigit hdigit)
      · decide
  · have hname := Text.isNameChar_of_isNameStart hc
    refine ⟨⟨c, cs, htext, hequals hname, Text.not_isBlank_of_isNameChar hname⟩,
      hlast htext fun d hd => ?_⟩
    rcases List.mem_cons.mp hd with rfl | hd
    · exact Text.not_isBlank_of_isNameChar hname
    · exact Text.not_isBlank_of_isNameChar (List.all_eq_true.mp hcs d hd)

end Word

end InoBlocks
