import InoBlocks.Proofs.Sketch.Enclosed
import InoBlocks.Proofs.Skim.PlainFunctions
import InoBlocks.Proofs.Token.Places
import InoBlocks.Proofs.Token.Respacing
import InoBlocks.Skim.Body

/-!
# The bodies of functions, by braces alone

A scan of the text looks for the brace that closes a body, and keeps out of literals as the lexer
does.  So it finds the brace that the tokens have there, as long as no comment on the way throws
it off.
-/

namespace InoBlocks

namespace Skim

open Text Token Plain

/-! ## What a scan for a brace passes over -/

def isUnbraced (c : Char) : Bool :=
  !(c == '"' || c == '\'' || c == '{' || c == '}')

theorem isUnbraced_iff {c : Char} :
    isUnbraced c = true ↔ c ≠ '"' ∧ c ≠ '\'' ∧ c ≠ '{' ∧ c ≠ '}' := by
  simp [isUnbraced, and_assoc]

section Scan

variable {offset : Nat}

theorem closingFrom?_unbraced {c : Char} (h : isUnbraced c = true) (depth : Int)
    (rest : List Char) : closingFrom? braces offset depth none (c :: rest) =
      closingFrom? braces (offset + 1) depth none rest := by
  obtain ⟨hdouble, hsingle, hleft, hright⟩ := isUnbraced_iff.mp h
  exact closingFrom?_passes ⟨hdouble, hsingle⟩ (by simp [braces, hleft.symm])
    (by simp [braces, hright.symm]) rest

theorem evens_of_unbraced {cs : List Char} (h : ∀ c ∈ cs, isUnbraced c = true) :
    Evens braces cs := by
  induction cs with
  | nil => exact fun _ _ _ _ => rfl
  | cons c cs ih =>
      obtain ⟨hc, hcs⟩ := List.forall_mem_cons.mp h
      intro offset depth rest hdepth
      rw [List.cons_append, closingFrom?_unbraced hc, ih hcs _ _ _ hdepth, List.length_cons,
        Nat.add_assoc, Nat.add_comm 1]

theorem closingFrom?_inside {b : Brackets} {quote c : Char} {depth : Int} (hc : c ≠ '\\')
    (cs : List Char) : closingFrom? b offset depth (some quote) (c :: cs) =
      closingFrom? b (offset + 1) depth (if c == quote then none else some quote) cs := by
  rw [closingFrom?.eq_def]
  exact if_neg (by simpa using hc)

/-- A literal ends for the scan where it ends for the lexer. -/
theorem closingFrom?_literal (b : Brackets) (offset : Nat) (depth : Int) (quote : Char)
    (cs : List Char) : closingFrom? b offset depth (some quote) cs =
      closingFrom? b (offset + literalLength quote cs) depth none
        (cs.drop (literalLength quote cs)) := by
  fun_induction literalLength quote cs generalizing offset with
  | case1 => rfl
  | case2 => rfl
  | case3 d cs ih =>
      rw [closingFrom?, if_pos (by rfl)]
      exact (ih (offset + 2)).trans (by rw [Nat.add_assoc, Nat.add_comm 2]; rfl)
  | case4 cs hsingle hpair =>
      rw [closingFrom?_inside (ne_backslash hsingle hpair), if_pos (by simp)]
      rfl
  | case5 c cs hsingle hpair hne ih =>
      rw [closingFrom?_inside (ne_backslash hsingle hpair), if_neg (by simpa using hne), ih,
        Nat.add_assoc, Nat.add_comm 1]
      rfl

theorem evens_append {b : Brackets} {cs ds : List Char} (h : Evens b cs) (h' : Evens b ds) :
    Evens b (cs ++ ds) := by
  intro offset depth rest hdepth
  rw [List.append_assoc, h _ _ _ hdepth, h' _ _ _ hdepth, List.length_append, Nat.add_assoc]

theorem evens_quoted {b : Brackets} {quote : Char} (hquote : quote = '"' ∨ quote = '\'')
    {inside : List Char} (h : ∀ c ∈ inside, c ≠ quote ∧ c ≠ '\\') :
    Evens b (quote :: (inside ++ [quote])) := by
  have hlength : ∀ rest, literalLength quote (inside ++ quote :: rest) = inside.length + 1 := by
    intro rest
    induction inside with
    | nil =>
        have hslash : quote ≠ '\\' := by rcases hquote with rfl | rfl <;> decide
        rw [List.nil_append, literalLength_cons hslash, if_pos rfl]
        rfl
    | cons c inside ih =>
        obtain ⟨⟨hc, hslash⟩, hinside⟩ := List.forall_mem_cons.mp h
        rw [List.cons_append, literalLength_cons hslash, if_neg hc, ih hinside]
        rfl
  intro offset depth rest hdepth
  have htext : quote :: (inside ++ [quote]) ++ rest = quote :: (inside ++ quote :: rest) := by simp
  have hopen : (quote == '"' || quote == '\'') = true := by simpa using hquote
  have hdrop : (inside ++ quote :: rest).drop (inside.length + 1) = rest := by simp
  rw [htext, closingFrom?, if_pos hopen, closingFrom?_literal, hlength, hdrop, Nat.add_assoc,
    Nat.add_comm 1]
  simp

end Scan

/-! ## Tokens that are no braces -/

theorem isUnbraced_of_isNameChar {c : Char} (h : isNameChar c = true) : isUnbraced c = true := by
  have hne : ∀ {d : Char}, isNameChar d = false → c ≠ d := by
    rintro d hd rfl
    rw [hd] at h
    cases h
  exact isUnbraced_iff.mpr ⟨hne rfl, hne rfl, hne rfl, hne rfl⟩

theorem isUnbraced_of_symbol {kind : TokenKind} (hkind : kind.unbraced = true) {s : String}
    (h : kind.symbol? = some s) : ∀ c ∈ s.toList, isUnbraced c = true := by
  cases kind <;> simp only [TokenKind.symbol?, reduceCtorEq, Option.some.injEq] at h <;>
    subst h <;> first | exact absurd hkind (by decide) | decide

/-- A character that no rule of the lexer reads is neither a quote nor a brace. -/
theorem isUnbraced_of_unread {c : Char} {cs : List Char} (h : Unread c cs) :
    isUnbraced c = true := by
  refine isUnbraced_iff.mpr ⟨h.quote.1, h.quote.2, ?_, ?_⟩
  · rintro rfl
    cases h.single
  · rintro rfl
    cases h.single

theorem isUnbraced_of_isLayout {c : Char} (h : isLayout c = true) : isUnbraced c = true :=
  isUnbraced_of_unread (unread_of_isBlank (isBlank_of_isLayout h) [])

section Cut

variable {c : Char} {cs : List Char} {kind : TokenKind} {more : Nat}
  (h : scan c cs = some (kind, more))

include h

/-- A scan passes over a token that is no brace, if it is no comment that throws it off. -/
theorem closingFrom?_cut (hkind : kind.unbraced = true)
    (hcomment : kind = .comment → Evens braces (c :: cs.take more)) (offset : Nat) {depth : Int}
    (hdepth : 1 ≤ depth) : closingFrom? braces offset depth none (c :: cs) =
      closingFrom? braces (offset + (more + 1)) depth none (cs.drop more) := by
  have hlength : (c :: cs.take more).length = more + 1 := by
    rw [List.length_cons, List.length_take_of_le (scan_le_length h)]
  have hevens : Evens braces (c :: cs.take more) →
      closingFrom? braces offset depth none (c :: cs) =
        closingFrom? braces (offset + (more + 1)) depth none (cs.drop more) := by
    intro heven
    have hpass := heven offset depth (cs.drop more) hdepth
    rwa [hlength, List.cons_append, List.take_append_drop] at hpass
  by_cases hstring : kind = .string
  · obtain ⟨hc, rfl⟩ := scan_string (hstring ▸ h)
    have hquote : (c == '"' || c == '\'') = true := by simpa using hc
    rw [closingFrom?, if_pos hquote, closingFrom?_literal, Nat.add_assoc, Nat.add_comm 1]
  · by_cases hk : kind = .comment
    · exact hevens (hcomment hk)
    · refine hevens (evens_of_unbraced ?_)
      rcases chars_of_scan h hk hstring with hchars | ⟨-, hsymbol⟩
      · intro d hd
        rcases hchars d hd with hname | rfl
        · exact isUnbraced_of_isNameChar hname
        · decide
      · have hall := isUnbraced_of_symbol hkind hsymbol
        rwa [String.toList_ofList] at hall

/-- An operator of one character is cut off by itself. -/
theorem scan_single {d : Char} (hsymbol : kind.symbol? = some (String.ofList [d])) :
    c = d ∧ more = 0 := by
  have hnone : ∀ {kind' : TokenKind}, kind = kind' → kind'.symbol? ≠ none := by
    rintro kind' rfl
    rw [hsymbol]
    exact Option.some_ne_none _
  have hcomment : kind ≠ .comment := fun hk => hnone hk rfl
  rcases scan_cases h hcomment with ⟨-, hk, -⟩ | ⟨-, hk, -⟩ | ⟨-, hk, -⟩ | ⟨-, -, hop⟩
  · exact absurd rfl (hnone hk)
  · exact absurd rfl (hnone hk)
  · exact absurd (TokenKind.symbol?_ofWord _) (hnone hk)
  · rw [symbol?_of_scanOperator hop, Option.some.injEq] at hsymbol
    obtain ⟨hc, htake⟩ := List.cons.inj (String.ofList_injective hsymbol)
    have hlength := congrArg List.length htake
    rw [List.length_take_of_le (scan_le_length h)] at hlength
    exact ⟨hc, hlength⟩

end Cut

/-! ## The brace that is found -/

/-- A scan from an offset stops as far from it as a token begins from a place. -/
def Meets (offset place depth : Nat) (cs : List Char) (right : Token) : Prop :=
  ∃ n, closingFrom? braces offset depth none cs = some (offset + n) ∧ right.start = place + n

theorem Meets.passes {offset place depth depth' count : Nat} {cs ds : List Char} {right : Token}
    (h : Meets (offset + count) (place + count) depth' ds right)
    (hpass : closingFrom? braces offset depth none cs =
      closingFrom? braces (offset + count) depth' none ds) : Meets offset place depth cs right := by
  obtain ⟨n, hn, hstart⟩ := h
  exact ⟨count + n, by rw [hpass, hn, Nat.add_assoc], by omega⟩

/-- A scan and the tokens meet behind a token, or at it. -/
theorem meets_cut {file : String} {p : Cursor} {c : Char} {cs : List Char} {kind : TokenKind}
    {more offset depth : Nat} {ts : List Token} {right : Token}
    (h : scan c cs = some (kind, more)) (hdepth : 1 ≤ depth)
    (hclosing : Token.closing? depth (cutAt file p kind c cs more :: ts) = some right)
    (hcomment : kind = .comment → p.offset + (more + 1) ≤ right.start →
      Evens braces (c :: cs.take more))
    (hbehind : ∀ {depth : Nat}, 1 ≤ depth → Token.closing? depth ts = some right →
      Meets (offset + (more + 1)) (p.offset + (more + 1)) depth (cs.drop more) right) :
    Meets offset p.offset depth (c :: cs) right := by
  by_cases hleft : kind = .leftBrace
  · obtain ⟨rfl, rfl⟩ := scan_single h (d := '{') (by rw [hleft]; rfl)
    rw [closing?_left (by exact hleft)] at hclosing
    refine (hbehind (Nat.le_succ_of_le hdepth) hclosing).passes ?_
    rw [closingFrom?_opens (by decide) rfl, Nat.cast_succ]
    rfl
  · by_cases hright : kind = .rightBrace
    · obtain ⟨rfl, rfl⟩ := scan_single h (d := '}') (by rw [hright]; rfl)
      rw [closing?_right (by exact hright)] at hclosing
      by_cases hlast : depth = 1
      · rw [if_pos hlast, Option.some.injEq] at hclosing
        subst hlast hclosing
        exact ⟨0, closingFrom?_last (by decide) (by decide) rfl cs, rfl⟩
      · rw [if_neg hlast] at hclosing
        refine (hbehind (by omega) hclosing).passes ?_
        rw [closingFrom?_closes (by decide) (by decide) rfl (by omega), Nat.cast_sub hdepth]
        rfl
    · have hunbraced : kind.unbraced = true := by
        simp [TokenKind.unbraced, TokenKind.isWord, hleft, hright, scan_ne_end h]
      rw [closing?_unbraced (by exact hunbraced)] at hclosing
      have hmeets := hbehind hdepth hclosing
      have hstop : p.offset + (more + 1) ≤ right.start := by
        obtain ⟨n, -, hstart⟩ := hmeets
        omega
      exact hmeets.passes
        (closingFrom?_cut h hunbraced (fun hk => hcomment hk hstop) offset (by omega))

/-- Behind an open brace, the scan finds the brace that closes it among the tokens. -/
theorem meets_tokensFrom {file : String} {cs : List Char} {p : Cursor} {skip offset depth : Nat}
    {right : Token} (hdepth : 1 ≤ depth)
    (hclosing : Token.closing? depth (tokensFrom file true p skip cs) = some right)
    (heven : ∀ t ∈ tokensFrom file true p skip cs, t.kind = .comment → t.stop ≤ right.start →
      Evens braces t.text.toList) :
    Meets offset (p.offset + skip) depth (cs.drop skip) right := by
  induction cs generalizing p skip depth offset with
  | nil => cases hclosing
  | cons c cs ih =>
      have hbehind : ∀ {skip offset depth : Nat}, 1 ≤ depth →
          Token.closing? depth (tokensFrom file true (p.advance c) skip cs) = some right →
          (∀ t ∈ tokensFrom file true (p.advance c) skip cs, t.kind = .comment →
            t.stop ≤ right.start → Evens braces t.text.toList) →
          Meets offset (p.offset + (skip + 1)) depth (cs.drop skip) right := by
        intro skip offset depth hdepth hclosing heven
        rw [← Nat.add_assoc, Nat.add_right_comm, ← Cursor.advance_offset p c]
        exact ih hdepth hclosing heven
      cases skip with
      | succ skip => exact hbehind hdepth hclosing heven
      | zero =>
          simp only [tokensFrom, Bool.true_or, ↓reduceIte] at hclosing heven
          rw [Nat.add_zero, List.drop_zero]
          cases hlay : isLayout c with
          | true =>
              simp only [hlay, ↓reduceIte] at hclosing heven
              exact (hbehind hdepth hclosing heven).passes
                (closingFrom?_unbraced (isUnbraced_of_isLayout hlay) depth cs)
          | false =>
              simp only [hlay, Bool.false_eq_true, ↓reduceIte] at hclosing heven
              cases hscan : scan c cs with
              | none =>
                  simp only [hscan] at hclosing heven
                  exact (hbehind hdepth hclosing heven).passes
                    (closingFrom?_unbraced (isUnbraced_of_unread (unread_of_scan hscan)) depth cs)
              | some found =>
                  obtain ⟨kind, more⟩ := found
                  simp only [hscan] at hclosing heven
                  obtain ⟨hhere, hlater⟩ := List.forall_mem_cons.mp heven
                  refine meets_cut hscan hdepth hclosing (fun hk hstop => ?_)
                    fun hdepth hclosing => hbehind hdepth hclosing hlater
                  have hlength : (c :: cs.take more).length = more + 1 := by
                    rw [List.length_cons, List.length_take_of_le (scan_le_length hscan)]
                  have htext := hhere hk (by rw [cutAt, hlength]; exact hstop)
                  rwa [cutAt, String.toList_ofList] at htext

/-! ## The head of a function -/

theorem exists_blanks (cs : List Char) :
    ∃ gap, (∀ c ∈ gap, isBlank c = true) ∧ cs = gap ++ trimStart cs :=
  ⟨cs.takeWhile isBlank, List.all_eq_true.mp List.all_takeWhile,
    List.takeWhile_append_dropWhile.symm⟩

theorem afterBlanks?_eq_some {cs rest : List Char} (h : afterBlanks? cs = some rest) :
    ∃ gap, gap ≠ [] ∧ (∀ c ∈ gap, isBlank c = true) ∧ cs = gap ++ rest := by
  cases cs with
  | nil => cases h
  | cons c cs =>
      rw [afterBlanks?] at h
      split at h
      · rename_i hc
        cases h
        obtain ⟨gap, hgap, hcs⟩ := exists_blanks cs
        exact ⟨c :: gap, List.cons_ne_nil c gap, List.forall_mem_cons.mpr ⟨hc, hgap⟩,
          congrArg (c :: ·) hcs⟩
      · cases h

/-- What stands behind the name of a function: two parentheses and a brace, and blanks. -/
theorem openingBrace?_eq_some {cs body : List Char} (h : openingBrace? cs = some body) :
    ∃ gap gap' gap'' inside, (∀ c ∈ gap ++ (gap' ++ gap''), isBlank c = true) ∧
      cs = gap ++ '(' :: (gap' ++ ')' :: (gap'' ++ '{' :: inside)) ∧ body = '{' :: inside := by
  obtain ⟨gap, hgap, hcs⟩ := exists_blanks cs
  rw [openingBrace?] at h
  split at h
  · rename_i behind hopen
    obtain ⟨gap', hgap', hbehind⟩ := exists_blanks behind
    split at h
    · rename_i rest hclose
      obtain ⟨gap'', hgap'', hrest⟩ := exists_blanks rest
      split at h
      · rename_i inside hbrace
        cases h
        rw [hopen] at hcs
        rw [hclose] at hbehind
        rw [hbrace] at hrest
        refine ⟨gap, gap', gap'', inside, ?_, by rw [hcs, hbehind, hrest], rfl⟩
        simp only [List.mem_append]
        rintro c (hc | hc | hc)
        · exact hgap c hc
        · exact hgap' c hc
        · exact hgap'' c hc
      · cases h
    · cases h
  · cases h

theorem apart_blanks {gap rest : List Char} (hgap : ∀ c ∈ gap, isBlank c = true)
    (hrest : gap = [] → Word.Apart isNameChar rest) : Word.Apart isNameChar (gap ++ rest) := by
  cases gap with
  | nil => exact hrest rfl
  | cons c gap =>
      refine Word.apart_cons ?_ (gap ++ rest)
      rw [← Bool.not_eq_true]
      intro hname
      have hblank := hgap c List.mem_cons_self
      rw [not_isBlank_of_isNameChar hname] at hblank
      cases hblank

theorem exists_token {w : Word} (h : w.Firm) (file : String) (p : Cursor) {gap : List Char}
    (hgap : ∀ c ∈ gap, isBlank c = true) (rest : List Char)
    (hrest : Word.Apart w.kind.runsOn (gap ++ rest)) :
    ∃ (t : Token) (q : Cursor), t.word = w ∧
      q.offset = p.offset + w.text.toList.length + gap.length ∧
      tokensFrom file true p 0 (w.text.toList ++ (gap ++ rest)) =
        t :: tokensFrom file true q 0 rest := by
  obtain ⟨t, ht, -, htokens⟩ := tokensFrom_firm file true p h _ hrest
  refine ⟨t, (p.advanceAll w.text.toList).advanceAll gap, ht, ?_, ?_⟩
  · rw [Cursor.advanceAll_offset, Cursor.advanceAll_offset]
  · rw [htokens, tokensFrom_blanks file true _ hgap]

/-- The tokens at the head of a function, and those of its inside. -/
theorem tokensFrom_functionAt (file : String) (p : Cursor) {name : String}
    (hname : Word.Firm ⟨.identifier, name⟩) {cs body : List Char}
    (h : functionAt? name.toList cs = some body) :
    ∃ front inside header left q, cs = front ++ '{' :: inside ∧ body = '{' :: inside ∧
      header.map Token.word = Grammar.headerWords ⟨.voidType, "void"⟩ name ∧
      left.kind = .leftBrace ∧ left.stop = p.offset + front.length + 1 ∧ q.offset = left.stop ∧
      tokensFrom file true p 0 cs = header ++ left :: tokensFrom file true q 0 inside := by
  simp only [functionAt?, Option.bind_eq_bind, Option.bind_eq_some_iff] at h
  obtain ⟨_, hvoid, _, hblanks, behind, hafter, hopen⟩ := h
  obtain ⟨gap, hne, hgap, rfl⟩ := afterBlanks?_eq_some hblanks
  obtain ⟨gap₁, gap₂, gap₃, inside, hgaps, rfl, rfl⟩ := openingBrace?_eq_some hopen
  rw [after?_eq_some] at hvoid hafter
  subst hvoid hafter
  obtain ⟨hgap₁, hgap₂, hgap₃⟩ : (∀ c ∈ gap₁, isBlank c = true) ∧
      (∀ c ∈ gap₂, isBlank c = true) ∧ ∀ c ∈ gap₃, isBlank c = true := by
    simpa only [List.forall_mem_append] using hgaps
  have hsymbol : ∀ {kind : TokenKind} {text : String}, kind.symbol? = some text →
      Word.Firm ⟨kind, text⟩ := Word.firm_symbol
  have hfirm : Word.Firm ⟨.voidType, "void"⟩ :=
    Word.firm_ofWord (by decide) (by decide) (by decide)
  have hleft : Word.Firm ⟨.leftParen, "("⟩ := hsymbol rfl
  have hright : Word.Firm ⟨.rightParen, ")"⟩ := hsymbol rfl
  have hbrace : Word.Firm ⟨.leftBrace, "\x7b"⟩ := hsymbol rfl
  -- word by word, each with the blanks behind it
  obtain ⟨v, p₁, hv, hp₁, hvoid⟩ := exists_token hfirm file p hgap
    (name.toList ++ (gap₁ ++ '(' :: (gap₂ ++ ')' :: (gap₃ ++ '{' :: inside))))
    (apart_blanks hgap fun hnil => absurd hnil hne)
  obtain ⟨n, p₂, hn, hp₂, hnamed⟩ := exists_token hname file p₁ hgap₁
    ('(' :: (gap₂ ++ ')' :: (gap₃ ++ '{' :: inside)))
    (apart_blanks hgap₁ fun _ => Word.apart_cons (by decide) _)
  obtain ⟨l, p₃, hl, hp₃, hopened⟩ := exists_token hleft file p₂ hgap₂
    (')' :: (gap₃ ++ '{' :: inside)) fun _ _ => rfl
  obtain ⟨r, p₄, hr, hp₄, hclosed⟩ := exists_token hright file p₃ hgap₃ ('{' :: inside)
    fun _ _ => rfl
  obtain ⟨left, hword, hstop, hinside⟩ := tokensFrom_firm file true p₄ hbrace inside
    fun _ _ => rfl
  refine ⟨"void".toList ++ gap ++ (name.toList ++ gap₁) ++ '(' :: gap₂ ++ ')' :: gap₃, inside,
    [v, n, l, r], left, p₄.advanceAll ['{'], by simp, rfl, ?_, congrArg Word.kind hword, ?_, ?_, ?_⟩
  · simp [hv, hn, hl, hr, Grammar.headerWords, Word.symbol, TokenKind.symbol?]
  · have hone : "(".toList.length = 1 ∧ ")".toList.length = 1 ∧ "\x7b".toList.length = 1 := by
      decide
    simp only [List.length_append, List.length_cons] at hp₁ hp₂ hp₃ hp₄ hstop ⊢
    omega
  · rw [Cursor.advanceAll_offset, hstop]
    rfl
  · have hfromRight := hclosed.trans (congrArg (r :: ·) hinside)
    have hfromLeft := hopened.trans (congrArg (l :: ·) hfromRight)
    exact hvoid.trans (congrArg (v :: ·) (hnamed.trans (congrArg (n :: ·) hfromLeft)))

/-! ## Bodies -/

theorem isPlainName_of_firm {name : String} (h : Word.Firm ⟨.identifier, name⟩) :
    isPlainName name.toList = true := by
  rcases h.text_cases rfl with ⟨hk, -⟩ | ⟨hk, -⟩ | ⟨-, c, cs, htext, hc, hcs⟩
  · cases hk
  · cases hk
  · dsimp only at htext
    rw [isPlainName, htext, List.all_cons, isWord_of_isNameChar (isNameChar_of_isNameStart hc),
      Bool.true_and, List.all_eq_true]
    exact fun d hd => isWord_of_isNameChar (List.all_eq_true.mp hcs d hd)

theorem firstFunction?_behind {name code before cs found : List Char}
    (hsplit : code = before ++ cs) (hfound : functionAt? name cs = some found)
    (hfirst : ∀ front rest, code = front ++ rest → front.length < before.length →
      functionAt? name rest = none) : firstFunction? name (spots code) = some found := by
  have hnone : ∀ s, s <:+ before → s ≠ [] → functionAt? name (s ++ cs) = none := by
    rintro s ⟨front, rfl⟩ hne
    refine hfirst front (s ++ cs) (by rw [hsplit, List.append_assoc]) ?_
    have hpos := List.length_pos_iff.mpr hne
    rw [List.length_append]
    omega
  obtain ⟨offset, afterWord, hskip⟩ := firstFunction?_append hnone 0 false
  rw [spots, hsplit, hskip, firstFunction?_here hfound]

/-- A function that is found has the body up to the brace that closes it. -/
theorem functionBody?_of_meets {name code inside : List Char} {place : Nat} {right : Token}
    (hfirst : firstFunction? name (spots code) = some ('{' :: inside))
    (h : Meets 1 place 1 inside right) :
    functionBody? name code = some (inside.take (right.start - place)) := by
  obtain ⟨n, hn, hstart⟩ := h
  rw [functionBody?]
  change ((firstFunction? name (spots code)).bind _) = _
  rw [hfirst, Option.bind_some]
  change ((closing? braces _).bind _) = _
  rw [closing?, closingFrom?_opens (by decide) rfl, Int.zero_add, Nat.zero_add]
  change ((closingFrom? braces 1 (1 : Nat) none inside).bind _) = _
  rw [hn, hstart, Option.bind_some, Nat.add_sub_cancel_left, Nat.add_comm 1]
  rfl

theorem firm_of_mem_significant {source file name : String} {t : Token}
    (ht : t ∈ significant source file) (hword : t.word = ⟨.identifier, name⟩) :
    Word.Firm ⟨.identifier, name⟩ := by
  have hmem := List.mem_map_of_mem (f := Token.word) ht
  rw [Word.significant_word, hword, List.mem_append, List.mem_singleton] at hmem
  rcases hmem with hmem | hend
  · exact (Word.lexed_of_mem hmem).firm (show TokenKind.identifier ≠ .string by decide)
  · cases hend

/-- What is left of some tokens without the comments begins with a token of theirs. -/
theorem exists_suffix_of_filter {t : Token} {us ts : List Token}
    (h : t :: us <:+ ts.filter isSignificant) :
    ∃ ts', t :: ts' <:+ ts ∧ t :: us = (t :: ts').filter isSignificant := by
  obtain ⟨front, hfront⟩ := h
  obtain ⟨before, behind, rfl, -, hbehind⟩ := List.filter_eq_append_iff.mp hfront.symm
  obtain ⟨skipped, ts', rfl, -, ht, rfl⟩ := List.filter_eq_cons_iff.mp hbehind
  refine ⟨ts', (List.suffix_append skipped _).trans (List.suffix_append before _), ?_⟩
  rw [List.filter_cons_of_pos ht]

/-- A function of a sketch without findings is read from the tokens of the text from its place
on. -/
theorem exists_function_run {source file name type : String} {limit : Nat}
    {before cs : List Char} {ps : List Parameter} {body : Node}
    (hclean : (Grammar.parse source file limit).diagnostics = [])
    (hsplit : source.toList = before ++ cs)
    (hmem : .function ((Cursor.start.advanceAll before).toLocation file) name type ps body ∈
      (Grammar.parse source file limit).program.body) :
    Word.Firm ⟨.identifier, name⟩ ∧
      tokensFrom file true (Cursor.start.advanceAll before) 0 cs <:+ tokenize source file ∧
      ∃ us rest, us <:+ significant source file ∧
        us = (tokensFrom file true (Cursor.start.advanceAll before) 0 cs).filter isSignificant ∧
        Grammar.function limit ⟨us, 0, .empty "parser"⟩ =
          .ok (.function ((Cursor.start.advanceAll before).toLocation file) name type ps body)
            ⟨rest, 0, .empty "parser"⟩ := by
  obtain ⟨us, rest, hsuffix, hrun⟩ := Grammar.exists_function_of_mem_body hclean hmem
  obtain ⟨t, ts, hus, hplace, n, hn, hword⟩ := Grammar.function_eq_ok hrun
  obtain rfl : us = t :: ts := hus
  have hname := firm_of_mem_significant (hsuffix.subset hn) hword
  obtain ⟨ts', hsuffix', hfilter⟩ :=
    exists_suffix_of_filter (significant_eq_filter source file ▸ hsuffix)
  obtain ⟨front, behind, hfront, htokens, hplace'⟩ := exists_front_of_suffix hsuffix'
  obtain rfl : front = before :=
    Cursor.toLocation_inj (hfront.symm.trans hsplit) (hplace'.symm.trans hplace)
  obtain rfl : behind = cs := List.append_cancel_left (hfront.symm.trans hsplit)
  rw [← htokens]
  exact ⟨hname, hsuffix', t :: ts, rest, hsuffix, hfilter, hrun⟩

/-- The tokens of a header are kept where the comments are left out. -/
theorem isSignificant_of_header {name : String} {header : List Token}
    (h : header.map Token.word = Grammar.headerWords ⟨.voidType, "void"⟩ name) :
    ∀ t ∈ header, isSignificant t = true := by
  have hwords : ∀ w ∈ header.map Token.word, w.kind ≠ .comment := by
    rw [h]
    simp [Grammar.headerWords]
  exact fun t ht => bne_iff_ne.mpr (hwords t.word (List.mem_map_of_mem ht))

/-- Whether a node is a function of a name without parameters at a place. -/
def isFunctionAt (l : Location) (name : String) : Node → Bool
  | .function l' name' "void" [] _ => l' == l && name' == name
  | _ => false

theorem exists_of_isFunctionAt {l : Location} {name : String} {ns : List Node}
    (h : ns.any (isFunctionAt l name) = true) :
    ∃ body, .function l name "void" [] body ∈ ns := by
  obtain ⟨n, hn, hfunction⟩ := List.any_eq_true.mp h
  unfold isFunctionAt at hfunction
  split at hfunction
  · simp only [Bool.and_eq_true, beq_iff_eq] at hfunction
    obtain ⟨rfl, rfl⟩ := hfunction
    exact ⟨_, hn⟩
  · cases hfunction

/-- The body of a function is found between the braces that the grammar reads around it: in a
sketch that is read without findings, where the header of the function is the first of its kind in
the text, and where no comment in the body throws the scan off. -/
theorem body_between_braces {source file name : String} {limit : Nat} {before cs : List Char}
    {body : Node} (hclean : (Grammar.parse source file limit).diagnostics = [])
    (hsplit : source.toList = before ++ cs) (hhead : (functionAt? name.toList cs).isSome = true)
    (hfirst : ∀ front rest, source.toList = front ++ rest → front.length < before.length →
      functionAt? name.toList rest = none)
    (hmem : .function ((Cursor.start.advanceAll before).toLocation file) name "void" [] body ∈
      (Grammar.parse source file limit).program.body) :
    ∃ left right, left.stop ≤ right.start ∧
      Grammar.BodyBraces source file limit ((Cursor.start.advanceAll before).toLocation file) name
        body left right ∧
      ((∀ t ∈ tokenize source file, t.kind = .comment → left.stop ≤ t.start →
          t.stop ≤ right.start → Evens braces t.text.toList) →
        Skim.body name.toList source.toList =
          .ok (some ((source.toList.drop left.stop).take (right.start - left.stop)))) := by
  obtain ⟨found, hfound⟩ := Option.isSome_iff_exists.mp hhead
  obtain ⟨hname, htokens, us, rest, hsuffix, rfl, hrun⟩ := exists_function_run hclean hsplit hmem
  obtain ⟨head, inside, header, left, q, rfl, rfl, hheader, hleft, hstop, hq, hcut⟩ :=
    tokensFrom_functionAt file (Cursor.start.advanceAll before) hname hfound
  rw [hcut] at htokens hsuffix hrun
  -- without the comments, the function is read up to the brace that closes its body
  have hbrace : isSignificant left = true := by
    rw [isSignificant, hleft]
    rfl
  rw [List.filter_append, List.filter_eq_self.mpr (isSignificant_of_header hheader),
    List.filter_cons_of_pos hbrace] at hsuffix hrun
  obtain ⟨right, hbraces, hclosing⟩ := Grammar.exists_bodyBraces hsuffix hheader hrun
  rw [closing?_filter] at hclosing
  -- the tokens behind the first brace stand behind it
  have hordered := (tokenize_tiles source file).1.ordered.sublist htokens.sublist
  have hbehind := (List.pairwise_cons.mp (List.pairwise_append.mp hordered).2.1).1
  refine ⟨left, right, hbehind right (mem_of_closing? hclosing), hbraces, fun heven => ?_⟩
  have hmeets : Meets 1 q.offset 1 inside right :=
    meets_tokensFrom (Nat.le_refl 1) hclosing fun t ht hk hend =>
      heven t (htokens.subset (by simp [ht])) hk (hbehind t ht) hend
  have hbody := functionBody?_of_meets (firstFunction?_behind hsplit hfound hfirst) hmeets
  have hinside : source.toList.drop left.stop = inside := by
    have htext : source.toList = before ++ head ++ ['{'] ++ inside := by rw [hsplit]; simp
    rw [htext, hstop, Cursor.advanceAll_offset]
    exact List.drop_left' (by simp [Cursor.start]; omega)
  rw [Skim.body, if_pos (isPlainName_of_firm hname), hbody, hinside, hq]

/-- A function behind a comment with an apostrophe, and in it braces in a comment and in a
literal. -/
def quotedSketch : String :=
  "// don't\nvoid setup() \x7b\n  // as in \"\x7b\"\n  \x7b '\x7d'; \x7d\n\x7d\n"

theorem body_between_braces_quoted :
    (Grammar.parse quotedSketch "a.ino" 100).diagnostics = [] ∧
    ∃ body left right,
      .function ⟨"a.ino", 2, 1⟩ "setup" "void" [] body ∈
        (Grammar.parse quotedSketch "a.ino" 100).program.body ∧
      Grammar.BodyBraces quotedSketch "a.ino" 100 ⟨"a.ino", 2, 1⟩ "setup" body left right ∧
      Skim.body "setup".toList quotedSketch.toList = .ok (some
        ((quotedSketch.toList.drop left.stop).take (right.start - left.stop))) ∧
      (quotedSketch.toList.drop left.stop).take (right.start - left.stop) =
        "\n  // as in \"\x7b\"\n  \x7b '\x7d'; \x7d\n".toList := by
  have hclean : (Grammar.parse quotedSketch "a.ino" 100).diagnostics = [] := by decide +kernel
  obtain ⟨body, hbody⟩ : ∃ body, .function ⟨"a.ino", 2, 1⟩ "setup" "void" [] body ∈
      (Grammar.parse quotedSketch "a.ino" 100).program.body :=
    exists_of_isFunctionAt (by decide +kernel)
  have hsplit : quotedSketch.toList = "// don't\n".toList ++ quotedSketch.toList.drop 9 := by decide
  have hnone : ∀ n < 9, functionAt? "setup".toList (quotedSketch.toList.drop n) = none := by
    decide
  have hfirst : ∀ front rest, quotedSketch.toList = front ++ rest →
      front.length < "// don't\n".toList.length → functionAt? "setup".toList rest = none := by
    intro front rest hfront hlt
    have hdrop := hnone front.length hlt
    rwa [hfront, List.drop_left] at hdrop
  -- the comment in front of the function is not in its body
  have hcomments : ∀ t ∈ tokenize quotedSketch "a.ino", t.kind = .comment →
      t.text = "// as in \"\x7b\"" ∨ t.start = 0 := by decide +kernel
  have hbehind : ∀ t ∈ significant quotedSketch "a.ino", 0 < t.stop := by decide +kernel
  have heven : Evens braces "// as in \"\x7b\"".toList := by
    have htext : "// as in \"\x7b\"".toList =
        "// as in ".toList ++ ('"' :: (['{'] ++ ['"'])) := by decide
    rw [htext]
    exact evens_append (evens_of_unbraced (by decide)) (evens_quoted (Or.inl rfl) (by decide))
  obtain ⟨left, right, -, hbraces, hfound⟩ :=
    body_between_braces hclean hsplit (by decide) hfirst hbody
  have hall : ∀ t ∈ tokenize quotedSketch "a.ino", t.kind = .comment → left.stop ≤ t.start →
      t.stop ≤ right.start → Evens braces t.text.toList := by
    intro t ht hk hle _
    obtain ⟨-, -, header, inner, rest, hsuffix, -⟩ := hbraces
    rcases hcomments t ht hk with htext | hstart
    · rw [htext]
      exact heven
    · have hpos := hbehind left (hsuffix.subset (by simp))
      omega
  have htext : Skim.body "setup".toList quotedSketch.toList =
      .ok (some "\n  // as in \"\x7b\"\n  \x7b '\x7d'; \x7d\n".toList) := by decide +kernel
  have hsame := (hfound hall).symm.trans htext
  exact ⟨hclean, body, left, right, hbody, hbraces, hfound hall,
    Option.some.inj (Except.ok.inj hsame)⟩

def apostropheSketch : String :=
  "void setup() \x7b\n  // don't\n\x7d\n\nvoid loop() \x7b\n\x7d\n"

/-- Its header stands in the text once and is read as such, but the scan takes the rest of the text
for a literal. -/
theorem body_thrown_off :
    (Grammar.parse apostropheSketch "a.ino" 100).diagnostics = [] ∧
    (∃ body, .function ⟨"a.ino", 1, 1⟩ "setup" "void" [] body ∈
      (Grammar.parse apostropheSketch "a.ino" 100).program.body) ∧
    (functionAt? "setup".toList apostropheSketch.toList).isSome = true ∧
    (∀ n < apostropheSketch.length, 0 < n →
      functionAt? "setup".toList (apostropheSketch.toList.drop n) = none) ∧
    Skim.body "setup".toList apostropheSketch.toList = .ok none := by
  refine ⟨by decide +kernel, exists_of_isFunctionAt (by decide +kernel), by decide, ?_, ?_⟩
  · decide +kernel
  · decide +kernel

end Skim

end InoBlocks
