import InoBlocks.Proofs.Check.MasksTo
import InoBlocks.Proofs.Sketch.RawStrength
import InoBlocks.Proofs.Token.Places
import InoBlocks.Proofs.Token.Respacing

/-!
# What the mask blanks out

The mask is made character by character, and the lexer cuts tokens; still both see the same
comments and the same literals, as long as no literal runs over the end of a line.  What is blanked
out is then just what the comment tokens take in and what stands between the quotes of the string
tokens.  A text that is quoted for a sketch is one closed literal to both of them.
-/

namespace InoBlocks

namespace Token

/-! ## Masking by tokens -/

/-- Whether a token blanks out the character at an offset: a comment all that it takes in, a
literal all but its quotes, of which an open literal has just the first. -/
def blanksOut (t : Token) (i : Nat) : Bool :=
  match t.kind with
  | .comment => decide (t.start ≤ i ∧ i < t.stop)
  | .string =>
      decide (t.start < i ∧ i < if isQuotedText t.text.toList then t.stop - 1 else t.stop)
  | _ => false

/-- A character at an offset, with the comments and literals of some tokens blanked out. -/
def maskedAt (ts : List Token) (i : Nat) (c : Char) : Char :=
  if ts.any (·.blanksOut i) then blanked c else c

/-- A text from an offset on, with the comments and literals of some tokens blanked out. -/
def maskedBy (ts : List Token) (n : Nat) (cs : List Char) : List Char :=
  cs.mapIdx fun i c => maskedAt ts (n + i) c

variable {t : Token} {ts us : List Token} {i n : Nat}

theorem covers_of_blanksOut (h : t.blanksOut i = true) : Covers t i := by
  unfold blanksOut at h
  split at h
  · simpa [Covers] using h
  · have hinside := of_decide_eq_true h
    unfold Covers
    split at hinside <;> omega
  · cases h

theorem maskedBy_cons (ts : List Token) (n : Nat) (c : Char) (cs : List Char) :
    maskedBy ts n (c :: cs) = maskedAt ts n c :: maskedBy ts (n + 1) cs := by
  simp [maskedBy, List.mapIdx_cons, Nat.add_assoc, Nat.add_comm 1]

theorem maskedBy_append (ts : List Token) (n : Nat) (cs ds : List Char) :
    maskedBy ts n (cs ++ ds) = maskedBy ts n cs ++ maskedBy ts (n + cs.length) ds := by
  induction cs generalizing n with
  | nil => simp [maskedBy]
  | cons c cs ih =>
      have hnext : n + 1 + cs.length = n + (c :: cs).length := by
        rw [List.length_cons]
        omega
      rw [List.cons_append, maskedBy_cons, maskedBy_cons, ih, hnext, List.cons_append]

/-- What a text is masked to depends on which of its offsets are blanked out. -/
theorem maskedBy_congr {cs : List Char}
    (h : ∀ i, n ≤ i → i < n + cs.length → ts.any (·.blanksOut i) = us.any (·.blanksOut i)) :
    maskedBy ts n cs = maskedBy us n cs := by
  induction cs generalizing n with
  | nil => rfl
  | cons c cs ih =>
      rw [List.length_cons] at h
      rw [maskedBy_cons, maskedBy_cons, maskedAt, maskedAt, h n (by omega) (by omega),
        ih fun i hi hi' => h i (by omega) (by omega)]

theorem maskedBy_eq_self {cs : List Char}
    (h : ∀ i, n ≤ i → i < n + cs.length → ts.any (·.blanksOut i) = false) :
    maskedBy ts n cs = cs := by
  induction cs generalizing n with
  | nil => rfl
  | cons c cs ih =>
      rw [List.length_cons] at h
      rw [maskedBy_cons, maskedAt, if_neg (by simp only [h n (by omega) (by omega)]; decide),
        ih fun i hi hi' => h i (by omega) (by omega)]

theorem maskedBy_eq_map {cs : List Char}
    (h : ∀ i, n ≤ i → i < n + cs.length → ts.any (·.blanksOut i) = true) :
    maskedBy ts n cs = cs.map blanked := by
  induction cs generalizing n with
  | nil => rfl
  | cons c cs ih =>
      rw [List.length_cons] at h
      rw [maskedBy_cons, maskedAt, if_pos (h n (by omega) (by omega)),
        ih fun i hi hi' => h i (by omega) (by omega), List.map_cons]

/-- A token that takes in the front of a text blanks it out alone, and those behind it the rest. -/
theorem maskedBy_front {cs : List Char} (hstop : t.stop = n + cs.length)
    (hus : ∀ u ∈ us, t.stop ≤ u.start) (ds : List Char) :
    maskedBy (t :: us) n (cs ++ ds) = maskedBy [t] n cs ++ maskedBy us t.stop ds := by
  rw [maskedBy_append, ← hstop]
  congr 1
  · refine maskedBy_congr fun i _ hi => ?_
    have hbehind : us.any (·.blanksOut i) = false := by
      rw [List.any_eq_false]
      intro u hu hblanks
      have hstart := hus u hu
      have hcovers := (covers_of_blanksOut hblanks).1
      omega
    rw [List.any_cons, List.any_cons, hbehind, List.any_nil]
  · refine maskedBy_congr fun i hi _ => ?_
    have hfront : t.blanksOut i = false := by
      rw [← Bool.not_eq_true]
      intro hblanks
      have hcovers := (covers_of_blanksOut hblanks).2
      omega
    rw [List.any_cons, hfront, Bool.false_or]

end Token

/-! ## The mask over one token -/

open Token

theorem maskFrom_lineComment (cs : List Char) :
    maskFrom .lineComment cs =
      (cs.takeWhile (· != '\n')).map blanked ++ mask (cs.dropWhile (· != '\n')) := by
  induction cs with
  | nil => rfl
  | cons c cs ih =>
      rw [List.takeWhile_cons, List.dropWhile_cons]
      by_cases hc : c = '\n'
      · subst hc
        rfl
      · have hpass : (c != '\n') = true := by simpa using hc
        rw [maskFrom, if_neg (by simpa using hc), ih, if_pos hpass, if_pos hpass]
        rfl

theorem maskFrom_blockComment (cs : List Char) :
    maskFrom .blockComment cs =
      (cs.take (commentLength cs)).map blanked ++ mask (cs.drop (commentLength cs)) := by
  fun_induction commentLength cs with
  | case1 => rfl
  | case2 rest => rfl
  | case3 c cs hopen ih =>
      rw [maskFrom, ih]
      · rfl
      · exact hopen

/-- Over a comment token every character is blanked out. -/
theorem mask_comment {c : Char} {cs : List Char} {more : Nat}
    (h : scan c cs = some (.comment, more)) :
    mask (c :: cs) = (c :: cs.take more).map blanked ++ mask (cs.drop more) := by
  obtain ⟨rest, ⟨htext, rfl⟩ | ⟨htext, rfl⟩⟩ := scan_comment h
  · obtain ⟨rfl, rfl⟩ := List.cons.inj htext
    have hsplit := List.takeWhile_append_dropWhile (p := (· != '\n')) (l := rest)
    have htake := congrArg (List.take (rest.takeWhile (· != '\n')).length) hsplit
    have hdrop := congrArg (List.drop (rest.takeWhile (· != '\n')).length) hsplit
    rw [List.take_left] at htake
    rw [List.drop_left] at hdrop
    change ' ' :: ' ' :: maskFrom .lineComment rest = _
    rw [maskFrom_lineComment, List.take_succ_cons, List.drop_succ_cons, ← htake, ← hdrop]
    rfl
  · obtain ⟨rfl, rfl⟩ := List.cons.inj htext
    change ' ' :: ' ' :: maskFrom .blockComment rest = _
    rw [maskFrom_blockComment]
    rfl

/-- The mask of what stands behind the opening quote of a literal. -/
def literalMask (quote : Char) (cs : List Char) : List Char :=
  if closesAtEnd quote cs then cs.dropLast.map blanked ++ [quote] else cs.map blanked

theorem literalMask_append {quote : Char} {ds cs : List Char}
    (hcloses : closesAtEnd quote (ds ++ cs) = closesAtEnd quote cs) :
    literalMask quote (ds ++ cs) = ds.map blanked ++ literalMask quote cs := by
  rw [literalMask, literalMask, hcloses]
  split
  · rename_i hend
    have hne : cs ≠ [] := by
      rintro rfl
      cases hend
    rw [List.dropLast_append_of_ne_nil hne, List.map_append, List.append_assoc]
  · rw [List.map_append]

/-- Over a literal without line feeds, the inside is blanked out and its closing quote stays. -/
theorem maskFrom_literal {quote : Char} (hquote : quote ≠ '\\') {cs : List Char}
    (hfeed : '\n' ∉ cs.take (literalLength quote cs)) :
    maskFrom (.literal quote) cs =
      literalMask quote (cs.take (literalLength quote cs)) ++
        mask (cs.drop (literalLength quote cs)) := by
  fun_induction literalLength quote cs with
  | case1 => rfl
  | case2 =>
      have hopen : ('\\' == quote) = false := by simpa using Ne.symm hquote
      have hmask : literalMask quote ['\\'] = [' '] := by
        simp [literalMask, closesAtEnd, hopen, blanked]
      simp [maskFrom, hopen, hmask, blanked, mask]
  | case3 d cs ih =>
      simp only [List.take_succ_cons, List.mem_cons, not_or] at hfeed
      have hcloses : closesAtEnd quote (['\\', d] ++ cs.take (literalLength quote cs)) =
          closesAtEnd quote (cs.take (literalLength quote cs)) := by
        simp [closesAtEnd, Ne.symm hfeed.2.1]
      have hmask := literalMask_append hcloses
      rw [List.map_cons, List.map_singleton, blanked_of_ne (Ne.symm hfeed.1),
        blanked_of_ne (Ne.symm hfeed.2.1)] at hmask
      rw [List.take_succ_cons, List.take_succ_cons, List.drop_succ_cons, List.drop_succ_cons,
        maskFrom, ih hfeed.2.2]
      exact congrArg (· ++ _) hmask.symm
  | case4 cs hsingle hpair =>
      have hmask : literalMask quote [quote] = [quote] := by
        simp [literalMask, closesAtEnd]
      rw [List.take_succ_cons, List.take_zero, List.drop_succ_cons, List.drop_zero, hmask, maskFrom,
        if_pos (beq_self_eq_true quote)]
      · rfl
      · exact fun _ _ heq => absurd heq hquote
  | case5 c cs hsingle hpair hne ih =>
      have hslash : c ≠ '\\' := by
        rintro rfl
        cases cs with
        | nil => exact hsingle rfl rfl
        | cons d ds => exact hpair d ds rfl rfl
      rw [List.take_succ_cons, List.mem_cons, not_or] at hfeed
      have hcloses : closesAtEnd quote ([c] ++ cs.take (literalLength quote cs)) =
          closesAtEnd quote (cs.take (literalLength quote cs)) := by
        rw [List.singleton_append, closesAtEnd_cons hslash, if_neg hne]
      have hmask := literalMask_append hcloses
      rw [List.map_singleton] at hmask
      rw [List.take_succ_cons, List.drop_succ_cons, maskFrom, if_neg (by simpa using hne),
        if_neg (by simpa using Ne.symm hfeed.1), ih hfeed.2]
      · exact congrArg (· ++ _) hmask.symm
      · exact fun _ _ heq => absurd heq hslash

/-! ## The mask over any token -/

theorem isCode_of_unread {c : Char} {cs : List Char} (h : Unread c cs) : isCode c = true := by
  have hslash : c ≠ '/' := by
    rintro rfl
    cases h.single
  simp [isCode, hslash, h.quote]

theorem isCode_of_isLayout {c : Char} (h : isLayout c = true) : isCode c = true := by
  simp only [isLayout, Bool.or_eq_true, beq_iff_eq] at h
  rcases h with ((((rfl | rfl) | rfl) | rfl) | rfl) | rfl <;> decide

theorem isCode_of_isNameChar {c : Char} (h : Text.isNameChar c = true) : isCode c = true := by
  have hne : ∀ d : Char, Text.isNameChar d = false → c ≠ d := by
    rintro d hd rfl
    exact absurd h (by simp [hd])
  simp [isCode, hne '/' (by decide), hne '"' (by decide), hne '\'' (by decide)]

/-- Of all operators and delimiters, only the slash begins like a comment. -/
theorem isCode_of_symbol? {kind : TokenKind} {s : String} (h : kind.symbol? = some s) :
    s = "/" ∨ ∀ d ∈ s.toList, isCode d = true := by
  cases kind <;> simp only [TokenKind.symbol?, reduceCtorEq, Option.some.injEq] at h <;>
    subst h <;> first | exact Or.inl rfl | exact Or.inr (by decide)

theorem mask_slash {cs : List Char} (h : opensComment ('/' :: cs) = false) :
    mask ('/' :: cs) = '/' :: mask cs := by
  have hline : ∀ rest, cs ≠ '/' :: rest := by
    rintro rest rfl
    cases h
  have hblock : ∀ rest, cs ≠ '*' :: rest := by
    rintro rest rfl
    cases h
  rw [mask, maskFrom]
  · rfl
  · exact fun rest _ => hline rest
  · exact fun rest _ => hblock rest

/-- Over a token that is neither a comment nor a literal, nothing is blanked out. -/
theorem mask_plain {c : Char} {cs : List Char} {kind : TokenKind} {more : Nat}
    (h : scan c cs = some (kind, more)) (hcomment : kind ≠ .comment) (hstring : kind ≠ .string) :
    mask (c :: cs) = c :: cs.take more ++ mask (cs.drop more) := by
  have hcode : (∀ d ∈ c :: cs.take more, isCode d = true) →
      mask (c :: cs) = c :: cs.take more ++ mask (cs.drop more) := by
    intro hall
    have hmasks := MasksTo.code hall (cs.drop more)
    rwa [List.cons_append, List.take_append_drop] at hmasks
  rcases chars_of_scan h hcomment hstring with hchars | ⟨hopen, hsymbol⟩
  · refine hcode fun d hd => ?_
    rcases hchars d hd with hd | rfl
    · exact isCode_of_isNameChar hd
    · decide
  · rcases isCode_of_symbol? hsymbol with hslash | hall
    · have hchars : c :: cs.take more = ['/'] := by
        simpa using congrArg String.toList hslash
      obtain ⟨rfl, htake⟩ := List.cons.inj hchars
      have hdrop : cs.drop more = cs := by
        have hsplit := List.take_append_drop more cs
        rwa [htake] at hsplit
      rw [mask_slash hopen, htake, hdrop]
      rfl
    · rw [String.toList_ofList] at hall
      exact hcode hall

namespace Token

variable {file : String} {p : Cursor} {kind : TokenKind} {c : Char} {cs : List Char} {more : Nat}

theorem maskedBy_comment :
    maskedBy [cutAt file p .comment c cs more] p.offset (c :: cs.take more) =
      (c :: cs.take more).map blanked := by
  refine maskedBy_eq_map fun i hi hi' => ?_
  simp only [List.any_cons, List.any_nil, Bool.or_false, blanksOut, cutAt, decide_eq_true_eq]
  exact ⟨hi, hi'⟩

theorem maskedBy_string (hquote : c = '"' ∨ c = '\'') :
    maskedBy [cutAt file p .string c cs more] p.offset (c :: cs.take more) =
      c :: literalMask c (cs.take more) := by
  have hclosed : isQuotedText (cutAt file p .string c cs more).text.toList =
      closesAtEnd c (cs.take more) := by
    rw [cutAt, String.toList_ofList, isQuotedText]
    rcases hquote with rfl | rfl <;> simp
  have hblanks : ∀ i, [cutAt file p .string c cs more].any (·.blanksOut i) =
      decide (p.offset < i ∧ i < p.offset + (c :: cs.take more).length -
        if closesAtEnd c (cs.take more) then 1 else 0) := by
    intro i
    simp only [List.any_cons, List.any_nil, Bool.or_false, blanksOut, hclosed]
    simp only [cutAt]
    split <;> simp
  rw [maskedBy_cons, maskedAt, hblanks, if_neg (by simp), literalMask]
  split
  · rename_i hend
    obtain ⟨inside, hinside⟩ : ∃ inside, cs.take more = inside ++ [c] :=
      List.getLast?_eq_some_iff.mp (getLast?_of_closesAtEnd hend)
    simp only [hend, ↓reduceIte] at hblanks
    simp only [hinside, List.length_cons, List.length_append, List.length_nil] at hblanks
    rw [hinside, List.dropLast_concat, maskedBy_append, maskedBy_eq_map, maskedBy_eq_self]
    · intro i hi hi'
      rw [hblanks, decide_eq_false_iff_not]
      omega
    · intro i hi hi'
      rw [hblanks, decide_eq_true_eq]
      omega
  · rename_i hend
    simp only [hend, Bool.false_eq_true, ↓reduceIte, List.length_cons] at hblanks
    rw [maskedBy_eq_map]
    intro i hi hi'
    rw [hblanks, decide_eq_true_eq]
    omega

/-- Over one token, the mask blanks out what the token says. -/
theorem mask_cut (hscan : scan c cs = some (kind, more))
    (hfeed : kind = .string → '\n' ∉ cs.take more) :
    mask (c :: cs) = maskedBy [cutAt file p kind c cs more] p.offset (c :: cs.take more) ++
      mask (cs.drop more) := by
  by_cases hcomment : kind = .comment
  · subst hcomment
    rw [maskedBy_comment, mask_comment hscan]
  · by_cases hstring : kind = .string
    · subst hstring
      rcases scan_cases hscan hcomment with ⟨hquote, -, rfl⟩ | ⟨-, hk, -⟩ | ⟨-, hk, -⟩ | ⟨-, -, hop⟩
      · have hne : c ≠ '\\' := by
          rcases hquote with rfl | rfl <;> decide
        have hopen : mask (c :: cs) = c :: maskFrom (.literal c) cs := by
          rcases hquote with rfl | rfl <;> rfl
        rw [hopen, maskFrom_literal hne (hfeed rfl), maskedBy_string hquote]
        rfl
      · cases hk
      · exact absurd hk.symm (TokenKind.ofWord_ne _).1
      · cases symbol?_of_scanOperator hop
    · rw [mask_plain hscan hcomment hstring, maskedBy_eq_self]
      intro i _ _
      simp only [List.any_cons, List.any_nil, Bool.or_false, blanksOut, cutAt]

/-! ## The mask over a text -/

/-- No literal of some tokens runs over the end of a line. -/
def OnOneLine (ts : List Token) : Prop :=
  ∀ t ∈ ts, t.kind = .string → '\n' ∉ t.text.toList

instance (ts : List Token) : Decidable (OnOneLine ts) :=
  inferInstanceAs (Decidable (∀ t ∈ ts, _))

/-- The invariant of both scanners: behind the text `before`, and behind the characters of the
token that was cut last, the rest is masked by the tokens of the rest. -/
theorem mask_tokensFrom (file : String) (before cs : List Char) (skip : Nat)
    (hskip : skip ≤ cs.length)
    (hline : OnOneLine (tokensFrom file true (Cursor.start.advanceAll before) skip cs)) :
    mask (cs.drop skip) =
      maskedBy (tokensFrom file true (Cursor.start.advanceAll before) skip cs)
        (before.length + skip) (cs.drop skip) := by
  induction cs generalizing before skip with
  | nil =>
      rw [List.drop_nil]
      rfl
  | cons c cs ih =>
      have hnext : (Cursor.start.advanceAll before).advance c =
          Cursor.start.advanceAll (before ++ [c]) := by
        rw [Cursor.advanceAll_append, Cursor.advanceAll_cons, Cursor.advanceAll_nil]
      have hlength : (before ++ [c]).length = before.length + 1 := by simp
      have hoffset : (Cursor.start.advanceAll before).offset = before.length := by
        rw [Cursor.advanceAll_start]
      -- A character in front that is code is blanked out by no token behind it.
      have hpass : isCode c = true →
          OnOneLine (tokensFrom file true (Cursor.start.advanceAll (before ++ [c])) 0 cs) →
          mask (c :: cs) = maskedBy
            (tokensFrom file true (Cursor.start.advanceAll (before ++ [c])) 0 cs)
            before.length (c :: cs) := by
        intro hcode hline
        have hplaced := (tilesFrom_tokensFrom file (before ++ [c]) cs 0 (Nat.zero_le _)).placed
        have hfree : (tokensFrom file true (Cursor.start.advanceAll (before ++ [c])) 0 cs).any
            (·.blanksOut before.length) = false := by
          rw [List.any_eq_false]
          intro t ht hblanks
          have hstart := (hplaced t ht).2
          have hcovers := (covers_of_blanksOut hblanks).1
          omega
        have hrest := ih (before ++ [c]) 0 (Nat.zero_le _) hline
        rw [hlength, List.drop_zero] at hrest
        rw [mask_cons hcode, hrest, maskedBy_cons, maskedAt, hfree]
        rfl
      cases skip with
      | succ skip =>
          simp only [tokensFrom, hnext] at hline ⊢
          have hrest := ih (before ++ [c]) skip (by simpa using hskip) hline
          rwa [hlength, Nat.add_right_comm, Nat.add_assoc] at hrest
      | zero =>
          rw [List.drop_zero, Nat.add_zero]
          simp only [tokensFrom, Bool.true_or, ↓reduceIte, hnext] at hline ⊢
          cases hlay : isLayout c with
          | true =>
              simp only [hlay, ↓reduceIte] at hline ⊢
              exact hpass (isCode_of_isLayout hlay) hline
          | false =>
              simp only [hlay, Bool.false_eq_true, ↓reduceIte] at hline ⊢
              cases hscan : scan c cs with
              | none =>
                  simp only [hscan] at hline ⊢
                  exact hpass (isCode_of_unread (unread_of_scan hscan)) hline
              | some cut =>
                  obtain ⟨kind, more⟩ := cut
                  simp only [hscan] at hline ⊢
                  obtain ⟨hhere, hbehind⟩ := List.forall_mem_cons.mp hline
                  have hmore := scan_le_length hscan
                  have hrest := ih (before ++ [c]) more hmore hbehind
                  have hplaced := (tilesFrom_tokensFrom file (before ++ [c]) cs more hmore).placed
                  have hfeed : kind = .string → '\n' ∉ cs.take more := by
                    intro hkind
                    have hinside := hhere hkind
                    rw [cutAt, String.toList_ofList, List.mem_cons, not_or] at hinside
                    exact hinside.2
                  let t := cutAt file (Cursor.start.advanceAll before) kind c cs more
                  have hcut : mask (c :: cs) = maskedBy [t]
                      (Cursor.start.advanceAll before).offset (c :: cs.take more) ++
                      mask (cs.drop more) := mask_cut hscan hfeed
                  have hlong : t.stop = before.length + (c :: cs.take more).length := by
                    simp only [t, cutAt, hoffset]
                  have hstop : t.stop = (before ++ [c]).length + more := by
                    rw [hlong, hlength, List.length_cons, List.length_take_of_le hmore]
                    omega
                  rw [← hstop] at hrest hplaced
                  have hfront := maskedBy_front hlong (fun u hu => (hplaced u hu).2) (cs.drop more)
                  rw [List.cons_append, List.take_append_drop] at hfront
                  rw [hcut, hrest, hoffset]
                  exact hfront.symm

/-- The mask of a sketch in which no literal runs over the end of a line: the comments are blanked
out, and so is the inside of the literals. -/
theorem mask_eq_maskedBy (source file : String) (hline : OnOneLine (tokenize source file)) :
    mask source.toList =
      source.toList.mapIdx fun i c => maskedAt (tokenize source file) i c := by
  have hmask := mask_tokensFrom file [] source.toList 0 (Nat.zero_le _) hline
  simpa [maskedBy, tokenize, Cursor.advanceAll_nil] using hmask

/-- A quote in each kind of comment, marks of comments in a literal, and a literal left open. -/
def tangledText : String :=
  "a / b; // \"\n/*/ ' \n*/ s = \"/*\\\"\" + '//';\n\"*/ \\\""

theorem mask_eq_maskedBy_tangled :
    OnOneLine (tokenize tangledText "") ∧
      masked tangledText = "a / b;     \n      \n   s = \"    \" + '  ';\n\"     " ∧
      mask tangledText.toList =
        tangledText.toList.mapIdx fun i c => maskedAt (tokenize tangledText "") i c :=
  have hline : OnOneLine (tokenize tangledText "") := by decide +kernel
  ⟨hline, by decide +kernel, mask_eq_maskedBy tangledText "" hline⟩

end Token

/-! ## Quoted texts -/

open Token in
/-- A quoted text has no line break in it, is one closed literal to the lexer and to the mask,
and its inside comes out the same when it is quoted again. -/
theorem quoteText_isLiteral (s file : String) :
    (∀ c ∈ (quoteText s).toList, c ≠ '\n' ∧ c ≠ '\r') ∧
    tokenize (quoteText s) file =
      [⟨.string, quoteText s, 0, (quoteText s).toList.length, ⟨file, 1, 1⟩⟩,
        endAt (Cursor.start.advanceAll (quoteText s).toList) file] ∧
    mask (quoteText s).toList =
      '"' :: List.replicate (escapeText s.toList).length ' ' ++ ['"'] ∧
    quoteText (ExprGrammar.unquote (quoteText s)) = quoteText s := by
  have htokens := tokenize_firm (firm_quoteText s) file
  rw [ofWord, Cursor.start, Nat.zero_add] at htokens
  exact ⟨fun c hc => ne_lineBreak_of_mem_quoteText hc, htokens, (MasksTo.quoted s).mask_eq,
    quoteText_unquote s⟩

end InoBlocks
