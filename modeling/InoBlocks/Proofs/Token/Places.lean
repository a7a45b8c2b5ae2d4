import InoBlocks.Proofs.Token.Front

/-!
# Tokens from a place on

Where a token begins, the tokens go on as those of the text from there.  A line and a column say
how much of the text that leaves out, and blanks and firm words at its front are passed over one
by one.
-/

namespace InoBlocks

namespace Cursor

theorem toLocation_append {cs more : List Char} {file : String}
    (h : (start.advanceAll (cs ++ more)).toLocation file = (start.advanceAll cs).toLocation file) :
    more = [] := by
  rw [advanceAll_start, advanceAll_start] at h
  simp only [toLocation, Location.mk.injEq, true_and, List.count_append] at h
  obtain ⟨hline, hcolumn⟩ := h
  have hfeed : ∀ c ∈ more.reverse, (c != '\n') = true := by
    intro c hc
    have hnone : more.count '\n' = 0 := by omega
    exact bne_iff_ne.mpr fun heq =>
      List.count_eq_zero.mp hnone (heq ▸ List.mem_reverse.mp hc)
  -- without a line feed, what is added counts for the column
  rw [columnAfter, columnAfter, List.reverse_append, List.takeWhile_append_of_pos hfeed,
    List.length_append, List.length_reverse] at hcolumn
  exact List.length_eq_zero_iff.mp (by omega)

theorem toLocation_inj {cs ds es fs : List Char} {file : String} (htext : cs ++ es = ds ++ fs)
    (h : (start.advanceAll cs).toLocation file = (start.advanceAll ds).toLocation file) :
    cs = ds := by
  rcases List.append_eq_append_iff.mp htext with ⟨more, rfl, -⟩ | ⟨more, rfl, -⟩
  · rw [toLocation_append h.symm, List.append_nil]
  · rw [toLocation_append h, List.append_nil]

end Cursor

namespace Token

variable (file : String) (keep : Bool) (p : Cursor)

/-- Behind the characters that are passed over, the tokens are those of the text from there. -/
theorem tokensFrom_drop (skip : Nat) (cs : List Char) :
    tokensFrom file keep p skip cs =
      tokensFrom file keep (p.advanceAll (cs.take skip)) 0 (cs.drop skip) := by
  induction cs generalizing p skip with
  | nil => cases skip <;> rfl
  | cons c cs ih =>
      cases skip with
      | zero => rfl
      | succ skip => exact ih (p.advance c) skip

/-- From some token on, the tokens of a text are those of the text from where it begins. -/
theorem exists_front_of_suffix {file : String} {keep : Bool} {t : Token} {ts : List Token}
    {p : Cursor} {skip : Nat} {cs : List Char} (h : t :: ts <:+ tokensFrom file keep p skip cs) :
    ∃ front rest, cs = front ++ rest ∧
      t :: ts = tokensFrom file keep (p.advanceAll front) 0 rest ∧
      t.location = (p.advanceAll front).toLocation file := by
  induction cs generalizing p skip with
  | nil =>
      rcases List.suffix_cons_iff.mp h with heq | hnil
      · exact ⟨[], [], rfl, heq, by rw [(List.cons.inj heq).1]; rfl⟩
      · cases List.suffix_nil.mp hnil
  | cons c cs ih =>
      have hbehind : ∀ skip, t :: ts <:+ tokensFrom file keep (p.advance c) skip cs →
          ∃ front rest, c :: cs = front ++ rest ∧
            t :: ts = tokensFrom file keep (p.advanceAll front) 0 rest ∧
            t.location = (p.advanceAll front).toLocation file := by
        intro skip h
        obtain ⟨front, rest, rfl, hts, hplace⟩ := ih h
        exact ⟨c :: front, rest, rfl, hts, hplace⟩
      cases skip with
      | succ skip => exact hbehind skip h
      | zero =>
          simp only [tokensFrom] at h
          split at h
          · exact hbehind 0 h
          · split at h
            · exact hbehind 0 h
            · split at h
              · rename_i kind more hscan hkeep
                rcases List.suffix_cons_iff.mp h with heq | hrest
                · have hlay : isLayout c = false := by simpa using ‹¬ isLayout c = true›
                  refine ⟨[], c :: cs, rfl, ?_, by rw [(List.cons.inj heq).1]; rfl⟩
                  rw [Cursor.advanceAll_nil, heq]
                  simp only [tokensFrom, hlay, hscan, hkeep, ↓reduceIte, Bool.false_eq_true]
                · exact hbehind _ hrest
              · exact hbehind _ h

theorem unread_of_isBlank {c : Char} (h : Text.isBlank c = true) (cs : List Char) :
    Unread c cs := by
  have hne : ∀ {d : Char}, Text.isBlank d = false → c ≠ d := by
    rintro d hd rfl
    rw [hd] at h
    cases h
  have hname : Text.isNameChar c = false := by
    rw [← Bool.not_eq_true]
    intro hc
    rw [Text.not_isBlank_of_isNameChar hc] at h
    cases h
  refine ⟨⟨hne rfl, hne rfl⟩, ?_, ?_, fun d _ => ?_, ?_⟩
  · rw [← Bool.not_eq_true]
    exact fun hc => absurd (Text.isNameChar_of_isDigit hc) (by rw [hname]; decide)
  · rw [← Bool.not_eq_true]
    exact fun hc => absurd (Text.isNameChar_of_isNameStart hc) (by rw [hname]; decide)
  · unfold TokenKind.ofPair?
    split <;> first | rfl | exact absurd h (by decide)
  · unfold TokenKind.ofChar?
    split <;> first | rfl | exact absurd h (by decide)

theorem tokensFrom_blanks {gap : List Char} (h : ∀ c ∈ gap, Text.isBlank c = true)
    (rest : List Char) :
    tokensFrom file keep p 0 (gap ++ rest) = tokensFrom file keep (p.advanceAll gap) 0 rest := by
  induction gap generalizing p with
  | nil => rfl
  | cons c gap ih =>
      obtain ⟨hc, hgap⟩ := List.forall_mem_cons.mp h
      have hscan : scan c (gap ++ rest) = none :=
        scan_of_unread (unread_of_isBlank hc (gap ++ rest)) fun d hd => Or.inl hd
      rw [List.cons_append, tokensFrom, hscan]
      simp only [ite_self]
      exact ih (p.advance c) hgap

def ofWord (w : Word) (p : Cursor) (file : String) : Token :=
  ⟨w.kind, w.text, p.offset, p.offset + w.text.toList.length, p.toLocation file⟩

/-- A firm word is the first token, at the place where it stands, if nothing runs on from it. -/
theorem tokensFrom_cons {w : Word} (h : w.Firm) (rest : List Char)
    (hrest : Word.Apart w.kind.runsOn rest) :
    tokensFrom file keep p 0 (w.text.toList ++ rest) =
      ofWord w p file :: tokensFrom file keep (p.advanceAll w.text.toList) 0 rest := by
  obtain ⟨kind, text⟩ := w
  obtain ⟨c, cs, rfl, hc, hkind, hscan⟩ := h
  have hcut := hscan rest hrest
  have htake : (cs ++ rest).take cs.length = cs := List.take_left
  have hdrop : (cs ++ rest).drop cs.length = rest := List.drop_left
  have htoken : cutAt file p kind c (cs ++ rest) cs.length =
      ofWord ⟨kind, String.ofList (c :: cs)⟩ p file := by
    simp [cutAt, ofWord]
  have hkeep : (keep || isSignificant (cutAt file p kind c (cs ++ rest) cs.length)) = true := by
    rw [Bool.or_eq_true]
    exact Or.inr (bne_iff_ne.mpr hkind)
  rw [String.toList_ofList, List.cons_append, tokensFrom, hc, if_neg Bool.false_ne_true, hcut]
  dsimp only
  rw [if_pos hkeep, htoken, tokensFrom_drop, htake, hdrop]
  rfl

theorem tokensFrom_firm {w : Word} (h : w.Firm) (rest : List Char)
    (hrest : Word.Apart w.kind.runsOn rest) :
    ∃ t : Token, t.word = w ∧ t.stop = p.offset + w.text.toList.length ∧
      tokensFrom file keep p 0 (w.text.toList ++ rest) =
        t :: tokensFrom file keep (p.advanceAll w.text.toList) 0 rest :=
  ⟨ofWord w p file, rfl, rfl, tokensFrom_cons file keep p h rest hrest⟩

/-- A firm word by itself is one token from the front of its text to the end. -/
theorem tokenize_firm {w : Word} (h : w.Firm) (file : String) :
    tokenize w.text file =
      [ofWord w .start file, endAt (Cursor.start.advanceAll w.text.toList) file] := by
  have htokens := tokensFrom_cons file true .start h [] (Word.apart_nil _)
  rw [List.append_nil] at htokens
  exact htokens

end Token

end InoBlocks
