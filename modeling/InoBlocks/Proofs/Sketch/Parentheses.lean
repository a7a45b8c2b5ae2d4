import InoBlocks.Proofs.Sketch.Characters
import InoBlocks.Proofs.Sketch.ReadBack

/-!
# Only necessary parentheses

A text that is read as an expression has no fewer parentheses than the text that is written for the
expression.  So when a pair of them is taken out of the written text, what is left is read as
something else or not at all.
-/

namespace InoBlocks

open Word

/-- The text of an expression has no character, blanks aside, more often than the tokens that the
expression was read from, with any tokens around them. -/
theorem Phrase.count_source_le_tokens {d : Char} (hd : d ≠ ' ') {us ts : List Token} {e : Expr}
    (h : Phrase 1 (us.map Token.word) e) (hus : us <:+: ts) (hts : Token.IsCut ts) :
    e.source.toList.count d ≤ (chars (ts.map Token.word)).count d := by
  have hlexed : ∀ w ∈ us.map Token.word, w.Lexed := by
    intro w hw
    obtain ⟨t, ht, rfl⟩ := List.mem_map.mp hw
    refine hts.lexed t (hus.subset ht) fun hend => ?_
    have hin := h.inPhrase t.word hw
    rw [Token.word_kind, hend] at hin
    cases hin
  have hsource := Expr.count_le_count_guarded (d := d) e.source e.binding 1
  have hwords := h.count_source_le hd fun w hw => (hlexed w hw).isSpelled
  obtain ⟨front, back, rfl⟩ := hus
  simp only [List.map_append, chars_append, List.count_append]
  omega

/-- The tokens of a text have no character more often than the text. -/
theorem Token.count_chars_significant_le (d : Char) (source file : String) :
    (chars ((Token.significant source file).map Token.word)).count d ≤ source.toList.count d := by
  have hend : chars [endMark] = [] := rfl
  rw [significant_word, chars_append, hend, List.append_nil]
  exact (chars_words_sublist source.toList).count_le d

theorem Word.Firm.count_paren {name : String} (h : Word.Firm ⟨.identifier, name⟩) :
    name.toList.count '(' = 0 := by
  rw [List.count_eq_zero]
  intro hmem
  rcases h.text_cases rfl with ⟨hkind, -⟩ | ⟨hkind, -⟩ | ⟨-, c, cs, htext, hc, hcs⟩
  · cases hkind
  · cases hkind
  · rw [htext] at hmem
    rcases List.mem_cons.mp hmem with rfl | hmem
    · exact absurd hc (by decide)
    · exact absurd (List.all_eq_true.mp hcs _ hmem) (by decide)

namespace Grammar

/-- A text is read as an expression, places aside: from its first word on, with any levels left and
at any depth, or as a statement in the body of a function. -/
def IsReadAs (text : String) (e : Expr) : Prop :=
  (∃ file levelsLeft depth e' rest, e'.forget = e.forget ∧
    ExprGrammar.expression levelsLeft depth (Token.significant text file) = .ok e' rest) ∨
  ∃ name file limit body l e', e'.forget = e.forget ∧ Word.Firm ⟨.identifier, name⟩ ∧
    IsFunction (parse (inFunction name text) file limit) name body ∧ .effect l e' ∈ body

/-- An expression that is read in the body of a function has no more parentheses than the text that
was put there. -/
theorem IsFunction.count_source_le {name text file : String} {limit : Nat} {body : List Node}
    (h : IsFunction (parse (inFunction name text) file limit) name body)
    (hname : Word.Firm ⟨.identifier, name⟩) {l : Location} {e : Expr} (he : .effect l e ∈ body) :
    e.source.toList.count '(' ≤ text.toList.count '(' := by
  obtain ⟨-, l', l'', hbody⟩ := h
  have hcut := Token.isCut_significant (inFunction name text) file
  have hall := Token.count_chars_significant_le '(' (inFunction name text) file
  have hfunction := isTopLevelIn_of_mem_body (hbody ▸ List.mem_singleton_self _)
  cases hfunction with
  | @function _ _ _ _ _ hdeclared hps front back hts hparen hblock =>
      cases hblock with
      | block _ hstatements =>
          cases hstatements _ he with
          | effect _ hread =>
              -- One parenthesis stands in the header, in front of the body.
              obtain ⟨t, ht, hkind⟩ := hparen
              rw [hts] at hcut hall
              have hlexed := hcut.lexed t (by simp [ht]) (by rw [hkind]; decide)
              have htext : t.word.text = "(" := hlexed.text_eq (by rw [Token.word_kind, hkind]; rfl)
              have hfront : 0 < (chars (front.map Token.word)).count '(' := by
                refine List.count_pos_iff.mpr (List.mem_flatMap.mpr ?_)
                exact ⟨t.word, List.mem_map_of_mem ht, by rw [htext]; decide⟩
              obtain ⟨us, hus, -, hphrase⟩ := hread
              have hback := hphrase.count_source_le_tokens (d := '(') (by decide) hus
                (hcut.suffix (List.suffix_append front back))
              have hsketch : (inFunction name text).toList.count '(' =
                  text.toList.count '(' + 1 := by
                simp only [inFunction, String.toList_append, List.count_append, hname.count_paren]
                have hpieces : "void ".toList.count '(' = 0 ∧ "() \x7b ".toList.count '(' = 1 ∧
                  "; \x7d".toList.count '(' = 0 := by decide
                omega
              rw [List.map_append, chars_append, List.count_append, hsketch] at hall
              omega

/-- A text that is read as an expression has no fewer parentheses than the text that is written for
the expression. -/
theorem IsReadAs.count_source_le {text : String} {e : Expr} (h : IsReadAs text e) :
    e.source.toList.count '(' ≤ text.toList.count '(' := by
  rcases h with ⟨file, levelsLeft, depth, e', rest, he', hok⟩ |
    ⟨name, file, limit, body, l, e', he', hname, hfunction, hmem⟩
  · obtain ⟨us, hts, hphrase⟩ := ExprGrammar.expression_sound levelsLeft depth _ e' rest hok
    have hus : us <:+: Token.significant text file := hts ▸ (List.prefix_append us rest).isInfix
    rw [← Expr.source_forget, ← he', Expr.source_forget]
    exact Nat.le_trans
      (hphrase.count_source_le_tokens (by decide) hus (Token.isCut_significant text file))
      (Token.count_chars_significant_le '(' text file)
  · rw [← Expr.source_forget, ← he', Expr.source_forget]
    exact hfunction.count_source_le hname hmem

end Grammar

/-- When a pair of parentheses is taken out of the text of an expression, what is left is not read
as the expression.  That is so for the parentheses of a group, which the text has only around an
operand that binds looser than its place, as for any others. -/
theorem Expr.source_parens_needed {e : Expr} {front inside back : String}
    (h : e.source = front ++ "(" ++ inside ++ ")" ++ back) :
    ¬ Grammar.IsReadAs (front ++ inside ++ back) e := by
  intro hread
  have hle := hread.count_source_le
  have hparens : "(".toList.count '(' = 1 ∧ ")".toList.count '(' = 0 := by decide
  rw [h] at hle
  simp only [String.toList_append, List.count_append] at hle
  omega

/-- A product of a sum, whose text is read as it, and is not without the parentheses. -/
theorem Expr.source_parens_needed_product :
    ∃ e : Expr, e.source = "x = " ++ "(" ++ "a + b" ++ ")" ++ " * c" ∧
      Grammar.IsReadAs "x = (a + b) * c" e ∧
      ¬ Grammar.IsReadAs ("x = " ++ "a + b" ++ " * c") e := by
  have hfound : (match ExprGrammar.expression 32 0
      (Token.significant "x = (a + b) * c" "s.ino") with
      | .ok e _ => e.source == "x = (a + b) * c"
      | .error _ _ => false) = true := by
    decide +kernel
  cases hrun : ExprGrammar.expression 32 0 (Token.significant "x = (a + b) * c" "s.ino") with
  | error stop rest =>
      rw [hrun] at hfound
      cases hfound
  | ok e rest =>
      rw [hrun, beq_iff_eq] at hfound
      have hsource : e.source = "x = " ++ "(" ++ "a + b" ++ ")" ++ " * c" :=
        hfound.trans (by decide)
      exact ⟨e, hsource, Or.inl ⟨"s.ino", 32, 0, e, rest, rfl, hrun⟩,
        Expr.source_parens_needed hsource⟩

end InoBlocks
