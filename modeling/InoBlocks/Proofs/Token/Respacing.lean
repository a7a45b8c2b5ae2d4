import InoBlocks.Proofs.Token.Tiling

/-!
# Writing the words of a text with single blanks

The words of a text, put one behind the other with a blank between neighbours, are read as the same
words.  A blank goes with no word, and every word in front of one is firm.  The last word need not
be: a literal that is left open takes in what follows, so nothing may follow it.
-/

namespace InoBlocks

namespace Token

theorem scan_alone {c : Char} {cs : List Char} {kind : TokenKind} {more : Nat}
    (h : scan c cs = some (kind, more)) (hkind : kind ≠ .comment) :
    scan c (cs.take more) = some (kind, more) := by
  by_cases hmore : more < cs.length
  · simpa using scan_take h hkind (fun _ => hmore) (Word.apart_nil _)
  · rwa [List.take_of_length_le (by omega)]

end Token

namespace Word

/-- Every word of a text is cut off the front of some suffix of it. -/
theorem cut_of_mem {skip : Nat} {cs : List Char} {w : Word} (hw : w ∈ wordsFrom skip cs) :
    ∃ c ds more, Token.isLayout c = false ∧ Token.scan c ds = some (w.kind, more) ∧
      w.text = String.ofList (c :: ds.take more) := by
  induction cs generalizing skip with
  | nil => cases hw
  | cons c cs ih =>
      cases skip with
      | succ skip => exact ih hw
      | zero =>
          simp only [wordsFrom] at hw
          cases hlay : Token.isLayout c with
          | true => exact ih (by simpa [hlay] using hw)
          | false =>
              cases hscan : Token.scan c cs with
              | none => exact ih (by simpa [hlay, hscan] using hw)
              | some cut =>
                  simp only [hlay, hscan, Bool.false_eq_true, ↓reduceIte, List.mem_cons] at hw
                  rcases hw with rfl | hw
                  · exact ⟨c, cs, cut.2, hlay, hscan, rfl⟩
                  · exact ih hw

theorem mem_words {cs : List Char} {w : Word} (h : w ∈ words cs) :
    w.kind ≠ .comment ∧ w.kind ≠ .endOfInput := by
  obtain ⟨hmem, hsignificant⟩ := List.mem_filter.mp h
  obtain ⟨c, ds, more, -, hscan, -⟩ := cut_of_mem hmem
  exact ⟨by simpa [isSignificant] using hsignificant, Token.scan_ne_end hscan⟩

/-- The words of a text are cut again by themselves. -/
theorem lexed_of_mem {cs : List Char} {w : Word} (hw : w ∈ words cs) : w.Lexed := by
  obtain ⟨kind, text⟩ := w
  obtain ⟨c, ds, more, hc, hscan, rfl⟩ := cut_of_mem (List.mem_filter.mp hw).1
  have hkind : kind ≠ .comment := (mem_words hw).1
  refine ⟨c, ds.take more, rfl, hc, hkind, ?_⟩
  rw [Token.scan_alone hscan hkind, List.length_take_of_le (Token.scan_le hscan hkind)]

/-- A word is read as itself if nothing stands around it. -/
def StandsAlone (w : Word) : Prop :=
  words w.text.toList = [w]

theorem Lexed.standsAlone {w : Word} (h : w.Lexed) : w.StandsAlone := by
  obtain ⟨kind, text⟩ := w
  obtain ⟨c, cs, rfl, hc, hkind, hscan⟩ := h
  unfold StandsAlone
  rw [String.toList_ofList, words_scan hc hscan hkind, List.drop_length, words_nil,
    List.take_length]

/-- Words that are firm, all but perhaps the last, and the last one can stand alone. -/
inductive Parted : List Word → Prop
  | nil : Parted []
  | last {w : Word} (h : w.StandsAlone) : Parted [w]
  | cons {w v : Word} {ws : List Word} (h : w.Firm) (hs : Parted (v :: ws)) : Parted (w :: v :: ws)

theorem parted_of_pairwise {ws : List Word} (hfirm : ws.Pairwise fun w _ => w.Firm)
    (halone : ∀ w ∈ ws, w.StandsAlone) : Parted ws := by
  induction ws with
  | nil => exact .nil
  | cons w ws ih =>
      obtain ⟨hw, hws⟩ := List.pairwise_cons.mp hfirm
      cases ws with
      | nil => exact .last (halone w (by simp))
      | cons v ws => exact .cons (hw v (by simp)) (ih hws fun u hu => halone u (by simp [hu]))

theorem runsOn_blank {kind : TokenKind} (h : kind ≠ .comment) (hend : kind ≠ .endOfInput) :
    kind.runsOn ' ' = false := by
  cases kind <;> first | rfl | contradiction

/-- By induction on the words: a firm one and the blank behind it are read by themselves. -/
theorem words_intercalate {ws : List Word} (h : Parted ws)
    (hkind : ∀ w ∈ ws, w.kind ≠ .comment ∧ w.kind ≠ .endOfInput) :
    words (" ".intercalate (ws.map Word.text)).toList = ws := by
  induction h with
  | nil => rfl
  | @last w h => simpa [StandsAlone] using h
  | @cons w v ws h hs ih =>
      have hblank : w.kind.runsOn ' ' = false :=
        runsOn_blank (hkind w (by simp)).1 (hkind w (by simp)).2
      have hrest := ih fun u hu => hkind u (by simp [hu])
      have htext : (" ".intercalate ((w :: v :: ws).map Word.text)).toList =
          w.text.toList ++ ' ' :: (" ".intercalate ((v :: ws).map Word.text)).toList := by
        simp
      rw [htext, h.readsAs _ (apart_cons hblank _), words_layout (by decide), hrest]
      rfl

theorem parted_words (cs : List Char) : Parted (words cs) := by
  have hsteady := Token.steady_significant (String.ofList cs) ""
  have hpairs : (words cs ++ [endMark]).Pairwise
      fun w v => w.kind ≠ .comment → v.kind ≠ .endOfInput → w.Firm := by
    have hwords := significant_word (String.ofList cs) ""
    rw [String.toList_ofList] at hwords
    rw [← hwords, List.pairwise_map]
    exact hsteady
  apply parted_of_pairwise
  · apply (List.pairwise_append.mp hpairs).1.imp_of_mem
    intro w v hw hv hfirm
    exact hfirm (mem_words hw).1 (mem_words hv).2
  · exact fun w hw => (lexed_of_mem hw).standsAlone

end Word

namespace Token

/-- The texts of tokens with a blank between neighbours.  The mark at the end has no text. -/
def respaced (ts : List Token) : String :=
  " ".intercalate ((ts.filter fun t => t.kind != .endOfInput).map text)

theorem texts_significant (source file : String) :
    ((significant source file).filter fun t => t.kind != .endOfInput).map text =
      (Word.words source.toList).map Word.text := by
  have hmap : ((significant source file).filter fun t => t.kind != .endOfInput).map word =
      ((significant source file).map word).filter fun w => w.kind != .endOfInput := by
    rw [List.filter_map]
    rfl
  have hall : (Word.words source.toList).filter (fun w => w.kind != .endOfInput) =
      Word.words source.toList :=
    List.filter_eq_self.mpr fun w hw => by simpa using (Word.mem_words hw).2
  rw [Word.significant_word, List.filter_append, hall] at hmap
  simpa [Function.comp_def, Word.endMark] using congrArg (List.map Word.text) hmap

/-- The text made of the words of a text has the same words. -/
theorem words_respaced (source file : String) :
    Word.words (respaced (significant source file)).toList = Word.words source.toList := by
  rw [respaced, texts_significant]
  exact Word.words_intercalate (Word.parted_words _) fun w hw => Word.mem_words hw

end Token

end InoBlocks
