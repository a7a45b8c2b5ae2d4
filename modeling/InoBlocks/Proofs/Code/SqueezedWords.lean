import InoBlocks.Proofs.Check.Spacing
import InoBlocks.Proofs.Token.Front
import InoBlocks.Proofs.Token.Marks
import InoBlocks.Proofs.Token.Places

/-!
# Words of a squeezed text

Squeezing a text takes out blanks between two of its line feeds.  No word but a literal goes on over
a line feed, so the words of the text stay as they are, and of a literal all but the blanks in it.
So the words say the same about names.
-/

namespace InoBlocks

open Text

/-! ## Gaps between lines -/

/-- A text without some of its blanks, each of them behind a line feed, with only blanks in between,
and right in front of what is another one; `fed` says whether only blanks are behind the last line
feed. -/
inductive Tightened : (fed : Bool) → List Char → List Char → Prop where
  | nil {fed : Bool} : Tightened fed [] []
  | same {fed : Bool} (c : Char) {cs ds : List Char} : Tightened (c == '\n') cs ds →
      Tightened fed (c :: cs) (c :: ds)
  | drop {c : Char} {cs ds : List Char} : isBlank c = true → ds.head? = some '\n' →
      Tightened true cs ds → Tightened true (c :: cs) ds

namespace Tightened

variable {fed : Bool} {cs ds : List Char}

theorem refl (fed : Bool) (cs : List Char) : Tightened fed cs cs := by
  induction cs generalizing fed with
  | nil => exact .nil
  | cons c cs ih => exact .same c (ih _)

theorem behind_feed (h : Tightened false cs ds) : Tightened fed cs ds := by
  cases h with
  | nil => exact .nil
  | same c h => exact .same c h

/-- The text begins as before, or behind a line feed with another one. -/
theorem head?_eq (h : Tightened fed cs ds) :
    ds.head? = cs.head? ∨ fed = true ∧ ds.head? = some '\n' := by
  cases h with
  | nil | same => exact Or.inl rfl
  | drop _ hhead _ => exact Or.inr ⟨rfl, hhead⟩

/-- Behind anything but a line feed a text goes on as before. -/
theorem exists_same {c : Char} (h : Tightened false (c :: cs) ds) :
    ∃ ds', ds = c :: ds' ∧ Tightened (c == '\n') cs ds' := by
  cases h with
  | same c h => exact ⟨_, rfl, h⟩

theorem exists_append {front : List Char} (hfront : ∀ c ∈ front, isBlank c = false)
    (h : Tightened fed (front ++ cs) ds) : ∃ fed' ds', ds = front ++ ds' ∧ Tightened fed' cs ds' := by
  induction front generalizing fed ds with
  | nil => exact ⟨fed, ds, rfl, h⟩
  | cons c front ih =>
      obtain ⟨hc, hfront⟩ := List.forall_mem_cons.mp hfront
      cases h with
      | same c h =>
          obtain ⟨fed', ds', rfl, hrest⟩ := ih hfront h
          exact ⟨fed', ds', rfl, hrest⟩
      | drop hblank => rw [hc] at hblank; cases hblank

theorem append_left (front : List Char) (h : Tightened false cs ds) :
    Tightened fed (front ++ cs) (front ++ ds) := by
  induction front generalizing fed with
  | nil => exact h.behind_feed
  | cons c front ih => exact .same c ih

theorem drop_all {gap : List Char} (hgap : ∀ c ∈ gap, isBlank c = true)
    (hhead : ds.head? = some '\n') (h : Tightened true cs ds) : Tightened true (gap ++ cs) ds := by
  induction gap with
  | nil => exact h
  | cons c gap ih =>
      obtain ⟨hc, hgap⟩ := List.forall_mem_cons.mp hgap
      exact .drop hc hhead (ih hgap)

/-! ### Literals and comments end where they did -/

theorem drop_literal (quote : Char) (hquote : isBlank quote = false) (h : Tightened fed cs ds) :
    ∃ fed', Tightened fed' (cs.drop (Token.literalLength quote cs))
      (ds.drop (Token.literalLength quote ds)) := by
  induction hn : cs.length using Nat.strong_induction_on generalizing fed cs ds with
  | _ n ih =>
      subst hn
      cases h with
      | nil => exact ⟨fed, .nil⟩
      | @drop c cs ds hc hhead h =>
          have hslash : c ≠ '\\' := by rintro rfl; cases hc
          have hne : c ≠ quote := by rintro rfl; rw [hquote] at hc; cases hc
          rw [Token.literalLength_cons hslash, if_neg hne]
          exact ih cs.length (by simp) h rfl
      | @same _ c cs ds h =>
          by_cases hslash : c = '\\'
          · subst hslash
            cases cs with
            | nil =>
                cases h
                exact ⟨true, .nil⟩
            | cons d cs =>
                obtain ⟨ds', rfl, hrest⟩ := h.exists_same
                have hshort : cs.length < ('\\' :: d :: cs).length := by
                  rw [List.length_cons, List.length_cons]
                  omega
                obtain ⟨fed', hrest⟩ := ih cs.length hshort hrest rfl
                exact ⟨fed', hrest⟩
          · rw [Token.literalLength_cons hslash, Token.literalLength_cons hslash]
            split
            · exact ⟨_, h⟩
            · exact ih cs.length (by simp) h rfl

theorem drop_line (h : Tightened false cs ds) :
    Tightened false (cs.dropWhile (· != '\n')) (ds.dropWhile (· != '\n')) := by
  induction cs generalizing ds with
  | nil =>
      cases h
      exact .nil
  | cons c cs ih =>
      obtain ⟨ds', rfl, hrest⟩ := h.exists_same
      by_cases hc : c = '\n'
      · subst hc
        exact .same '\n' hrest
      · have hne : (c != '\n') = true := by simpa using hc
        rw [beq_eq_false_iff_ne.mpr hc] at hrest
        simp only [List.dropWhile_cons, hne, if_true]
        exact ih hrest

theorem drop_block (h : Tightened fed cs ds) :
    ∃ fed', Tightened fed' (cs.drop (Token.commentLength cs))
      (ds.drop (Token.commentLength ds)) := by
  have hstep : ∀ c (cs : List Char), ¬ (c = '*' ∧ cs.head? = some '/') →
      Token.commentLength (c :: cs) = Token.commentLength cs + 1 := by
    intro c cs hne
    rw [Token.commentLength.eq_def]
    split
    · contradiction
    · rename_i heq
      obtain ⟨rfl, rfl⟩ := List.cons.inj heq
      exact absurd ⟨rfl, rfl⟩ hne
    · rename_i heq
      rw [(List.cons.inj heq).2]
  induction h with
  | nil => exact ⟨false, .nil⟩
  | @drop c cs ds hc hhead h ih =>
      rw [hstep c cs (by rintro ⟨rfl, -⟩; cases hc)]
      exact ih
  | @same _ c cs ds h ih =>
      by_cases hend : c = '*' ∧ cs.head? = some '/'
      · obtain ⟨rfl, hhead⟩ := hend
        cases cs with
        | nil => cases hhead
        | cons d cs =>
            obtain rfl := Option.some.inj hhead
            obtain ⟨ds', rfl, hrest⟩ := h.exists_same
            exact ⟨_, hrest⟩
      · have hend' : ¬ (c = '*' ∧ ds.head? = some '/') := by
          rintro ⟨rfl, hhead⟩
          rcases h.head?_eq with heq | ⟨hfed, -⟩
          · exact hend ⟨rfl, heq ▸ hhead⟩
          · cases hfed
        rw [hstep c cs hend, hstep c ds hend']
        exact ih

theorem exists_comment {c : Char} {more : Nat} (h : Tightened (c == '\n') cs ds)
    (hscan : Token.scan c cs = some (.comment, more)) :
    ∃ more', Token.scan c ds = some (.comment, more') ∧
      ∃ fed', Tightened fed' (cs.drop more) (ds.drop more') := by
  have hline : ∀ us : List Char,
      us.drop (us.takeWhile (· != '\n')).length = us.dropWhile (· != '\n') := by
    intro us
    have hall := List.takeWhile_append_dropWhile (p := (· != '\n')) (l := us)
    have hdrop := congrArg (List.drop (us.takeWhile (· != '\n')).length) hall
    rwa [List.drop_left, eq_comm] at hdrop
  obtain ⟨rest, ⟨htext, rfl⟩ | ⟨htext, rfl⟩⟩ := Token.scan_comment hscan <;>
    obtain ⟨rfl, rfl⟩ := List.cons.inj htext <;> obtain ⟨ds', rfl, hrest⟩ := h.exists_same
  · refine ⟨(ds'.takeWhile (· != '\n')).length + 1, by rw [Token.scan], false, ?_⟩
    rw [List.drop_succ_cons, List.drop_succ_cons, hline, hline]
    exact hrest.drop_line
  · refine ⟨Token.commentLength ds' + 1, by rw [Token.scan], ?_⟩
    rw [List.drop_succ_cons, List.drop_succ_cons]
    exact hrest.drop_block

end Tightened

/-! ## The words of both texts -/

namespace Word

def IsLike (w v : Word) : Prop :=
  w.kind = v.kind ∧ (w.kind = .string ∨ w.text = v.text)

theorem IsLike.mark?_eq {w v : Word} (h : IsLike w v) (typed : Bool) :
    w.mark? typed = v.mark? typed := by
  obtain ⟨kind, text⟩ := w
  obtain ⟨kind', text'⟩ := v
  obtain ⟨hkind, htext⟩ := h
  obtain rfl : kind = kind' := hkind
  rcases htext with hstring | htext
  · obtain rfl : kind = .string := hstring
    rfl
  · obtain rfl : text = text' := htext
    rfl

/-- Words that are the same but for the texts of literals say the same about names. -/
theorem marks_eq_of_like {ws vs : List Word} (h : List.Forall₂ IsLike ws vs) (typed : Bool) :
    marks typed ws = marks typed vs := by
  induction h generalizing typed with
  | nil => rfl
  | cons hw _ ih => rw [marks, marks, hw.mark?_eq, hw.1, ih]

/-- A token that is neither a literal nor a comment has no blank in it. -/
theorem not_isBlank_of_scan {c : Char} {cs : List Char} {kind : TokenKind} {more : Nat}
    (h : Token.scan c cs = some (kind, more)) (hcomment : kind ≠ .comment)
    (hstring : kind ≠ .string) : ∀ d ∈ c :: cs.take more, isBlank d = false := by
  rcases Token.chars_of_scan h hcomment hstring with hchars | ⟨-, hsymbol⟩
  · intro d hd
    rcases hchars d hd with hname | rfl
    · exact not_isBlank_of_isNameChar hname
    · decide
  · have hsymbols : ∀ kind : TokenKind, ∀ s, kind.symbol? = some s →
        ∀ d ∈ s.toList, isBlank d = false := by
      intro kind s hs
      cases kind <;> cases hs <;> decide
    have hall := hsymbols kind _ hsymbol
    rwa [String.toList_ofList] at hall

/-- A text and the text without some blanks between its lines have the same words, but for the
texts of literals. -/
theorem like_words_of_tightened {fed : Bool} {cs ds : List Char} (h : Tightened fed cs ds) :
    List.Forall₂ IsLike (words cs) (words ds) := by
  induction hn : cs.length using Nat.strong_induction_on generalizing fed cs ds with
  | _ n ih =>
      subst hn
      cases h with
      | nil => exact .nil
      | @drop c cs ds hc hhead h =>
          have hskip : words (c :: cs) = words cs := by
            have hscan := Token.scan_of_unread (Token.unread_of_isBlank hc cs) fun d hd => Or.inl hd
            cases hlayout : Token.isLayout c with
            | true => exact words_layout hlayout cs
            | false => exact words_unread hlayout hscan
          rw [hskip]
          exact ih cs.length (by simp) h rfl
      | @same _ c cs ds h =>
          cases hlayout : Token.isLayout c with
          | true =>
              rw [words_layout hlayout, words_layout hlayout]
              exact ih cs.length (by simp) h rfl
          | false =>
              have hnext : ∀ {p : Char} {fed : Bool} {us vs : List Char}, Tightened fed us vs →
                  ∀ d ∈ vs.head?, us.head? = some d ∨ Token.joins p d = false := by
                intro p fed us vs h d hd
                rcases h.head?_eq with heq | ⟨-, hfeed⟩
                · exact Or.inl (heq ▸ hd)
                · obtain rfl := Option.some.inj (hfeed.symm.trans hd)
                  exact Or.inr (Token.joins_isLayout (by decide) p)
              cases hscan : Token.scan c cs with
              | none =>
                  have hnone := Token.scan_of_unread (Token.unread_of_scan hscan) (hnext h)
                  rw [words_unread hlayout hscan, words_unread hlayout hnone]
                  exact ih cs.length (by simp) h rfl
              | some cut =>
                  obtain ⟨kind, more⟩ := cut
                  have hshort : (cs.drop more).length < (c :: cs).length := by
                    rw [List.length_drop, List.length_cons]
                    omega
                  by_cases hcomment : kind = .comment
                  · subst hcomment
                    obtain ⟨more', hscan', fed', hrest⟩ := h.exists_comment hscan
                    rw [words_comment hlayout hscan, words_comment hlayout hscan']
                    exact ih _ hshort hrest rfl
                  · by_cases hstring : kind = .string
                    · subst hstring
                      obtain ⟨hquote, rfl⟩ := Token.scan_string hscan
                      have hblank : isBlank c = false := by rcases hquote with rfl | rfl <;> decide
                      obtain ⟨fed', hrest⟩ := h.drop_literal c hblank
                      rw [words_scan hlayout hscan hcomment,
                        words_scan hlayout (Token.scan_quote hquote ds) hcomment]
                      exact .cons ⟨rfl, Or.inl rfl⟩ (ih _ hshort hrest rfl)
                    · have hsolid := not_isBlank_of_scan hscan hcomment hstring
                      rw [← List.take_append_drop more cs] at h
                      obtain ⟨fed', ds', rfl, hrest⟩ :=
                        h.exists_append (List.forall_mem_cons.mp hsolid).2
                      have hfront := Token.scan_front hscan hcomment (fun h => absurd h hstring)
                        fun _ _ => hnext hrest
                      rw [words_scan hlayout hscan hcomment, ← List.cons_append,
                        read_front words hlayout hscan hcomment hfront]
                      exact .cons ⟨rfl, Or.inr rfl⟩ (ih _ hshort hrest rfl)

end Word

/-! ## Squeezed texts -/

namespace Code

theorem exists_first_feed {cs : List Char} (h : '\n' ∈ cs) :
    ∃ front back, cs = front ++ '\n' :: back ∧ ∀ c ∈ front, c ≠ '\n' := by
  induction cs with
  | nil => cases h
  | cons c cs ih =>
      by_cases hc : c = '\n'
      · exact ⟨[], cs, by rw [hc]; rfl, nofun⟩
      · obtain ⟨front, back, rfl, hfront⟩ := ih ((List.mem_cons.mp h).resolve_left (Ne.symm hc))
        exact ⟨c :: front, back, rfl, List.forall_mem_cons.mpr ⟨hc, hfront⟩⟩

/-- In a run of blanks only those between the first line feed and the last are taken out. -/
theorem tightened_squeezeRun {run : List Char}
    (hrun : ∀ c ∈ run, ∀ d ∈ run, isBlank c = isBlank d) {cs ds : List Char} {fed : Bool}
    (h : Tightened false cs ds) : Tightened fed (run ++ cs) (squeezeRun run ++ ds) := by
  unfold squeezeRun
  split
  · rename_i hfeeds
    obtain ⟨front, back, rfl, hfront⟩ :=
      exists_first_feed (List.count_pos_iff.mp (show 0 < run.count '\n' by omega))
    rw [List.count_append, List.count_cons_self, List.count_eq_zero.mpr fun h => hfront _ h rfl,
      ← List.count_reverse] at hfeeds
    obtain ⟨behind, middle, hback, hbehind⟩ :=
      exists_first_feed (List.count_pos_iff.mp (show 0 < back.reverse.count '\n' by omega))
    obtain rfl : back = middle.reverse ++ '\n' :: behind.reverse := by
      rw [← List.reverse_reverse back, hback]
      simp
    have htake : ∀ us vs : List Char, (∀ c ∈ us, c ≠ '\n') →
        (us ++ '\n' :: vs).takeWhile (· != '\n') = us := by
      intro us vs hus
      rw [List.takeWhile_append_of_pos fun c hc => by simpa using hus c hc]
      simp
    have hlast : ((front ++ '\n' :: (middle.reverse ++ '\n' :: behind.reverse)).reverse.takeWhile
        (· != '\n')) = behind := by
      simpa using htake behind (middle ++ '\n' :: front.reverse) hbehind
    have hmiddle : ∀ c ∈ middle.reverse, isBlank c = true := fun c hc =>
      (hrun c (by simp [List.mem_reverse.mp hc]) '\n' (by simp)).trans (by decide)
    rw [htake _ _ hfront, hlast]
    have hgap : Tightened true (middle.reverse ++ '\n' :: (behind.reverse ++ cs))
        ('\n' :: (behind.reverse ++ ds)) :=
      .drop_all hmiddle rfl (.same '\n' (h.append_left behind.reverse))
    have hline : Tightened false ('\n' :: (middle.reverse ++ '\n' :: (behind.reverse ++ cs)))
        ('\n' :: '\n' :: (behind.reverse ++ ds)) := .same '\n' hgap
    have hall : Tightened fed _ _ := hline.append_left front
    simpa using hall
  · exact h.append_left run

/-- A squeezed text has the words of the text, but for the texts of literals. -/
theorem like_words_squeeze (cs ds : List Char) :
    List.Forall₂ Word.IsLike (Word.words (cs ++ ds)) (Word.words (squeeze cs ++ ds)) := by
  have hruns : ∀ runs : List (List Char),
      (∀ run ∈ runs, ∀ c ∈ run, ∀ d ∈ run, isBlank c = isBlank d) →
      Tightened false (runs.flatten ++ ds) (runs.flatMap squeezeRun ++ ds) := by
    intro runs hruns
    induction runs with
    | nil => exact .refl false ds
    | cons run runs ih =>
        obtain ⟨hrun, hruns⟩ := List.forall_mem_cons.mp hruns
        rw [List.flatten_cons, List.flatMap_cons, List.append_assoc, List.append_assoc]
        exact tightened_squeezeRun hrun (ih hruns)
  have htight := hruns (cs.splitBy fun a b => isBlank a == isBlank b) fun _ =>
    isBlank_eq_of_mem_splitBy
  rw [List.flatten_splitBy] at htight
  exact Word.like_words_of_tightened htight

theorem marks_squeeze (cs ds : List Char) :
    Word.marks false (Word.words (squeeze cs ++ ds)) = Word.marks false (Word.words (cs ++ ds)) :=
  (Word.marks_eq_of_like (like_words_squeeze cs ds) false).symm

end Code

end InoBlocks
