import InoBlocks.Proofs.Token.Firm
import Mathlib.Data.List.Induction

/-!
# Where tokens stand

The tokens of a text lie in it one behind the other, each spelled as the text is where it stands.
Every character outside of them is layout or one that no rule reads.  The proof walks over the text
as the lexer does: `TilesFrom` says all this from some place on, and a character that is passed
over or a token that is cut moves the place back to the front.
-/

namespace InoBlocks

namespace Cursor

/-- The column behind a text: the distance from its last line feed, or from one in front of it. -/
def columnAfter (cs : List Char) : Nat :=
  (cs.reverse.takeWhile (· != '\n')).length + 1

theorem advanceAll_start (cs : List Char) :
    start.advanceAll cs = ⟨cs.length, cs.count '\n' + 1, columnAfter cs⟩ := by
  induction cs using List.reverseRecOn with
  | nil => rfl
  | append_singleton cs c ih =>
      rw [advanceAll_append, ih, advanceAll_cons, advanceAll_nil, advance]
      by_cases hc : c = '\n'
      · simp [hc, columnAfter]
      · simp [hc, columnAfter]

end Cursor

namespace Token

/-! ## How far a token reaches -/

theorem commentLength_le (cs : List Char) : commentLength cs ≤ cs.length := by
  fun_induction commentLength cs with
  | case1 => simp
  | case2 => simp
  | case3 c cs _ ih => simpa using ih

/-- A comment runs to the end of its line, or to its closing mark. -/
theorem scan_comment {c : Char} {cs : List Char} {more : Nat}
    (h : scan c cs = some (.comment, more)) :
    ∃ rest, (c :: cs = '/' :: '/' :: rest ∧ more = (rest.takeWhile (· != '\n')).length + 1) ∨
      (c :: cs = '/' :: '*' :: rest ∧ more = commentLength rest + 1) := by
  by_cases hopen : opensComment (c :: cs) = true
  · unfold scan at h
    split at h
    · rename_i rest
      simp only [Option.some.injEq, Prod.mk.injEq, true_and] at h
      exact ⟨rest, Or.inl ⟨rfl, h.symm⟩⟩
    · rename_i rest
      simp only [Option.some.injEq, Prod.mk.injEq, true_and] at h
      exact ⟨rest, Or.inr ⟨rfl, h.symm⟩⟩
    · rename_i hline hblock
      unfold opensComment at hopen
      split at hopen
      · rename_i d rest heq
        obtain ⟨rfl, rfl⟩ := List.cons.inj heq
        simp only [Bool.or_eq_true, beq_iff_eq] at hopen
        rcases hopen with rfl | rfl
        · exact (hline rest rfl rfl).elim
        · exact (hblock rest rfl rfl).elim
      · cases hopen
  · rw [scan_of_not_opensComment (by simpa using hopen)] at h
    split at h
    · cases h
    · split at h
      · cases h
      · split at h
        · exact absurd (Prod.mk.inj (Option.some.inj h)).1 (TokenKind.ofWord_ne_comment _)
        · cases symbol?_of_scanOperator h

theorem scan_comment_le {c : Char} {cs : List Char} {more : Nat}
    (h : scan c cs = some (.comment, more)) : more ≤ cs.length := by
  obtain ⟨rest, ⟨htext, rfl⟩ | ⟨htext, rfl⟩⟩ := scan_comment h
  · obtain ⟨-, rfl⟩ := List.cons.inj htext
    have hline := (List.takeWhile_prefix (l := rest) (· != '\n')).length_le
    simp only [List.length_cons]
    omega
  · obtain ⟨-, rfl⟩ := List.cons.inj htext
    have hblock := commentLength_le rest
    simp only [List.length_cons]
    omega

theorem scan_le_length {c : Char} {cs : List Char} {kind : TokenKind} {more : Nat}
    (h : scan c cs = some (kind, more)) : more ≤ cs.length := by
  by_cases hkind : kind = .comment
  · subst hkind
    exact scan_comment_le h
  · exact scan_le h hkind

theorem scan_ne_end {c : Char} {cs : List Char} {kind : TokenKind} {more : Nat}
    (h : scan c cs = some (kind, more)) : kind ≠ .endOfInput := by
  rintro rfl
  rcases scan_cases h (by decide) with ⟨-, hk, -⟩ | ⟨-, hk, -⟩ | ⟨-, hk, -⟩ | ⟨-, -, hop⟩
  · cases hk
  · cases hk
  · have hruns := TokenKind.runsOn_ofWord (String.ofList (c :: cs.take more))
    rw [← hk] at hruns
    exact absurd (congrFun hruns ' ') (by decide)
  · cases symbol?_of_scanOperator hop

/-! ## Characters that are passed over -/

/-- No rule of the lexer reads a character in front of a text. -/
structure Unread (c : Char) (rest : List Char) : Prop where
  quote : c ≠ '"' ∧ c ≠ '\''
  digit : c.isDigit = false
  name : Text.isNameStart c = false
  pair : ∀ d, rest.head? = some d → TokenKind.ofPair? c d = none
  single : TokenKind.ofChar? c = none

theorem unread_of_scan {c : Char} {cs : List Char} (h : scan c cs = none) : Unread c cs := by
  have hopen : opensComment (c :: cs) = false := by
    unfold scan at h
    split at h
    · cases h
    · cases h
    · rename_i hline hblock
      unfold opensComment
      split
      · rename_i d rest heq
        obtain ⟨rfl, rfl⟩ := List.cons.inj heq
        have hne : d ≠ '/' ∧ d ≠ '*' :=
          ⟨by rintro rfl; exact hline rest rfl rfl, by rintro rfl; exact hblock rest rfl rfl⟩
        simp [hne]
      · rfl
  rw [scan_of_not_opensComment hopen] at h
  split at h
  · cases h
  · rename_i hquote
    split at h
    · cases h
    · rename_i hdigit
      split at h
      · cases h
      · rename_i hname
        unfold scanOperator at h
        split at h
        · cases h
        · rename_i hpair
          refine ⟨by simpa using hquote, by simpa using hdigit, by simpa using hname, ?_, ?_⟩
          · intro d hd
            simpa [hd] using hpair
          · simpa using h

/-! ## Tokens in a text -/

/-- A token stands in a text where it says it does, and is spelled as the text is there. -/
structure Placed (file : String) (cs : List Char) (t : Token) : Prop where
  start_le : t.start ≤ t.stop
  stop_le : t.stop ≤ cs.length
  text : t.text.toList = (cs.drop t.start).take (t.stop - t.start)
  file : t.location.file = file
  line : t.location.line = (cs.take t.start).count '\n' + 1
  column : t.location.column = Cursor.columnAfter (cs.take t.start)

/-- Whether a token takes in the character at an offset. -/
def Covers (t : Token) (i : Nat) : Prop := t.start ≤ i ∧ i < t.stop

/-- Tokens lie in a text from an offset on: one behind the other, the last one at its end, and
nothing is left between them that could be read. -/
structure TilesFrom (file : String) (cs : List Char) (n : Nat) (ts : List Token) : Prop where
  placed : ∀ t ∈ ts, Placed file cs t ∧ n ≤ t.start
  ordered : ts.Pairwise fun t u => t.stop ≤ u.start
  ended : ∃ us p, ts = us ++ [endAt p file] ∧ p.offset = cs.length ∧
    ∀ t ∈ us, t.kind ≠ .endOfInput ∧ t.start < t.stop
  between : ∀ i, (hi : i < cs.length) → n ≤ i → (∀ t ∈ ts, ¬ Covers t i) →
    isLayout cs[i] = true ∨ Unread cs[i] (cs.drop (i + 1))

variable {file : String} {cs : List Char} {n : Nat} {ts : List Token}

theorem placed_endAt (file : String) (cs : List Char) :
    Placed file cs (endAt (Cursor.start.advanceAll cs) file) := by
  rw [Cursor.advanceAll_start]
  exact ⟨Nat.le_refl _, Nat.le_refl _, by simp [endAt], rfl, by simp [endAt, Cursor.toLocation],
    by simp [endAt, Cursor.toLocation]⟩

theorem placed_cutAt (file : String) (before : List Char) (kind : TokenKind) (c : Char)
    {cs : List Char} {more : Nat} (hmore : more ≤ cs.length) :
    Placed file (before ++ c :: cs)
      (cutAt file (Cursor.start.advanceAll before) kind c cs more) := by
  rw [Cursor.advanceAll_start]
  have hlength : (c :: cs.take more).length = more + 1 := by simp [hmore]
  have hstop : before.length + (c :: cs.take more).length ≤ (before ++ c :: cs).length := by
    rw [hlength]
    simp only [List.length_append, List.length_cons]
    omega
  refine ⟨Nat.le_add_right _ _, hstop, ?_, rfl, ?_, ?_⟩
  · simp [cutAt, hmore]
  · simp [cutAt, Cursor.toLocation]
  · simp [cutAt, Cursor.toLocation]

theorem tilesFrom_end (file : String) (cs : List Char) :
    TilesFrom file cs cs.length [endAt (Cursor.start.advanceAll cs) file] := by
  have hoffset : (Cursor.start.advanceAll cs).offset = cs.length := by rw [Cursor.advanceAll_start]
  refine ⟨?_, List.pairwise_singleton _ _, ⟨[], _, rfl, hoffset, by simp⟩, ?_⟩
  · intro t ht
    obtain rfl := List.mem_singleton.mp ht
    exact ⟨placed_endAt file cs, Nat.le_of_eq hoffset.symm⟩
  · intro i hi hn
    omega

theorem TilesFrom.passOver (h : TilesFrom file cs (n + 1) ts)
    (hn : ∀ hi : n < cs.length, isLayout cs[n] = true ∨ Unread cs[n] (cs.drop (n + 1))) :
    TilesFrom file cs n ts := by
  refine ⟨fun t ht => ⟨(h.placed t ht).1, ?_⟩, h.ordered, h.ended, ?_⟩
  · have hstart := (h.placed t ht).2
    omega
  · intro i hi hle hcovers
    by_cases heq : n = i
    · subst heq
      exact hn hi
    · exact h.between i hi (by omega) hcovers

theorem TilesFrom.cut {t : Token} (h : TilesFrom file cs t.stop ts) (ht : Placed file cs t)
    (hkind : t.kind ≠ .endOfInput) (hlt : t.start < t.stop) :
    TilesFrom file cs t.start (t :: ts) := by
  obtain ⟨us, p, hts, hp, hus⟩ := h.ended
  refine ⟨?_, List.pairwise_cons.mpr ⟨fun u hu => (h.placed u hu).2, h.ordered⟩,
    ⟨t :: us, p, by rw [hts, List.cons_append], hp, ?_⟩, ?_⟩
  · intro u hu
    rcases List.mem_cons.mp hu with rfl | hu
    · exact ⟨ht, Nat.le_refl _⟩
    · have hstart := (h.placed u hu).2
      exact ⟨(h.placed u hu).1, by omega⟩
  · intro u hu
    rcases List.mem_cons.mp hu with rfl | hu
    · exact ⟨hkind, hlt⟩
    · exact hus u hu
  · intro i hi hle hcovers
    have houtside : ¬ Covers t i := hcovers t List.mem_cons_self
    unfold Covers at houtside
    exact h.between i hi (by omega) fun u hu => hcovers u (List.mem_cons_of_mem t hu)

/-- The invariant of the lexer: behind the text `before`, and behind the characters of the token
that was cut last, the tokens of the rest lie in the whole text. -/
theorem tilesFrom_tokensFrom (file : String) (before cs : List Char) (skip : Nat)
    (hskip : skip ≤ cs.length) :
    TilesFrom file (before ++ cs) (before.length + skip)
      (tokensFrom file true (Cursor.start.advanceAll before) skip cs) := by
  induction cs generalizing before skip with
  | nil =>
      obtain rfl : skip = 0 := by simpa using hskip
      simpa [tokensFrom] using tilesFrom_end file before
  | cons c cs ih =>
      have hnext : (Cursor.start.advanceAll before).advance c =
          Cursor.start.advanceAll (before ++ [c]) := by
        rw [Cursor.advanceAll_append, Cursor.advanceAll_cons, Cursor.advanceAll_nil]
      have htext : before ++ [c] ++ cs = before ++ c :: cs := by simp
      have hrest : ∀ skip ≤ cs.length, TilesFrom file (before ++ c :: cs)
          (before.length + 1 + skip)
          (tokensFrom file true ((Cursor.start.advanceAll before).advance c) skip cs) := by
        intro skip hskip
        simpa [hnext, htext] using ih (before ++ [c]) skip hskip
      have hhere : ∀ hi : before.length < (before ++ c :: cs).length,
          (before ++ c :: cs)[before.length] = c := by simp
      have hbehind : (before ++ c :: cs).drop (before.length + 1) = cs := by simp
      cases skip with
      | succ skip =>
          have hskip' : skip ≤ cs.length := by simpa using hskip
          have h := hrest skip hskip'
          rwa [show before.length + (skip + 1) = before.length + 1 + skip by omega]
      | zero =>
          simp only [tokensFrom, Bool.true_or, ↓reduceIte]
          cases hlay : isLayout c with
          | true => exact (hrest 0 (Nat.zero_le _)).passOver fun hi => Or.inl (by rw [hhere, hlay])
          | false =>
              cases hscan : scan c cs with
              | none =>
                  refine (hrest 0 (Nat.zero_le _)).passOver fun hi => Or.inr ?_
                  rw [hhere, hbehind]
                  exact unread_of_scan hscan
              | some cut =>
                  obtain ⟨kind, more⟩ := cut
                  have hmore := scan_le_length hscan
                  have hlength : (c :: cs.take more).length = more + 1 := by simp [hmore]
                  have hoffset : (Cursor.start.advanceAll before).offset = before.length := by
                    rw [Cursor.advanceAll_start]
                  let t := cutAt file (Cursor.start.advanceAll before) kind c cs more
                  have hstop : t.stop = before.length + 1 + more := by
                    simp only [t, cutAt, hoffset, hlength]
                    omega
                  have hbehind := hrest more hmore
                  rw [← hstop] at hbehind
                  have hcut := TilesFrom.cut hbehind (placed_cutAt file before kind c hmore)
                    (scan_ne_end hscan) (by simp only [t, cutAt, hlength]; omega)
                  simpa only [t, cutAt, hoffset, Nat.add_zero, Bool.false_eq_true,
                    ↓reduceIte] using hcut

/-- The tokens of a sketch tile its text, and its significant tokens are all of them but the
comments. -/
theorem tokenize_tiles (source file : String) :
    TilesFrom file source.toList 0 (tokenize source file) ∧
      significant source file = (tokenize source file).filter isSignificant := by
  refine ⟨?_, significant_eq_filter source file⟩
  simpa [tokenize, Cursor.advanceAll_nil] using
    tilesFrom_tokensFrom file [] source.toList 0 (Nat.zero_le _)

end Token

end InoBlocks
