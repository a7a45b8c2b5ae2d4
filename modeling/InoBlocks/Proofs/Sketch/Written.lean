import InoBlocks.Proofs.Sketch.Characters
import InoBlocks.Proofs.Sketch.PhraseUnique
import InoBlocks.Proofs.Sketch.ProperSketch
import Mathlib.Data.List.Chain

/-!
# Words as they are written

The text of an expression is read as words that tell the expression, places aside, even where a
member is taken of a number.  All its line feeds stand inside of words.
-/

namespace InoBlocks

open Word

/-! ## Texts whose line feeds are in their words -/

namespace Word

/-- A text that is read as some words, all its line feeds inside of them. -/
structure WrittenOut (cs : List Char) (ws : List Word) (runsOn : Char → Bool) : Prop where
  reads : ReadsAs cs ws runsOn
  feeds : cs.count '\n' ≤ (chars ws).count '\n'

namespace WrittenOut

variable {cs ds : List Char} {ws vs : List Word} {runsOn runsOn' : Char → Bool}

theorem append_cons {d : Char} (h : WrittenOut cs ws runsOn) (h' : WrittenOut (d :: ds) vs runsOn')
    (hd : runsOn d = false) : WrittenOut (cs ++ d :: ds) (ws ++ vs) runsOn' := by
  refine ⟨h.reads.append_cons h'.reads hd, ?_⟩
  rw [List.count_append, chars_append, List.count_append]
  exact Nat.add_le_add h.feeds h'.feeds

theorem seq (h : WrittenOut cs ws fun _ => false) (h' : WrittenOut ds vs runsOn') :
    WrittenOut (cs ++ ds) (ws ++ vs) runsOn' := by
  refine ⟨h.reads.seq h'.reads, ?_⟩
  rw [List.count_append, chars_append, List.count_append]
  exact Nat.add_le_add h.feeds h'.feeds

theorem mono (hle : ∀ d, runsOn d = true → runsOn' d = true) (h : WrittenOut cs ws runsOn) :
    WrittenOut cs ws runsOn' :=
  ⟨h.reads.mono hle, h.feeds⟩

theorem ofAlone (h : WrittenOut cs ws fun _ => false) (runsOn : Char → Bool) :
    WrittenOut cs ws runsOn :=
  h.mono fun _ hd => absurd hd Bool.false_ne_true

theorem nil (runsOn : Char → Bool) : WrittenOut [] [] runsOn :=
  ⟨fun _ _ => rfl, Nat.le_refl 0⟩

theorem blanks {gap : List Char} (h : ∀ c ∈ gap, c = ' ') : WrittenOut gap [] fun _ => false := by
  refine ⟨.layout (List.all_eq_true.mpr fun c hc => by rw [h c hc]; decide) _, ?_⟩
  refine Nat.le_of_eq (List.count_eq_zero.mpr fun hmem => ?_)
  exact absurd (h _ hmem) (by decide)

theorem blank (h : WrittenOut cs ws runsOn) (hblank : runsOn ' ' = false) :
    WrittenOut (cs ++ [' ']) ws fun _ => false := by
  have hone : WrittenOut [' '] [] fun _ => false := blanks (by simp)
  have hgap := h.append_cons hone hblank
  rwa [List.append_nil] at hgap

theorem word {w : Word} (h : w.Firm) : WrittenOut w.text.toList [w] w.kind.runsOn :=
  ⟨h.readsAs, by simp⟩

theorem symbol (kind : TokenKind) {text : String} (h : kind.symbol? = some text) :
    WrittenOut text.toList [Word.symbol kind] kind.runsOn :=
  ⟨readsAs_symbol kind h, by simp [symbol_eq h]⟩

theorem colon : WrittenOut [':'] [] fun _ => false := by
  refine ⟨fun rest _ => ?_, by decide⟩
  have hscan : Token.scan ':' rest = none := by
    rw [Token.scan_other (by decide) (Token.opensComment_of_ne (by decide) rest)]
    cases rest <;> rfl
  exact words_unread (by decide) hscan

theorem closed (h : WrittenOut cs ws (tail true)) :
    WrittenOut (cs ++ [')']) (ws ++ [Word.symbol .rightParen]) fun _ => false :=
  h.append_cons (.symbol .rightParen rfl) (by decide)

theorem ended (h : WrittenOut cs ws (tail true)) :
    WrittenOut (cs ++ [';', ' ']) (ws ++ [Word.symbol .semicolon]) fun _ => false :=
  h.append_cons ((WrittenOut.symbol .semicolon rfl).blank rfl) (by decide)

end WrittenOut

end Word

/-! ## Expressions -/

namespace Word

def NumbersApart (ws : List Word) : Prop :=
  ws.IsChain fun v w => v.kind = .number → w.kind ≠ .identifier

theorem NumbersApart.infixed {us vs : List Word} {w : Word} (h : NumbersApart us)
    (h' : NumbersApart vs) (hnumber : w.kind ≠ .number) (hname : w.kind ≠ .identifier) :
    NumbersApart (us ++ w :: vs) := by
  refine List.isChain_append.mpr ⟨h, ?_, fun x _ y hy => ?_⟩
  · exact List.isChain_cons.mpr ⟨fun y _ hw => absurd hw hnumber, h'⟩
  · rw [List.head?_cons, Option.mem_some_iff] at hy
    exact hy ▸ fun _ => hname

end Word

/-- In a phrase there is something between a number and a name. -/
theorem Phrase.numbersApart {n : Nat} {ws : List Word} {e : Expr} (h : Phrase n ws e) :
    NumbersApart ws := by
  have hnil : NumbersApart [] := .nil
  have hjoins : ∀ {w : Word} {us vs : List Word}, w.kind.joins ≠ 0 → NumbersApart us →
      NumbersApart vs → NumbersApart (us ++ w :: vs) := by
    intro w us vs hw hus hvs
    refine hus.infixed hvs ?_ ?_ <;> intro hkind <;> rw [hkind] at hw <;> exact hw rfl
  have hclosed : ∀ {w : Word} {us vs : List Word}, w.kind = .leftParen ∨ w.kind = .rightParen ∨
      w.kind = .comma → NumbersApart us → NumbersApart vs → NumbersApart (us ++ w :: vs) := by
    rintro w us vs (hw | hw | hw) hus hvs <;>
      exact hus.infixed hvs (by rw [hw]; decide) (by rw [hw]; decide)
  induction h with
  | name | pin | number | string | constant => exact .singleton _
  | @group left right ws e hleft hright _ ih =>
      exact show NumbersApart ([] ++ left :: (ws ++ [right])) from
        hclosed (Or.inl hleft) hnil (hclosed (Or.inr (Or.inl hright)) ih hnil)
  | member l hdot _ _ ih => exact hjoins (by rw [hdot]; decide) ih (.singleton _)
  | @call l left right us vs e arguments hleft hright _ hlist hitems ih ihs =>
      have hlisted : NumbersApart vs := by
        clear hitems
        induction hlist with
        | none => exact hnil
        | one a => exact ihs a List.mem_cons_self
        | more a b hcomma _ ihlist =>
            exact hclosed (Or.inr (Or.inr hcomma)) (ihs a List.mem_cons_self)
              (ihlist fun c hc => ihs c (List.mem_cons_of_mem a hc))
      rw [List.append_assoc]
      exact hclosed (Or.inl hleft) ih (hclosed (Or.inr (Or.inl hright)) hlisted hnil)
  | step l hop _ ih => exact hjoins (by rw [TokenKind.joins_of_isTrailing hop]; decide) ih hnil
  | @leading l op ws e hop _ ih =>
      refine hnil.infixed ih ?_ ?_ <;> intro hkind <;> rw [hkind] at hop <;> cases hop
  | binary l hlow _ hop _ _ iha ihb => exact hjoins (by omega) iha ihb
  | assign l hop _ _ iha ihb =>
      exact hjoins (by rw [TokenKind.joins_of_isAssignment hop]; decide) iha ihb
  | loosen _ _ ih => exact ih

namespace Word.Joined

variable {allowed : Prop} {us vs ws : List Word}

theorem exists_cons {w : Word} (h : Joined allowed us (w :: vs)) (hw : w.kind ≠ .number) :
    ∃ us', us = w :: us' ∧ Joined allowed us' vs := by
  cases h with
  | cons _ h => exact ⟨_, rfl, h⟩
  | point => exact absurd rfl hw

/-- The words of a text stand for those of one phrase. -/
theorem unique (h : Joined allowed us ws) (h' : Joined allowed vs ws) (hus : NumbersApart us)
    (hvs : NumbersApart vs) : us = vs := by
  have hapart : ∀ {v w : Word} {ws : List Word}, v.kind = .number → w.kind = .identifier →
      ¬ NumbersApart (v :: w :: ws) :=
    fun hv hw h => (List.isChain_cons_cons.mp (show List.IsChain _ _ from h)).1 hv hw
  have hnext : ∀ {name : String} {us vs : List Word},
      Joined allowed us (⟨.identifier, name⟩ :: vs) → ∃ us', us = ⟨.identifier, name⟩ :: us' :=
    fun h => (h.exists_cons (by exact nofun)).imp fun _ h => h.1
  induction h generalizing vs with
  | nil =>
      cases h'
      rfl
  | cons w h ih =>
      cases h' with
      | cons _ h' =>
          rw [ih h' (List.IsChain.tail hus) (List.IsChain.tail hvs)]
      | point raw name _ h' =>
          obtain ⟨us', rfl⟩ := hnext h
          exact absurd hus (hapart rfl rfl)
  | point raw name _ h ih =>
      generalize hraw : raw ++ "." = pointed at h'
      cases h' with
      | cons _ h' =>
          obtain ⟨vs', rfl⟩ := hnext h'
          exact absurd hvs (hapart rfl rfl)
      | point raw' name' _ h' =>
          have htail := ih h' (List.IsChain.tail (List.IsChain.tail (List.IsChain.tail hus)))
            (List.IsChain.tail (List.IsChain.tail (List.IsChain.tail hvs)))
          obtain rfl : raw = raw' :=
            String.toList_injective (by simpa using congrArg String.toList hraw)
          rw [htail]

/-- The words of a text have the characters of those that they stand for. -/
theorem chars_eq (h : Joined allowed us vs) : chars us = chars vs := by
  induction h with
  | nil => rfl
  | cons w _ ih => rw [chars_cons, chars_cons, ih]
  | point raw name _ _ ih =>
      have hdot : (symbol .dot).text = "." := rfl
      simp only [chars_cons, ih, hdot, String.toList_append, List.append_assoc]

/-- What holds of numbers and points, and of the words of a text, holds of those that they stand
for. -/
theorem forall_left {P : Word → Prop} (h : Joined allowed us vs) (hvs : ∀ w ∈ vs, P w)
    (hnumber : ∀ raw, P ⟨.number, raw⟩) (hdot : P (symbol .dot)) : ∀ w ∈ us, P w := by
  induction h with
  | nil => exact hvs
  | cons w _ ih =>
      obtain ⟨hw, hvs⟩ := List.forall_mem_cons.mp hvs
      exact List.forall_mem_cons.mpr ⟨hw, ih hvs⟩
  | point raw name _ _ ih =>
      simp only [List.forall_mem_cons] at hvs ⊢
      exact ⟨hnumber raw, hdot, hvs.2.1, ih hvs.2.2⟩

/-- What holds of numbers, and of words, holds of those of a text that stand for them. -/
theorem forall_right {P : Word → Prop} (h : Joined allowed us vs) (hus : ∀ w ∈ us, P w)
    (hnumber : ∀ raw, P ⟨.number, raw⟩) : ∀ w ∈ vs, P w := by
  induction h with
  | nil => exact hus
  | cons w _ ih =>
      obtain ⟨hw, hus⟩ := List.forall_mem_cons.mp hus
      exact List.forall_mem_cons.mpr ⟨hw, ih hus⟩
  | point raw name _ _ ih =>
      simp only [List.forall_mem_cons] at hus ⊢
      exact ⟨hnumber _, hus.2.2.1, ih hus.2.2.2⟩

end Word.Joined

namespace Expr

def Shown (e : Expr) (vs : List Word) : Prop :=
  ∃ ws, Phrase 1 ws e ∧ Joined True ws vs

def ShownIfAny (e : Expr) (vs : List Word) : Prop :=
  e = .empty ∧ vs = [] ∨ e.Shown vs

variable {e e' : Expr} {vs : List Word}

/-- The words of a text tell which expression it is of. -/
theorem Shown.forget_eq (h : e.Shown vs) (h' : e'.Shown vs) : e.forget = e'.forget := by
  obtain ⟨ws, hphrase, hjoined⟩ := h
  obtain ⟨ws', hphrase', hjoined'⟩ := h'
  obtain rfl := hjoined.unique hjoined' hphrase.numbersApart hphrase'.numbersApart
  exact hphrase.forget_eq hphrase'

theorem Shown.inPhrase (h : e.Shown vs) : ∀ w ∈ vs, w.kind.inPhrase = true := by
  obtain ⟨ws, hphrase, hjoined⟩ := h
  exact hjoined.forall_right hphrase.inPhrase fun _ => rfl

theorem Shown.exists_head (h : e.Shown vs) : ∃ w ws, vs = w :: ws ∧ w.kind.begins = true := by
  obtain ⟨ws, hphrase, hjoined⟩ := h
  obtain ⟨w, us, rfl, hbegins, -⟩ := hphrase.exists_head
  cases hjoined with
  | cons => exact ⟨w, _, rfl, hbegins⟩
  | point => exact ⟨_, _, rfl, rfl⟩

theorem Shown.ne_semicolon (h : e.Shown vs) : ∀ w ∈ vs, w.kind ≠ .semicolon := by
  intro w hw hkind
  have hin := h.inPhrase w hw
  rw [hkind] at hin
  cases hin

theorem ShownIfAny.ne_semicolon (h : e.ShownIfAny vs) : ∀ w ∈ vs, w.kind ≠ .semicolon := by
  rcases h with ⟨-, rfl⟩ | h
  · exact fun w hw => nomatch hw
  · exact h.ne_semicolon

theorem ShownIfAny.forget_eq (h : e.ShownIfAny vs) (h' : e'.ShownIfAny vs) :
    e.forget = e'.forget := by
  have hne : ∀ {e : Expr} {vs : List Word}, e.Shown vs → vs ≠ [] := by
    rintro e vs h rfl
    obtain ⟨w, ws, hws, -⟩ := h.exists_head
    cases hws
  rcases h with ⟨rfl, rfl⟩ | h
  · rcases h' with ⟨rfl, -⟩ | h'
    · rfl
    · exact absurd rfl (hne h')
  · rcases h' with ⟨-, rfl⟩ | h'
    · exact absurd rfl (hne h)
    · exact h.forget_eq h'

theorem Proper.isEmpty_eq_false (h : e.Proper) : e.isEmpty = false := by
  cases h <;> rfl

/-- The text of a proper expression is read as its words. -/
theorem Proper.exists_shown (h : e.Proper) :
    ∃ vs, e.Shown vs ∧ WrittenOut e.source.toList vs (tail true) := by
  have hspells : Spells True e.source e.pointed e.binding e := h.spells fun _ _ _ => trivial
  obtain ⟨ws, vs, hphrase, hjoined, hspelling⟩ := hspells
  have hphrase := hphrase.loosenTo (Nat.le_refl 1) hphrase.one_le
  have hreads := hspelling.pointed_true.reads
  refine ⟨vs, ⟨ws, hphrase, hjoined⟩, hreads, ?_⟩
  have hvs : ∀ w ∈ vs, w.IsSpelled := fun w hw => by
    rw [← hreads.words_eq] at hw
    exact (lexed_of_mem hw).isSpelled
  have hws : ∀ w ∈ ws, w.IsSpelled :=
    hjoined.forall_left hvs (fun _ _ => nofun) fun text htext => by
      cases htext
      rfl
  have hcount := count_le_count_guarded (d := '\n') e.source e.binding 1
  exact Nat.le_trans hcount (hjoined.chars_eq ▸ hphrase.count_source_le (by decide) hws)

theorem ProperIfAny.exists_shown (h : e.ProperIfAny) :
    ∃ vs, e.ShownIfAny vs ∧ WrittenOut e.source.toList vs (tail true) := by
  rcases h with rfl | h
  · exact ⟨[], Or.inl ⟨rfl, rfl⟩, .nil _⟩
  · obtain ⟨vs, hvs, hwritten⟩ := h.exists_shown
    exact ⟨vs, Or.inr hvs, hwritten⟩

end Expr

end InoBlocks
