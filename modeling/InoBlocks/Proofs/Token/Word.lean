import InoBlocks.Sketch.Grammar

/-!
# Words

A token without its place is a word, and the grammar reads words only.  `words` cuts a text
straight into its words, comments left out, and agrees with the tokens of the lexer.

`ReadsAs` is the form in which texts are put together: a text is read as some words whatever
comes after it, as long as the next character does not run on from its last token.
-/

namespace InoBlocks

/-- What a token says, wherever it stands. -/
structure Word where
  kind : TokenKind
  text : String
  deriving DecidableEq, Repr

namespace Token

def word (t : Token) : Word := ⟨t.kind, t.text⟩

@[simp] theorem word_kind (t : Token) : t.word.kind = t.kind := rfl

@[simp] theorem word_text (t : Token) : t.word.text = t.text := rfl

/-- Leaving the comments out while a text is cut comes to the same as leaving them out of all its
tokens. -/
theorem tokensFrom_false (file : String) (p : Cursor) (skip : Nat) (cs : List Char) :
    tokensFrom file false p skip cs = (tokensFrom file true p skip cs).filter isSignificant := by
  induction cs generalizing p skip with
  | nil => rfl
  | cons c cs ih =>
      cases skip with
      | succ skip => exact ih _ _
      | zero =>
          simp only [tokensFrom, Bool.true_or, Bool.false_or, ↓reduceIte]
          split
          · exact ih _ _
          · split
            · exact ih _ _
            · rw [List.filter_cons, ih]

theorem significant_eq_filter (source file : String) :
    significant source file = (tokenize source file).filter isSignificant :=
  tokensFrom_false file .start 0 source.toList

end Token

namespace Word

def endMark : Word := ⟨.endOfInput, ""⟩

/-- The words of a text, comments included; the first `skip` characters belong to a word that is
already cut. -/
def wordsFrom (skip : Nat) : List Char → List Word
  | [] => []
  | c :: cs =>
      match skip with
      | skip + 1 => wordsFrom skip cs
      | 0 =>
          if Token.isLayout c then
            wordsFrom 0 cs
          else
            match Token.scan c cs with
            | none => wordsFrom 0 cs
            | some (kind, more) =>
                ⟨kind, String.ofList (c :: cs.take more)⟩ :: wordsFrom more cs

theorem tokensFrom_word (file : String) (p : Cursor) (skip : Nat) (cs : List Char) :
    (Token.tokensFrom file true p skip cs).map Token.word = wordsFrom skip cs ++ [endMark] := by
  induction cs generalizing p skip with
  | nil => simp [Token.tokensFrom, wordsFrom, Token.endAt, Token.word, endMark]
  | cons c cs ih =>
      cases skip with
      | succ skip => simp only [Token.tokensFrom, wordsFrom, ih]
      | zero =>
          simp only [Token.tokensFrom, wordsFrom]
          cases Token.isLayout c with
          | true => exact ih _ _
          | false =>
              cases Token.scan c cs with
              | none => exact ih _ _
              | some cut => exact congrArg (_ :: ·) (ih _ _)

theorem wordsFrom_eq_drop (skip : Nat) (cs : List Char) :
    wordsFrom skip cs = wordsFrom 0 (cs.drop skip) := by
  induction cs generalizing skip with
  | nil => simp [wordsFrom]
  | cons c cs ih =>
      cases skip with
      | zero => rfl
      | succ skip => simpa [wordsFrom] using ih skip

theorem wordsFrom_scan {c : Char} {cs : List Char} {kind : TokenKind} {more : Nat}
    (hc : Token.isLayout c = false) (hscan : Token.scan c cs = some (kind, more)) :
    wordsFrom 0 (c :: cs) =
      ⟨kind, String.ofList (c :: cs.take more)⟩ :: wordsFrom 0 (cs.drop more) := by
  rw [wordsFrom, hc, hscan, ← wordsFrom_eq_drop]
  rfl

def isSignificant (w : Word) : Bool :=
  w.kind != .comment

def words (cs : List Char) : List Word :=
  (wordsFrom 0 cs).filter isSignificant

theorem significant_word (source file : String) :
    (Token.significant source file).map Token.word = words source.toList ++ [endMark] := by
  have hcomm : (isSignificant ∘ Token.word) = Token.isSignificant := rfl
  have hend : isSignificant endMark = true := rfl
  rw [Token.significant_eq_filter, Token.tokenize, words, ← hcomm, ← List.filter_map,
    tokensFrom_word, List.filter_append]
  simp [hend]

/-! ## The words at the front of a text -/

@[simp] theorem words_nil : words [] = [] := rfl

theorem words_layout {c : Char} (hc : Token.isLayout c = true) (cs : List Char) :
    words (c :: cs) = words cs := by
  simp [words, wordsFrom, hc]

theorem words_unread {c : Char} {cs : List Char} (hc : Token.isLayout c = false)
    (hscan : Token.scan c cs = none) : words (c :: cs) = words cs := by
  simp [words, wordsFrom, hc, hscan]

theorem words_scan {c : Char} {cs : List Char} {kind : TokenKind} {more : Nat}
    (hc : Token.isLayout c = false) (hscan : Token.scan c cs = some (kind, more))
    (hkind : kind ≠ .comment) :
    words (c :: cs) = ⟨kind, String.ofList (c :: cs.take more)⟩ :: words (cs.drop more) := by
  have hsig : isSignificant ⟨kind, String.ofList (c :: cs.take more)⟩ = true := by
    simpa only [isSignificant, bne_iff_ne] using hkind
  rw [words, wordsFrom_scan hc hscan, words]
  exact List.filter_cons_of_pos hsig

theorem words_comment {c : Char} {cs : List Char} {more : Nat}
    (hc : Token.isLayout c = false) (hscan : Token.scan c cs = some (.comment, more)) :
    words (c :: cs) = words (cs.drop more) := by
  have hsig : ¬ isSignificant ⟨.comment, String.ofList (c :: cs.take more)⟩ = true := by
    simp only [isSignificant, bne_self_eq_false, Bool.false_eq_true, not_false_eq_true]
  rw [words, wordsFrom_scan hc hscan, words]
  exact List.filter_cons_of_neg hsig

theorem words_layouts {gap : List Char} (hgap : gap.all Token.isLayout = true)
    (cs : List Char) : words (gap ++ cs) = words cs := by
  induction gap with
  | nil => rfl
  | cons c gap ih =>
      simp only [List.all_cons, Bool.and_eq_true] at hgap
      rw [List.cons_append, words_layout hgap.1, ih hgap.2]

/-! ## Texts that stand for words -/

def Apart (runsOn : Char → Bool) (rest : List Char) : Prop :=
  ∀ d, rest.head? = some d → runsOn d = false

theorem apart_nil (runsOn : Char → Bool) : Apart runsOn [] := by
  simp [Apart]

theorem apart_cons {runsOn : Char → Bool} {d : Char} (hd : runsOn d = false)
    (ds : List Char) : Apart runsOn (d :: ds) := by
  intro x hx
  simp only [List.head?_cons, Option.some.injEq] at hx
  exact hx ▸ hd

theorem Apart.mono {runsOn runsOn' : Char → Bool} {rest : List Char}
    (hle : ∀ d, runsOn d = true → runsOn' d = true) (h : Apart runsOn' rest) :
    Apart runsOn rest := by
  intro d hd
  cases hr : runsOn d with
  | false => rfl
  | true => exact absurd (h d hd) (by simp [hle d hr])

/-- A way to read texts word by word: it passes over layout and over what no rule reads, and takes
the words that the lexer cuts, comments perhaps aside. -/
class Cutting (read : List Char → List Word) : Prop where
  nil : read [] = []
  layout {c : Char} (hc : Token.isLayout c = true) (cs : List Char) : read (c :: cs) = read cs
  unread {c : Char} {cs : List Char} (hc : Token.isLayout c = false)
    (hscan : Token.scan c cs = none) : read (c :: cs) = read cs
  scan {c : Char} {cs : List Char} {kind : TokenKind} {more : Nat}
    (hc : Token.isLayout c = false) (hscan : Token.scan c cs = some (kind, more))
    (hkind : kind ≠ .comment) :
    read (c :: cs) = ⟨kind, String.ofList (c :: cs.take more)⟩ :: read (cs.drop more)

instance : Cutting words where
  nil := words_nil
  layout := words_layout
  unread := words_unread
  scan := words_scan

instance : Cutting (wordsFrom 0) where
  nil := rfl
  layout hc cs := by simp [wordsFrom, hc]
  unread hc hscan := by simp [wordsFrom, hc, hscan]
  scan hc hscan _ := wordsFrom_scan hc hscan

/-- A text is read as some words in front of every text that does not run on from it. -/
def ReadsBy (read : List Char → List Word) (cs : List Char) (ws : List Word)
    (runsOn : Char → Bool) : Prop :=
  ∀ rest, Apart runsOn rest → read (cs ++ rest) = ws ++ read rest

abbrev ReadsAs : List Char → List Word → (Char → Bool) → Prop :=
  ReadsBy words

/-- A text is read as some words whatever comes behind it. -/
abbrev ReadsAlone (cs : List Char) (ws : List Word) : Prop :=
  ReadsAs cs ws fun _ => false

namespace ReadsBy

variable {read : List Char → List Word} {cs ds : List Char} {ws vs : List Word}
  {runsOn runsOn' : Char → Bool}

theorem mono (hle : ∀ d, runsOn d = true → runsOn' d = true) (h : ReadsBy read cs ws runsOn) :
    ReadsBy read cs ws runsOn' :=
  fun rest hrest => h rest (hrest.mono hle)

/-- Two texts put together, when the second never runs on from the first. -/
theorem append (h : ReadsBy read cs ws runsOn) (h' : ReadsBy read ds vs runsOn')
    (hjoin : ∀ rest, Apart runsOn' rest → Apart runsOn (ds ++ rest)) :
    ReadsBy read (cs ++ ds) (ws ++ vs) runsOn' := by
  intro rest hrest
  rw [List.append_assoc, h _ (hjoin rest hrest), h' rest hrest, List.append_assoc]

/-- Two texts put together, when the second begins with a character that keeps them apart. -/
theorem append_cons {d : Char} (h : ReadsBy read cs ws runsOn)
    (h' : ReadsBy read (d :: ds) vs runsOn') (hd : runsOn d = false) :
    ReadsBy read (cs ++ d :: ds) (ws ++ vs) runsOn' :=
  h.append h' fun rest _ => apart_cons hd (ds ++ rest)

/-- Two texts put together, when nothing runs on from the first. -/
theorem seq (h : ReadsBy read cs ws fun _ => false) (h' : ReadsBy read ds vs runsOn') :
    ReadsBy read (cs ++ ds) (ws ++ vs) runsOn' :=
  h.append h' fun _ _ _ _ => rfl

variable [Cutting read]

theorem words_eq (h : ReadsBy read cs ws runsOn) : read cs = ws := by
  simpa [Cutting.nil] using h [] (apart_nil runsOn)

/-- Nothing runs on from a text and a blank behind it. -/
theorem blank (h : ReadsBy read cs ws runsOn) (hblank : runsOn ' ' = false) :
    ReadsBy read (cs ++ [' ']) ws fun _ => false := by
  have hgap : ReadsBy read [' '] [] fun _ => false :=
    fun rest _ => Cutting.layout (by decide) rest
  simpa using h.append_cons hgap hblank

end ReadsBy

theorem ReadsAs.layout {gap : List Char} (hgap : gap.all Token.isLayout = true)
    (runsOn : Char → Bool) : ReadsAs gap [] runsOn :=
  fun rest _ => words_layouts hgap rest

end Word

end InoBlocks
