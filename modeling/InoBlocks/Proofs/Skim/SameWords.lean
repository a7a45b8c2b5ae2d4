import InoBlocks.Proofs.Skim.Cleaning
import InoBlocks.Proofs.Token.Front
import InoBlocks.Proofs.Token.Tiling

/-!
# Comparing sketches word by word

Two sketches are compared by their texts without comments and with single blanks.  The comments are
found by their marks alone and the blanks squeezed everywhere, so this tells sketches apart by
their words only where the marks and the blanks in literals, and the slashes around comments, do not
mislead it.  `Strippable` says where; the proof walks over the text as the lexer does and follows
what is left of each token.
-/

namespace InoBlocks

namespace Skim

open Text Token Word

/-! ## What comparing leaves as it is -/

/-- Two characters side by side that are left as they are: a blank is a single space, and no
comment opens. -/
def Stays (c d : Char) : Prop :=
  (isBlank c = true → c = ' ' ∧ isBlank d = false) ∧ (c = '/' → d ≠ '/' ∧ d ≠ '*')

instance : DecidableRel Stays := fun c d =>
  inferInstanceAs (Decidable ((isBlank c = true → c = ' ' ∧ isBlank d = false) ∧
    (c = '/' → d ≠ '/' ∧ d ≠ '*')))

-- The one character there may be is looked at, not every character there is.
instance decidableForallOption (o : Option Char) (p : Char → Prop) [DecidablePred p] :
    Decidable (∀ c ∈ o, p c) :=
  Option.decidableForallMem o

def Settled (cs : List Char) : Prop :=
  cs.IsChain Stays ∧ ∀ c ∈ cs.getLast?, isBlank c = false

instance : DecidablePred Settled := fun cs =>
  inferInstanceAs (Decidable (cs.IsChain Stays ∧ ∀ c ∈ cs.getLast?, isBlank c = false))

/-- A block comment that can be taken out of its place by its marks: it is closed, no line comment
seems to open in it or at its end, and the characters around it do not go together. -/
def Detached (before : Option Char) (comment : List Char) (behind : Option Char) : Prop :=
  occursIn ['*', '/'] (comment.drop 2) = true ∧
    (comment ++ behind.toList).IsChain (fun c d => ¬ (c = '/' ∧ d = '/')) ∧
    ∀ c ∈ before, ∀ d ∈ behind, joins c d = false

instance (before : Option Char) (comment : List Char) (behind : Option Char) :
    Decidable (Detached before comment behind) :=
  inferInstanceAs (Decidable (occursIn ['*', '/'] (comment.drop 2) = true ∧
    (comment ++ behind.toList).IsChain (fun c d => ¬ (c = '/' ∧ d = '/')) ∧
    ∀ c ∈ before, ∀ d ∈ behind, joins c d = false))

/-- A sketch whose literals are left as they are, and whose block comments can be taken out. -/
structure Strippable (source : String) : Prop where
  literal : ∀ t ∈ tokenize source "", t.kind = .string → Settled t.text.toList
  block : ∀ t ∈ tokenize source "", t.kind = .comment →
    startsWith ['/', '*'] t.text.toList = true →
    Detached (source.toList.take t.start).getLast? t.text.toList (source.toList.drop t.stop).head?

instance (source : String) : Decidable (Strippable source) :=
  decidable_of_iff ((∀ t ∈ tokenize source "", t.kind = .string → Settled t.text.toList) ∧
    ∀ t ∈ tokenize source "", t.kind = .comment → startsWith ['/', '*'] t.text.toList = true →
      Detached (source.toList.take t.start).getLast? t.text.toList
        (source.toList.drop t.stop).head?)
    ⟨fun h => ⟨h.1, h.2⟩, fun h => ⟨h.literal, h.block⟩⟩

/-! ## Comments -/

theorem dropLineComments_cons {c : Char} {cs : List Char}
    (h : ∀ d ∈ cs.head?, ¬ (c = '/' ∧ d = '/')) :
    dropLineComments false (c :: cs) = c :: dropLineComments false cs := by
  rw [dropLineComments]
  · rfl
  · rintro ds rfl rfl
    exact h '/' rfl ⟨rfl, rfl⟩

theorem dropLineComments_inside (cs : List Char) :
    dropLineComments true cs = dropLineComments false (cs.dropWhile (· != '\n')) := by
  generalize hinside : true = inside
  fun_induction dropLineComments inside cs with
  | case1 => rfl
  | case2 inside cs ih => exact ih rfl
  | case3 inside c cs _ hdrop ih =>
      have hc : (c != '\n') = true := by
        rw [Bool.and_eq_true] at hdrop
        exact hdrop.2
      rw [List.dropWhile_cons, if_pos hc]
      exact ih rfl
  | case4 inside c cs _ hkeep _ =>
      obtain rfl : c = '\n' := by simpa [← hinside] using hkeep
      rw [List.dropWhile_cons_of_neg (by decide), dropLineComments_cons]
      exact fun _ _ h => absurd h.1 (by decide)

theorem dropLineComments_line (cs : List Char) :
    dropLineComments false ('/' :: '/' :: cs) =
      dropLineComments false (cs.dropWhile (· != '\n')) := by
  rw [dropLineComments, dropLineComments_inside]

theorem dropLineComments_append {s rest : List Char}
    (h : (s ++ rest.head?.toList).IsChain fun c d => ¬ (c = '/' ∧ d = '/')) :
    dropLineComments false (s ++ rest) = s ++ dropLineComments false rest := by
  induction s with
  | nil => rfl
  | cons c s ih =>
      rw [List.cons_append, List.isChain_cons] at h
      rw [List.cons_append, dropLineComments_cons, ih h.2, List.cons_append]
      intro d hd
      refine h.1 d ?_
      cases s with
      | nil => simpa using hd
      | cons e s => exact hd

theorem head?_dropLineComments (cs : List Char) :
    ∀ d ∈ (dropLineComments false cs).head?, cs.head? = some d ∨ d = '\n' := by
  intro d hd
  by_cases hline : ∃ rest, cs = '/' :: '/' :: rest
  · obtain ⟨rest, rfl⟩ := hline
    rw [dropLineComments_line] at hd
    have hhead := List.head?_dropWhile_not (· != '\n') rest
    cases hrest : rest.dropWhile (· != '\n') with
    | nil =>
        rw [hrest] at hd
        cases hd
    | cons c cs =>
        rw [hrest] at hd hhead
        obtain rfl : c = '\n' := by simpa using hhead
        rw [dropLineComments_cons fun _ _ h => absurd h.1 (by decide)] at hd
        exact Or.inr (Option.some.inj hd).symm
  · cases cs with
    | nil => cases hd
    | cons c cs =>
        rw [dropLineComments_cons] at hd
        · exact Or.inl hd
        · rintro e he ⟨rfl, rfl⟩
          cases cs with
          | nil => cases he
          | cons f cs =>
              obtain rfl := Option.some.inj he
              exact hline ⟨cs, rfl⟩

theorem dropBlockComments_cons {c : Char} {cs : List Char}
    (h : ∀ d ∈ cs.head?, ¬ (c = '/' ∧ d = '*')) :
    dropBlockComments false (c :: cs) = c :: dropBlockComments false cs := by
  rw [dropBlockComments]
  rintro ds rfl rfl
  exact h '*' rfl ⟨rfl, rfl⟩

theorem occursIn_append {p cs : List Char} (h : occursIn p cs = true) (rest : List Char) :
    occursIn p (cs ++ rest) = true := by
  induction cs with
  | nil =>
      obtain rfl : p = [] := List.isEmpty_iff.mp h
      cases rest <;> rfl
  | cons c cs ih =>
      rw [occursIn, Bool.or_eq_true] at h
      rw [List.cons_append, occursIn, Bool.or_eq_true]
      refine h.imp (fun hfront => ?_) ih
      have hstarts := List.isPrefixOf_iff_prefix.mp hfront
      exact List.isPrefixOf_iff_prefix.mpr (hstarts.trans (List.prefix_append _ _))

/-- The mark that closes a comment is not at its front, so it is behind it. -/
theorem occursIn_behind {c : Char} {cs : List Char} {n : Nat}
    (hfront : ∀ ds, c = '*' → cs = '/' :: ds → False)
    (h : occursIn ['*', '/'] (c :: cs.take n) = true) : occursIn ['*', '/'] (cs.take n) = true := by
  rw [occursIn, Bool.or_eq_true] at h
  refine h.resolve_left fun hstart => ?_
  obtain ⟨ds, hds⟩ := List.isPrefixOf_iff_prefix.mp hstart
  obtain ⟨rfl, htake⟩ := List.cons.inj hds
  have hstarts := List.take_prefix n cs
  rw [← htake] at hstarts
  obtain ⟨es, rfl⟩ := hstarts
  exact hfront _ rfl rfl

/-- A closed block comment is dropped up to its closing mark. -/
theorem dropBlockComments_inside {cs : List Char}
    (h : occursIn ['*', '/'] (cs.take (commentLength cs)) = true) (rest : List Char) :
    dropBlockComments true (cs.take (commentLength cs) ++ rest) =
      dropBlockComments false rest := by
  fun_induction commentLength cs with
  | case1 => cases h
  | case2 cs => rfl
  | case3 c cs hfront ih =>
      have hbehind := occursIn_behind hfront h
      rw [List.take_succ_cons, List.cons_append, dropBlockComments, ih hbehind]
      rintro ds rfl happend
      cases htake : cs.take (commentLength cs) with
      | nil =>
          rw [htake] at hbehind
          cases hbehind
      | cons d es =>
          have hstarts := List.take_prefix (commentLength cs) cs
          rw [htake] at hstarts happend
          obtain ⟨rfl, -⟩ := List.cons.inj happend
          obtain ⟨fs, rfl⟩ := hstarts
          exact hfront _ rfl rfl

/-- A block comment that is closed ends with its mark. -/
theorem getLast?_blockComment {cs : List Char}
    (h : occursIn ['*', '/'] (cs.take (commentLength cs)) = true) :
    (cs.take (commentLength cs)).getLast? = some '/' := by
  fun_induction commentLength cs with
  | case1 => cases h
  | case2 cs => rfl
  | case3 c cs hfront ih =>
      rw [List.take_succ_cons, List.getLast?_cons, ih (occursIn_behind hfront h)]
      rfl

theorem stripComments_cons {c : Char} {cs : List Char}
    (h : ∀ d ∈ cs.head?, c = '/' → d ≠ '/' ∧ d ≠ '*') :
    stripComments (c :: cs) = c :: stripComments cs := by
  rw [stripComments, dropLineComments_cons fun d hd hslash => (h d hd hslash.1).1 hslash.2,
    dropBlockComments_cons, stripComments]
  rintro d hd ⟨rfl, rfl⟩
  rcases head?_dropLineComments cs '*' hd with hhead | hline
  · exact (h '*' hhead rfl).2 rfl
  · cases hline

theorem stripComments_line (cs : List Char) :
    stripComments ('/' :: '/' :: cs) = stripComments (cs.dropWhile (· != '\n')) := by
  rw [stripComments, dropLineComments_line, stripComments]

/-- A block comment that can be taken out is taken out. -/
theorem stripComments_block {before : Option Char} {cs : List Char}
    (h : Detached before ('/' :: '*' :: cs.take (commentLength cs))
      (cs.drop (commentLength cs)).head?) :
    stripComments ('/' :: '*' :: cs) = stripComments (cs.drop (commentLength cs)) := by
  obtain ⟨hclosed, hsingle, -⟩ := h
  rw [List.drop_succ_cons, List.drop_succ_cons, List.drop_zero] at hclosed
  have hline := dropLineComments_append hsingle
  rw [List.cons_append, List.cons_append, List.take_append_drop] at hline
  rw [stripComments, hline, List.cons_append, List.cons_append, dropBlockComments,
    if_pos (occursIn_append hclosed _), dropBlockComments_inside hclosed, stripComments]

/-- A text in which no comment opens, nor at its end, stays. -/
theorem stripComments_append {s rest : List Char} (h : (s ++ rest.head?.toList).IsChain Stays) :
    stripComments (s ++ rest) = s ++ stripComments rest := by
  induction s with
  | nil => rfl
  | cons c s ih =>
      rw [List.cons_append, List.isChain_cons] at h
      rw [List.cons_append, stripComments_cons, ih h.2, List.cons_append]
      intro d hd
      refine (h.1 d ?_).2
      cases s with
      | nil => simpa using hd
      | cons e s => exact hd

/-! ## Blanks -/

/-- The words of a text with single blanks between them. -/
def collapse (cs : List Char) : List Char :=
  joinWith [' '] (words cs)

theorem normalize_eq (cs : List Char) : normalize cs = collapse (stripComments cs) :=
  rfl

/-- What is left of a text behind some character: a blank in front of the words, if the text begins
with one. -/
def resume (cs : List Char) : List Char :=
  if cs.head?.any isBlank && !(Text.words cs).isEmpty then ' ' :: collapse cs else collapse cs

theorem collapse_blank {c : Char} (hc : isBlank c = true) (cs : List Char) :
    collapse (c :: cs) = collapse cs := by
  simp [collapse, Text.words, cut, hc]

/-- A text that does not begin with a blank begins with a word. -/
theorem cut_solid {c : Char} (hc : isBlank c = false) (cs : List Char) :
    ∃ piece pieces, cut isBlank (c :: cs) = (c :: piece) :: pieces := by
  rw [cut, if_neg (by simp [hc])]
  cases cut isBlank cs with
  | nil => exact ⟨_, _, rfl⟩
  | cons piece pieces => exact ⟨_, _, rfl⟩

theorem words_solid {c : Char} (hc : isBlank c = false) (cs : List Char) :
    Text.words (c :: cs) ≠ [] := by
  obtain ⟨piece, pieces, hcut⟩ := cut_solid hc cs
  simp [Text.words, hcut]

theorem joinWith_cons_cons (separator : List Char) (c : Char) (piece : List Char)
    (pieces : List (List Char)) :
    joinWith separator ((c :: piece) :: pieces) = c :: joinWith separator (piece :: pieces) := by
  cases pieces <;> rfl

theorem collapse_solid {c : Char} (hc : isBlank c = false) (cs : List Char) :
    collapse (c :: cs) = c :: resume cs := by
  cases cs with
  | nil => simp [collapse, resume, Text.words, cut, hc, joinWith]
  | cons d ds =>
      cases hd : isBlank d with
      | true =>
          have hwords : Text.words (c :: d :: ds) = [c] :: Text.words (d :: ds) := by
            simp [Text.words, cut, hc, hd]
          rw [resume, collapse, collapse, hwords]
          cases hrest : Text.words (d :: ds) with
          | nil => simp [joinWith]
          | cons word more => simp [hd, joinWith]
      | false =>
          obtain ⟨piece, pieces, hcut⟩ := cut_solid hd ds
          have hall : cut isBlank (c :: d :: ds) = (c :: d :: piece) :: pieces := by
            rw [cut, if_neg (by simp [hc]), hcut]
          simp [resume, hd, collapse, Text.words, hall, hcut, joinWith_cons_cons]

theorem words_resume (cs : List Char) : wordsFrom 0 (resume cs) = wordsFrom 0 (collapse cs) := by
  unfold resume
  split
  · exact Cutting.layout (by decide) _
  · rfl

theorem resume_solid {c : Char} (hc : isBlank c = false) (cs : List Char) :
    resume (c :: cs) = c :: resume cs := by
  simp [resume, hc, collapse_solid]

theorem head?_resume_blank {c : Char} (hc : isBlank c = true) (cs : List Char) :
    ∀ d ∈ (resume (c :: cs)).head?, d = ' ' := by
  intro d hd
  unfold resume at hd
  split at hd
  · exact (Option.some.inj hd).symm
  · rename_i hwords
    have hnil : Text.words (c :: cs) = [] := by simpa [hc] using hwords
    rw [collapse, hnil] at hd
    cases hd

theorem resume_space {d : Char} (hd : isBlank d = false) (cs : List Char) :
    resume (' ' :: d :: cs) = ' ' :: resume (d :: cs) := by
  have hspace : isBlank ' ' = true := by decide
  have hwords : Text.words (' ' :: d :: cs) = Text.words (d :: cs) := by
    simp [Text.words, cut, hspace]
  rw [resume, hwords, collapse_blank hspace, resume_solid hd, collapse_solid hd]
  simp [hspace, words_solid hd]

theorem resume_append {s : List Char} (h : Settled s) (rest : List Char) :
    resume (s ++ rest) = s ++ resume rest := by
  obtain ⟨hchain, hlast⟩ := h
  induction s with
  | nil => rfl
  | cons c s ih =>
      rw [List.isChain_cons] at hchain
      cases s with
      | nil => exact resume_solid (hlast c rfl) rest
      | cons d s =>
          have hrest := ih hchain.2 (by simpa using hlast)
          cases hc : isBlank c with
          | false =>
              rw [List.cons_append, resume_solid hc, hrest]
              rfl
          | true =>
              obtain ⟨rfl, hd⟩ := (hchain.1 d rfl).1 hc
              rw [List.cons_append, List.cons_append, resume_space hd, ← List.cons_append, hrest]
              rfl

/-! ## Along the tokens -/

/-- A text, behind some character, whose literals are left as they are and whose block comments can
be taken out, token by token. -/
inductive Strips : Option Char → List Char → Prop
  | nil {before : Option Char} : Strips before []
  | layout {before : Option Char} {c : Char} {cs : List Char} (hc : isLayout c = true)
      (hs : Strips (some c) cs) : Strips before (c :: cs)
  | unread {before : Option Char} {c : Char} {cs : List Char} (hc : isLayout c = false)
      (hscan : scan c cs = none) (hs : Strips (some c) cs) : Strips before (c :: cs)
  | cut {before : Option Char} {c : Char} {cs : List Char} {kind : TokenKind} {more : Nat}
      (hc : isLayout c = false) (hscan : scan c cs = some (kind, more))
      (hliteral : kind = .string → Settled (c :: cs.take more))
      (hblock : kind = .comment → startsWith ['/', '*'] (c :: cs.take more) = true →
        Detached before (c :: cs.take more) (cs.drop more).head?)
      (hs : Strips (c :: cs.take more).getLast? (cs.drop more)) : Strips before (c :: cs)

theorem isBlank_of_symbol {kind : TokenKind} {s : String} (h : kind.symbol? = some s) :
    s = "/" ∨ ∀ d ∈ s.toList, isBlank d = false ∧ d ≠ '/' := by
  cases kind <;> simp only [TokenKind.symbol?, reduceCtorEq, Option.some.injEq] at h <;>
    subst h <;> first | exact Or.inl rfl | exact Or.inr (by decide)

theorem stays_of_solid {c : Char} (hc : isBlank c = false) (hslash : c ≠ '/') (d : Char) :
    Stays c d :=
  ⟨fun hblank => absurd hblank (by simp [hc]), fun h => absurd h hslash⟩

theorem settled_of_solid {cs : List Char} (h : ∀ c ∈ cs, isBlank c = false ∧ c ≠ '/') :
    Settled cs := by
  refine ⟨?_, fun c hc => (h c (List.mem_of_getLast? hc)).1⟩
  have hchain : (cs ++ []).IsChain Stays := Plain.isChain_free_append
    (fun c hc => stays_of_solid (h c hc).1 (h c hc).2) List.isChain_nil
  rwa [List.append_nil] at hchain

theorem stays_of_quote {c : Char} (hc : c = '"' ∨ c = '\'') (d : Char) : Stays c d := by
  rcases hc with rfl | rfl <;> exact stays_of_solid (by decide) (by decide) d

theorem stays_of_slash {c : Char} {cs : List Char} (h : opensComment ('/' :: c :: cs) = false) :
    Stays '/' c := by
  simpa [Stays, opensComment, isBlank] using h

/-- A settled literal is left as it is in front of what stands behind it. -/
theorem isChain_literal {c : Char} {cs : List Char} {more : Nat}
    (h : scan c cs = some (.string, more)) (hsettled : Settled (c :: cs.take more)) :
    (c :: cs.take more ++ (cs.drop more).head?.toList).IsChain Stays := by
  obtain ⟨hquote, hlength⟩ := scan_string h
  cases hbehind : cs.drop more with
  | nil => simpa using hsettled.1
  | cons d ds =>
      -- What something stands behind is closed, and ends with its quote.
      have hmore : literalLength c cs < cs.length := by
        have hlong := congrArg List.length hbehind
        simp only [List.length_drop, List.length_cons] at hlong
        omega
      obtain ⟨inside, hinside⟩ := take_literalLength c cs hmore
      refine List.isChain_append.mpr ⟨hsettled.1, List.isChain_singleton _, ?_⟩
      rw [hlength, hinside, ← List.cons_append, List.getLast?_concat]
      intro x hx y _
      obtain rfl := Option.some.inj hx
      exact stays_of_quote hquote y

/-- A word that is no literal is left as it is in front of what stands behind it. -/
theorem settled_plain {c : Char} {cs : List Char} {kind : TokenKind} {more : Nat}
    (h : scan c cs = some (kind, more)) (hkind : kind ≠ .comment) (hstring : kind ≠ .string) :
    Settled (c :: cs.take more) ∧
      (c :: cs.take more ++ (cs.drop more).head?.toList).IsChain Stays := by
  have hsolid : (∀ d ∈ c :: cs.take more, isBlank d = false ∧ d ≠ '/') →
      Settled (c :: cs.take more) ∧
        (c :: cs.take more ++ (cs.drop more).head?.toList).IsChain Stays := by
    intro hall
    refine ⟨settled_of_solid hall, Plain.isChain_free_append
      (fun d hd => stays_of_solid (hall d hd).1 (hall d hd).2) ?_⟩
    cases (cs.drop more).head? <;> simp
  rcases chars_of_scan h hkind hstring with hchars | ⟨hopen, hsymbol⟩
  · refine hsolid fun d hd => ?_
    rcases hchars d hd with hname | rfl
    · refine ⟨not_isBlank_of_isNameChar hname, ?_⟩
      rintro rfl
      cases hname
    · decide
  · rcases isBlank_of_symbol hsymbol with hslash | hall
    · have hchars : c :: cs.take more = ['/'] := by
        simpa using congrArg String.toList hslash
      obtain ⟨rfl, htake⟩ := List.cons.inj hchars
      have hdrop : cs.drop more = cs := by
        have hsplit := List.take_append_drop more cs
        rwa [htake] at hsplit
      rw [htake, hdrop]
      refine ⟨by decide, ?_⟩
      cases cs with
      | nil => exact List.isChain_singleton _
      | cons d ds => simpa using stays_of_slash hopen
    · rw [String.toList_ofList] at hall
      exact hsolid hall

/-! ## What is left, read again -/

/-- What stands in front of a text without a comment at its front is what is left there, unless a
blank is squeezed. -/
theorem head?_resume {cs : List Char} (h : opensComment cs = false) :
    ∀ d ∈ (resume (stripComments cs)).head?, cs.head? = some d ∨ d = ' ' := by
  intro d hd
  cases cs with
  | nil => cases hd
  | cons c cs =>
      rw [stripComments_cons] at hd
      · cases hc : isBlank c with
        | true => exact Or.inr (head?_resume_blank hc _ d hd)
        | false =>
            rw [resume_solid hc] at hd
            exact Or.inl hd
      · rintro e he rfl
        cases cs with
        | nil => cases he
        | cons f cs =>
            obtain rfl := Option.some.inj he
            simpa [opensComment] using h

/-- A comment that can be taken out is taken out, and what stands behind it opens no other and
does not go together with what stands in front. -/
theorem stripComments_comment {before : Option Char} {c : Char} {cs : List Char} {more : Nat}
    (h : scan c cs = some (.comment, more))
    (hblock : startsWith ['/', '*'] (c :: cs.take more) = true →
      Detached before (c :: cs.take more) (cs.drop more).head?) :
    stripComments (c :: cs) = stripComments (cs.drop more) ∧
      opensComment (cs.drop more) = false ∧
      ∀ p ∈ before, ∀ d ∈ (cs.drop more).head?, joins p d = false := by
  obtain ⟨rest, ⟨htext, rfl⟩ | ⟨htext, rfl⟩⟩ := scan_comment h
  · obtain ⟨rfl, rfl⟩ := List.cons.inj htext
    have hdrop : ('/' :: rest).drop ((rest.takeWhile (· != '\n')).length + 1) =
        rest.dropWhile (· != '\n') := by
      have hsplit := List.takeWhile_append_dropWhile (p := (· != '\n')) (l := rest)
      have hdrop := congrArg (List.drop (rest.takeWhile (· != '\n')).length) hsplit
      rw [List.drop_left] at hdrop
      rw [List.drop_succ_cons, hdrop]
    have hhead : ∀ d ∈ (rest.dropWhile (· != '\n')).head?, d = '\n' := by
      intro d hd
      have hnot := List.head?_dropWhile_not (· != '\n') rest
      rw [Option.mem_def.mp hd] at hnot
      simpa using hnot
    rw [hdrop]
    refine ⟨stripComments_line rest, ?_, ?_⟩
    · cases hrest : rest.dropWhile (· != '\n') with
      | nil => rfl
      | cons d ds =>
          obtain rfl := hhead d (by rw [hrest]; rfl)
          exact opensComment_of_ne (by decide) ds
    · intro p _ d hd
      obtain rfl := hhead d hd
      exact joins_isLayout (by decide) p
  · obtain ⟨rfl, rfl⟩ := List.cons.inj htext
    have hdetached := hblock rfl
    rw [List.take_succ_cons, List.drop_succ_cons] at hdetached
    rw [List.drop_succ_cons]
    obtain ⟨hclosed, hsingle, hapart⟩ := hdetached
    refine ⟨stripComments_block ⟨hclosed, hsingle, hapart⟩, ?_, hapart⟩
    have hlast := getLast?_blockComment hclosed
    cases hrest : rest.drop (commentLength rest) with
    | nil => rfl
    | cons d ds =>
        rw [hrest] at hsingle
        have hmarks := (List.isChain_append.mp hsingle).2.2 '/'
          (by simp [List.getLast?_cons, hlast]) d rfl
        exact opensComment_of_ne (fun heq => hmarks ⟨rfl, heq⟩) ds

theorem eq_of_opensComment {cs : List Char} (h : opensComment cs = true) :
    ∃ rest, cs = '/' :: '/' :: rest ∨ cs = '/' :: '*' :: rest := by
  unfold opensComment at h
  split at h
  · rename_i d rest
    simp only [Bool.or_eq_true, beq_iff_eq] at h
    exact ⟨rest, h.imp (fun hd => by rw [hd]) fun hd => by rw [hd]⟩
  · cases h

/-- What is left behind a character begins as the text did, or with what does not go together with
the character. -/
theorem Strips.head? {before : Option Char} {cs : List Char} (h : Strips before cs) :
    ∀ p ∈ before, ∀ d ∈ (resume (stripComments cs)).head?,
      cs.head? = some d ∨ joins p d = false := by
  intro p hp d hd
  have hplain : ∀ {ds : List Char}, opensComment ds = false →
      d ∈ (resume (stripComments ds)).head? → ds.head? = some d ∨ joins p d = false := by
    intro ds hopen hd
    refine (head?_resume hopen d hd).imp_right ?_
    rintro rfl
    exact joins_isLayout (by decide) p
  cases hopen : opensComment cs with
  | false => exact hplain hopen hd
  | true =>
      obtain ⟨rest, htext⟩ := eq_of_opensComment hopen
      cases h with
      | nil => cases hopen
      | layout hc hs => rcases htext with htext | htext <;> cases htext <;> cases hc
      | unread hc hscan hs => rcases htext with htext | htext <;> cases htext <;> cases hscan
      | @cut _ c cs kind more hc hscan hliteral hblock hs =>
          have hcomment : kind = .comment := by
            rcases htext with htext | htext <;> cases htext <;>
              exact (Prod.mk.inj (Option.some.inj hscan)).1.symm
          subst hcomment
          obtain ⟨hstrip, hbehind, hapart⟩ := stripComments_comment hscan (hblock rfl)
          rw [hstrip] at hd
          rcases hplain hbehind hd with hhead | hjoins
          · exact Or.inr (hapart p hp d hhead)
          · exact Or.inr hjoins

/-- A character that is no slash stays if it is no blank. -/
theorem words_resume_cons {c : Char} (hslash : c ≠ '/') (cs : List Char) :
    wordsFrom 0 (resume (stripComments (c :: cs))) =
      if isBlank c then wordsFrom 0 (resume (stripComments cs))
      else wordsFrom 0 (c :: resume (stripComments cs)) := by
  rw [stripComments_cons fun _ _ heq => absurd heq hslash]
  split
  · rename_i hc
    rw [Skim.words_resume, collapse_blank hc, Skim.words_resume]
  · rename_i hc
    rw [resume_solid (by simpa using hc)]

/-- What is left of a text is read as the words of the text. -/
theorem Strips.words_resume {before : Option Char} {cs : List Char} (h : Strips before cs) :
    wordsFrom 0 (resume (stripComments cs)) = Word.words cs := by
  induction h with
  | nil => rfl
  | @layout before c cs hc hs ih =>
      have hslash : c ≠ '/' := by
        rintro rfl
        cases hc
      rw [words_resume_cons hslash, if_pos (isBlank_of_isLayout hc), ih, words_layout hc]
  | @unread before c cs hc hscan hs ih =>
      have hunread := unread_of_scan hscan
      have hslash : c ≠ '/' := by
        rintro rfl
        cases hunread.single
      have hnone := scan_of_unread hunread (hs.head? c rfl)
      rw [words_resume_cons hslash, words_unread hc hscan, ← ih, wordsFrom, hc, hnone]
      exact ite_self _
  | @cut before c cs kind more hc hscan hliteral hblock hs ih =>
      by_cases hcomment : kind = .comment
      · subst hcomment
        rw [(stripComments_comment hscan (hblock rfl)).1, ih, words_comment hc hscan]
      · have hsettled : Settled (c :: cs.take more) ∧
            (c :: cs.take more ++ (cs.drop more).head?.toList).IsChain Stays := by
          by_cases hstring : kind = .string
          · subst hstring
            exact ⟨hliteral rfl, isChain_literal hscan (hliteral rfl)⟩
          · exact settled_plain hscan hcomment hstring
        have hleft := stripComments_append hsettled.2
        rw [List.cons_append, List.take_append_drop] at hleft
        have hfront : scan c (cs.take more ++ resume (stripComments (cs.drop more))) =
            some (kind, more) :=
          scan_front hscan hcomment (fun _ hend => by rw [hend]; rfl) hs.head?
        rw [hleft, resume_append hsettled.1, read_front (wordsFrom 0) hc hscan hcomment hfront,
          words_scan hc hscan hcomment, ih]

/-! ## From the tokens of a sketch -/

/-- A token that does not stand in the way where it stands in a text: a literal that is left as it
is, a block comment that can be taken out, or any other token. -/
def Yielding (text : List Char) (t : Token) : Prop :=
  (t.kind = .string → Settled t.text.toList) ∧
    (t.kind = .comment → startsWith ['/', '*'] t.text.toList = true →
      Detached (text.take t.start).getLast? t.text.toList (text.drop t.stop).head?)

/-- What stands in front of a token that is cut, and what behind it. -/
theorem Yielding.of_cutAt {before cs : List Char} {c : Char} {kind : TokenKind} {more : Nat}
    (h : Yielding (before ++ c :: cs)
      (cutAt "" (Cursor.start.advanceAll before) kind c cs more)) :
    (kind = .string → Settled (c :: cs.take more)) ∧
      (kind = .comment → startsWith ['/', '*'] (c :: cs.take more) = true →
        Detached before.getLast? (c :: cs.take more) (cs.drop more).head?) := by
  have hoffset : (Cursor.start.advanceAll before).offset = before.length := by
    rw [Cursor.advanceAll_start]
  have hfront : (before ++ c :: cs).take before.length = before := List.take_left
  have hbehind : (before ++ c :: cs).drop (before.length + (c :: cs.take more).length) =
      cs.drop more := by
    have hsplit : before ++ c :: cs = (before ++ c :: cs.take more) ++ cs.drop more := by simp
    rw [hsplit, ← List.length_append, List.drop_left]
  simpa only [Yielding, cutAt, String.toList_ofList, hoffset, hfront, hbehind] using h

/-- Where all the tokens of a text from some place on yield, its comments and blanks can be taken
out from there on. -/
theorem strips_tokensFrom (before cs : List Char) (skip : Nat) (hskip : skip ≤ cs.length)
    (h : ∀ t ∈ tokensFrom "" true (Cursor.start.advanceAll before) skip cs,
      Yielding (before ++ cs) t) :
    Strips (before ++ cs.take skip).getLast? (cs.drop skip) := by
  induction cs generalizing before skip with
  | nil => simpa using Strips.nil
  | cons c cs ih =>
      have hrest : ∀ more ≤ cs.length,
          (∀ t ∈ tokensFrom "" true ((Cursor.start.advanceAll before).advance c) more cs,
            Yielding (before ++ c :: cs) t) →
          Strips (before ++ c :: cs.take more).getLast? (cs.drop more) := by
        intro more hmore h
        have hnext : (Cursor.start.advanceAll before).advance c =
            Cursor.start.advanceAll (before ++ [c]) := by
          rw [Cursor.advanceAll_append, Cursor.advanceAll_cons, Cursor.advanceAll_nil]
        have htext : before ++ [c] ++ cs = before ++ c :: cs := by simp
        rw [hnext, ← htext] at h
        simpa using ih (before ++ [c]) more hmore h
      cases skip with
      | succ skip => exact hrest skip (by simpa using hskip) h
      | zero =>
          simp only [tokensFrom, Bool.true_or, ↓reduceIte] at h
          rw [List.take_zero, List.drop_zero, List.append_nil]
          have hpass : Strips (before ++ [c]).getLast? cs → Strips (some c) cs := by
            rw [List.getLast?_concat]
            exact id
          cases hlay : isLayout c with
          | true =>
              simp only [hlay, ↓reduceIte] at h
              exact .layout hlay (hpass (hrest 0 (Nat.zero_le _) h))
          | false =>
              simp only [hlay, Bool.false_eq_true, ↓reduceIte] at h
              cases hscan : scan c cs with
              | none =>
                  simp only [hscan] at h
                  exact .unread hlay hscan (hpass (hrest 0 (Nat.zero_le _) h))
              | some found =>
                  obtain ⟨kind, more⟩ := found
                  simp only [hscan] at h
                  obtain ⟨hhere, hbehind⟩ := List.forall_mem_cons.mp h
                  obtain ⟨hliteral, hblock⟩ := hhere.of_cutAt
                  have hs := hrest more (scan_le_length hscan) hbehind
                  rw [List.getLast?_append_of_ne_nil _ (List.cons_ne_nil _ _)] at hs
                  exact .cut hlay hscan hliteral hblock hs

/-- What is left of a sketch when its comments and blanks are taken out is read as the words of the
sketch. -/
theorem words_normalize {source : String} (h : Strippable source) :
    Word.words (normalize source.toList) = Word.words source.toList := by
  have hstrips : Strips none source.toList := by
    have hyield : ∀ t ∈ tokenize source "", Yielding source.toList t := fun t ht =>
      ⟨h.literal t ht, h.block t ht⟩
    simpa [Cursor.advanceAll_nil] using
      strips_tokensFrom [] source.toList 0 (Nat.zero_le _) hyield
  have hwords := hstrips.words_resume
  rw [Skim.words_resume] at hwords
  rw [normalize_eq, Word.words, hwords, Word.words, List.filter_filter]
  simp only [Bool.and_self]

/-- Sketches that compare as the same words have the same words, comments aside, if in both of them
neither literals nor comments mislead the comparison. -/
theorem words_eq_of_sameWords {first second : String} (file : String) (hfirst : Strippable first)
    (hsecond : Strippable second) (h : sameWords first.toList second.toList = true) :
    (significant first file).map Token.word = (significant second file).map Token.word := by
  have hnormal : normalize first.toList = normalize second.toList := beq_iff_eq.mp h
  rw [significant_word, significant_word, ← words_normalize hfirst, hnormal,
    words_normalize hsecond]

/-- Comments of both kinds between and inside of lines, and a literal with a space in it. -/
def annotatedText : String :=
  "print(\"a b\", '/');/*one*/ // \"two\n\tx=a/*/ */ /b;"

def unannotatedText : String :=
  "// three /*\nprint(\"a b\", '/'); x=a /b;\n"

theorem words_eq_of_sameWords_annotated :
    Strippable annotatedText ∧ Strippable unannotatedText ∧
      sameWords annotatedText.toList unannotatedText.toList = true ∧
      (significant annotatedText "").map Token.word =
        (significant unannotatedText "").map Token.word :=
  have hfirst : Strippable annotatedText := by decide +kernel
  have hsecond : Strippable unannotatedText := by decide +kernel
  have hsame : sameWords annotatedText.toList unannotatedText.toList = true := by decide +kernel
  ⟨hfirst, hsecond, hsame, words_eq_of_sameWords "" hfirst hsecond hsame⟩

/-- Two different literals that compare as the same words: what looks like a line comment in them
is dropped, and the rest of the line with it. -/
theorem sameWords_misled :
    sameWords "Serial.print(\"//a\");".toList "Serial.print(\"//b\");".toList = true ∧
      (significant "Serial.print(\"//a\");" "").map Token.word ≠
        (significant "Serial.print(\"//b\");" "").map Token.word := by
  decide +kernel

end Skim

end InoBlocks
