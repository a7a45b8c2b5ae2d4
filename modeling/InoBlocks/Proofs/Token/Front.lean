import InoBlocks.Proofs.Token.Tiling
import InoBlocks.Proofs.Token.FirmText

/-!
# Tokens in front of another text

Where a token ends is settled by its own characters and the one behind them.  So the token is cut
again in front of every text that begins with the same character, or with one that does not go
together with the token's last.
-/

namespace InoBlocks

namespace Token

open Word

/-! ## Characters that go together -/

/-- Whether two characters that stand side by side outside of literals may belong to one token. -/
def joins (c d : Char) : Bool :=
  ((Text.isNameChar c || c == '.') && (Text.isNameChar d || d == '.')) ||
    (TokenKind.ofPair? c d).isSome || (c == '/' && (d == '/' || d == '*'))

theorem joins_isLayout {d : Char} (h : isLayout d = true) (c : Char) : joins c d = false := by
  simp only [isLayout, Bool.or_eq_true, beq_iff_eq] at h
  have hpair : TokenKind.ofPair? c d = none := by
    unfold TokenKind.ofPair?
    split <;> simp_all
  have hname : (Text.isNameChar d || d == '.') = false := by
    rcases h with ((((rfl | rfl) | rfl) | rfl) | rfl) | rfl <;> decide
  have hslash : (d == '/' || d == '*') = false := by
    rcases h with ((((rfl | rfl) | rfl) | rfl) | rfl) | rfl <;> decide
  rw [joins, hpair, hname, hslash]
  simp

theorem joins_of_name {c d : Char} (hc : Text.isNameChar c = true ∨ c = '.')
    (hd : Text.isNameChar d = true ∨ d = '.') : joins c d = true := by
  simp [joins, hc, hd]

/-- An operator goes together with what makes a longer one of it. -/
theorem joins_of_symbol {kind : TokenKind} {s : String} (hsymbol : kind.symbol? = some s)
    {p d : Char} (hlast : s.toList.getLast? = some p) (hruns : kind.runsOn d = true) :
    joins p d = true := by
  cases kind <;> simp only [TokenKind.symbol?, Option.some.injEq, reduceCtorEq] at hsymbol <;>
    subst hsymbol <;> obtain rfl := Option.some.inj hlast <;>
    simp only [TokenKind.runsOn, Bool.false_eq_true, Bool.or_eq_true, beq_iff_eq] at hruns
  case assign | lessThan | greaterThan | logicalNot | minus => subst hruns; rfl
  case plus | divide => rcases hruns with rfl | rfl <;> rfl

/-- A token's last character goes together with every character that runs on from the token. -/
theorem joins_of_runsOn {c : Char} {cs : List Char} {kind : TokenKind} {more : Nat}
    (h : scan c cs = some (kind, more)) (hkind : kind ≠ .comment) {p d : Char}
    (hlast : (c :: cs.take more).getLast? = some p) (hruns : kind.runsOn d = true) :
    joins p d = true := by
  have hmem : p ∈ c :: cs.take more := List.mem_of_getLast? hlast
  rcases scan_cases h hkind with ⟨-, rfl, -⟩ | ⟨-, rfl, -⟩ | ⟨-, hk, -⟩ | ⟨-, -, hop⟩
  · cases hruns
  · rcases chars_of_scan h hkind (by decide) with hchars | ⟨-, hsymbol⟩
    · refine joins_of_name (hchars p hmem) ?_
      simp only [TokenKind.runsOn, Bool.or_eq_true, beq_iff_eq] at hruns
      exact hruns.imp_left Text.isNameChar_of_isDigit
    · cases hsymbol
  · have hstring : kind ≠ .string := by
      rw [hk]
      exact (TokenKind.ofWord_ne _).1
    have hd : Text.isNameChar d = true := by
      rwa [hk, TokenKind.runsOn_ofWord] at hruns
    rcases chars_of_scan h hkind hstring with hchars | ⟨-, hsymbol⟩
    · exact joins_of_name (hchars p hmem) (Or.inl hd)
    · rw [hk, TokenKind.symbol?_ofWord] at hsymbol
      cases hsymbol
  · have hsymbol := symbol?_of_scanOperator hop
    exact joins_of_symbol hsymbol (by rwa [String.toList_ofList]) hruns

theorem scan_string {c : Char} {cs : List Char} {more : Nat}
    (h : scan c cs = some (.string, more)) : (c = '"' ∨ c = '\'') ∧ more = literalLength c cs := by
  rcases scan_cases h (by decide) with ⟨hc, -, hm⟩ | ⟨-, hk, -⟩ | ⟨-, hk, -⟩ | ⟨-, -, hop⟩
  · exact ⟨hc, hm⟩
  · cases hk
  · exact absurd hk.symm (TokenKind.ofWord_ne _).1
  · cases symbol?_of_scanOperator hop

/-! ## The same character behind a token -/

/-- A number is as long in front of any text that begins with the same character. -/
theorem numberLength_front (pointed : Bool) (cs : List Char) {rest : List Char}
    (hrest : rest.head? = (cs.drop (numberLength pointed cs)).head?) :
    numberLength pointed (cs.take (numberLength pointed cs) ++ rest) =
      numberLength pointed cs := by
  fun_induction numberLength pointed cs with
  | case1 =>
      cases rest with
      | nil => rfl
      | cons d ds => cases hrest
  | case2 pointed c cs hdigit ih => simp [numberLength, hdigit, ih hrest]
  | case3 pointed c cs hdigit hpoint ih => simp [numberLength, hdigit, hpoint, ih hrest]
  | case4 pointed c cs hdigit hpoint =>
      cases rest with
      | nil => rfl
      | cons d ds =>
          obtain rfl : d = c := by simpa using hrest
          simp [numberLength, hdigit, hpoint]

/-- A name ends in front of what is no character of a name. -/
theorem apart_nameLength (cs : List Char) :
    Apart Text.isNameChar (cs.drop (nameLength cs)) := by
  intro d hd
  have hsplit : cs.drop (nameLength cs) = cs.dropWhile Text.isNameChar := by
    have hall := List.takeWhile_append_dropWhile (p := Text.isNameChar) (l := cs)
    have hdrop := congrArg (List.drop (nameLength cs)) hall
    rwa [nameLength, List.drop_left, eq_comm] at hdrop
  rw [hsplit] at hd
  have hhead := List.head?_dropWhile_not Text.isNameChar cs
  rw [hd] at hhead
  simpa using hhead

/-- An operator is the same in front of any text that begins with the same character. -/
theorem scanOperator_front {c : Char} {cs : List Char} {kind : TokenKind} {more : Nat}
    (h : scanOperator c cs = some (kind, more)) {rest : List Char}
    (hrest : rest.head? = (cs.drop more).head?) :
    (cs.take more ++ rest).head? = cs.head? ∧
      scanOperator c (cs.take more ++ rest) = some (kind, more) := by
  have hhead : (cs.take more ++ rest).head? = cs.head? := by
    cases more with
    | zero => simpa using hrest
    | succ more =>
        cases cs with
        | nil => simpa using hrest
        | cons d ds => rfl
  exact ⟨hhead, by rw [← h, scanOperator, scanOperator, hhead]⟩

theorem opensComment_congr {c : Char} {cs ds : List Char} (h : ds.head? = cs.head?) :
    opensComment (c :: ds) = opensComment (c :: cs) := by
  by_cases hc : c = '/'
  · subst hc
    cases cs <;> cases ds <;> simp_all [opensComment]
  · rw [opensComment_of_ne hc, opensComment_of_ne hc]

/-- A token that does not end its text is cut again in front of every text that goes on with the
same character. -/
theorem scan_same {c : Char} {cs : List Char} {kind : TokenKind} {more : Nat}
    (h : scan c cs = some (kind, more)) (hkind : kind ≠ .comment) (hmore : more < cs.length)
    {rest : List Char} (hrest : rest.head? = (cs.drop more).head?) :
    scan c (cs.take more ++ rest) = some (kind, more) := by
  rcases scan_cases h hkind with ⟨hc, rfl, rfl⟩ | ⟨hc, rfl, rfl⟩ | ⟨-, hk, hm⟩ | ⟨hc, hopen, hop⟩
  · rw [scan_quote hc, literalLength_take hmore]
  · rw [scan_digit hc, numberLength_front false cs hrest]
  · refine scan_take h hkind (fun _ => hmore) ?_
    rw [hk, TokenKind.runsOn_ofWord]
    intro d hd
    rw [hrest, hm] at hd
    exact apart_nameLength cs d hd
  · obtain ⟨hhead, hop'⟩ := scanOperator_front hop hrest
    rw [scan_other hc (by rwa [opensComment_congr hhead]), hop']

/-- A token is cut again in front of a text that begins as before, or with what does not go together
with the token's last character.  Behind a literal that may be open nothing may come. -/
theorem scan_front {c : Char} {cs : List Char} {kind : TokenKind} {more : Nat}
    (h : scan c cs = some (kind, more)) (hkind : kind ≠ .comment) {rest : List Char}
    (hopen : kind = .string → cs.drop more = [] → rest = [])
    (hrest : ∀ p ∈ (c :: cs.take more).getLast?, ∀ d ∈ rest.head?,
      (cs.drop more).head? = some d ∨ joins p d = false) :
    scan c (cs.take more ++ rest) = some (kind, more) := by
  have hapart : (∀ d ∈ rest.head?, (cs.drop more).head? ≠ some d) →
      Apart kind.runsOn rest := by
    intro hne d hd
    rw [← Bool.not_eq_true]
    intro hruns
    obtain ⟨p, hp⟩ : ∃ p, (c :: cs.take more).getLast? = some p :=
      ⟨_, List.getLast?_eq_some_getLast (List.cons_ne_nil _ _)⟩
    have hjoins := (hrest p hp d hd).resolve_left (hne d hd)
    rw [joins_of_runsOn h hkind hp hruns] at hjoins
    cases hjoins
  by_cases hmore : more < cs.length
  · by_cases hsame : rest.head? = (cs.drop more).head?
    · exact scan_same h hkind hmore hsame
    · exact scan_take h hkind (fun _ => hmore)
        (hapart fun d hd heq => hsame ((Option.mem_def.mp hd).trans heq.symm))
  · have hend : cs.drop more = [] := List.drop_eq_nil_of_le (by omega)
    by_cases hnil : rest = []
    · rwa [hnil, List.append_nil, List.take_of_length_le (by omega)]
    · refine scan_take h hkind (fun hstring => absurd (hopen hstring hend) hnil)
        (hapart fun d _ heq => ?_)
      rw [hend] at heq
      cases heq

/-- A character that no rule reads is read in front of no text that goes on as before, or with what
does not go together with it. -/
theorem scan_of_unread {c : Char} {cs rest : List Char} (h : Unread c cs)
    (hrest : ∀ d ∈ rest.head?, cs.head? = some d ∨ joins c d = false) : scan c rest = none := by
  have hslash : c ≠ '/' := by
    rintro rfl
    cases h.single
  have hpair : rest.head?.bind (TokenKind.ofPair? c) = none := by
    cases hhead : rest.head? with
    | none => rfl
    | some d =>
        rcases hrest d hhead with hsame | hjoins
        · exact h.pair d hsame
        · simp only [joins, Bool.or_eq_false_iff, Option.isSome_eq_false_iff,
            Option.isNone_iff_eq_none] at hjoins
          exact hjoins.1.2
  rw [scan_of_not_opensComment (opensComment_of_ne hslash rest), if_neg (by simpa using h.quote),
    if_neg (by simp [h.digit]), if_neg (by simp [h.name]), scanOperator, hpair, h.single]
  rfl

end Token

namespace Word

/-- A text that begins with a token which is cut there as well is read as the token's word first. -/
theorem read_front (read : List Char → List Word) [Cutting read] {c : Char} {cs rest : List Char}
    {kind : TokenKind} {more : Nat} (hc : Token.isLayout c = false)
    (h : Token.scan c cs = some (kind, more)) (hkind : kind ≠ .comment)
    (hfront : Token.scan c (cs.take more ++ rest) = some (kind, more)) :
    read (c :: cs.take more ++ rest) =
      ⟨kind, String.ofList (c :: cs.take more)⟩ :: read rest := by
  have hlength : (cs.take more).length = more := List.length_take_of_le (Token.scan_le h hkind)
  have htake : (cs.take more ++ rest).take more = cs.take more := by
    rw [List.take_append_of_le_length (Nat.le_of_eq hlength.symm),
      List.take_of_length_le (Nat.le_of_eq hlength)]
  have hdrop : (cs.take more ++ rest).drop more = rest := List.drop_left' hlength
  have hcut : read (c :: (cs.take more ++ rest)) = _ := Cutting.scan hc hfront hkind
  rw [List.cons_append, hcut, htake, hdrop]

end Word

end InoBlocks
