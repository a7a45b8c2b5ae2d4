import InoBlocks.Proofs.Token.Front

/-!
# Texts that leave nothing open

A text that leaves neither a comment nor a literal open at its end can be seen from a semicolon
behind it, which is a word of its own then.  Such a text is read as the same words in front of
every semicolon and every closing parenthesis.
-/

namespace InoBlocks

namespace Token

def isClosing (d : Char) : Bool :=
  d == ';' || d == ')'

theorem joins_isClosing {d : Char} (h : isClosing d = true) (c : Char) : joins c d = false := by
  simp only [isClosing, Bool.or_eq_true, beq_iff_eq] at h
  have hpair : TokenKind.ofPair? c d = none := by
    unfold TokenKind.ofPair?
    split <;> simp_all
  rcases h with rfl | rfl <;> simp [joins, hpair, Text.isNameChar]

/-- A block comment that ends before its text does is as long in front of any other text. -/
theorem commentLength_take {cs : List Char} (h : commentLength cs < cs.length)
    (rest : List Char) :
    commentLength (cs.take (commentLength cs) ++ rest) = commentLength cs := by
  fun_induction commentLength cs with
  | case1 => simp at h
  | case2 cs => rfl
  | case3 c cs hfront ih =>
      have hlt : commentLength cs < cs.length := by simpa using h
      rw [List.take_succ_cons, List.cons_append, commentLength, ih hlt]
      rintro ds rfl happend
      cases cs with
      | nil => cases hlt
      | cons d cs =>
          cases hlength : commentLength (d :: cs) with
          | zero =>
              unfold commentLength at hlength
              split at hlength <;> simp_all
          | succ n =>
              rw [hlength, List.take_succ_cons, List.cons_append] at happend
              exact hfront cs rfl (by rw [(List.cons.inj happend).1])

/-- A comment that ends before its text does is cut again, if a line feed behind it is kept. -/
theorem scan_comment_front {c : Char} {cs rest : List Char} {more : Nat}
    (h : scan c cs = some (.comment, more)) (hmore : more < cs.length)
    (hrest : (cs.drop more).head? = some '\n' → rest.head? = some '\n') :
    scan c (cs.take more ++ rest) = some (.comment, more) := by
  obtain ⟨inside, ⟨htext, rfl⟩ | ⟨htext, rfl⟩⟩ := scan_comment h
  · obtain ⟨rfl, rfl⟩ := List.cons.inj htext
    have htake : inside.take (inside.takeWhile (· != '\n')).length =
        inside.takeWhile (· != '\n') :=
      (List.prefix_iff_eq_take.mp (List.takeWhile_prefix _)).symm
    have hdrop : inside.drop (inside.takeWhile (· != '\n')).length =
        inside.dropWhile (· != '\n') := by
      have hsplit := List.takeWhile_append_dropWhile (p := (· != '\n')) (l := inside)
      have hbehind := congrArg (List.drop (inside.takeWhile (· != '\n')).length) hsplit
      rwa [List.drop_left, eq_comm] at hbehind
    have hstop : rest.takeWhile (· != '\n') = [] := by
      have hhead := List.head?_dropWhile_not (· != '\n') inside
      rw [List.drop_succ_cons, hdrop] at hrest
      cases rest with
      | nil => rfl
      | cons d ds =>
          cases hline : (inside.dropWhile (· != '\n')).head? with
          | none =>
              have hlong := List.head?_eq_none_iff.mp (hdrop ▸ hline)
              rw [List.drop_eq_nil_iff] at hlong
              simp only [List.length_cons] at hmore
              omega
          | some e =>
              rw [hline] at hhead hrest
              obtain rfl : e = '\n' := by simpa using hhead
              obtain rfl : d = '\n' := by simpa using hrest rfl
              rfl
    have hall : ∀ d ∈ inside.takeWhile (· != '\n'), (d != '\n') = true :=
      List.all_eq_true.mp List.all_takeWhile
    have hlength : ((inside.take (inside.takeWhile (· != '\n')).length ++ rest).takeWhile
        (· != '\n')).length = (inside.takeWhile (· != '\n')).length := by
      rw [htake, List.takeWhile_append_of_pos hall, hstop, List.append_nil]
    exact congrArg (fun n => some (TokenKind.comment, n + 1)) hlength
  · obtain ⟨rfl, rfl⟩ := List.cons.inj htext
    have hinside : commentLength inside < inside.length := by simpa using hmore
    have hlength := commentLength_take hinside rest
    exact congrArg (fun n => some (TokenKind.comment, n + 1)) hlength

/-- A token that a semicolon behind the text does not belong to is cut again without it, and with
any other text behind that nothing goes together with. -/
theorem scan_closing {c : Char} {cs : List Char} {kind : TokenKind} {more : Nat}
    (h : scan c (cs ++ [';']) = some (kind, more)) (hmore : more ≤ cs.length) {rest : List Char}
    (hrest : ∀ d ∈ rest.head?, isClosing d = true) :
    scan c (cs ++ rest) = some (kind, more) := by
  have htake : (cs ++ [';']).take more = cs.take more := List.take_append_of_le_length hmore
  have hdrop : (cs ++ [';']).drop more = cs.drop more ++ [';'] :=
    List.drop_append_of_le_length hmore
  have hfront : scan c (cs.take more ++ (cs.drop more ++ rest)) = some (kind, more) := by
    rw [← htake]
    by_cases hcomment : kind = .comment
    · subst hcomment
      have hlt : more < (cs ++ [';']).length := by
        simp only [List.length_append, List.length_singleton]
        omega
      refine scan_comment_front h hlt ?_
      intro hline
      rw [hdrop] at hline
      cases hbehind : cs.drop more with
      | nil =>
          rw [hbehind] at hline
          cases hline
      | cons d ds => rwa [hbehind] at hline
    · refine scan_front h hcomment (fun _ hend => ?_) fun p _ d hd => ?_
      · rw [hdrop] at hend
        simp at hend
      · cases hbehind : cs.drop more with
        | nil =>
            rw [hbehind] at hd
            exact Or.inr (joins_isClosing (hrest d hd) p)
        | cons e es =>
            rw [hbehind] at hd
            rw [hdrop, hbehind]
            exact Or.inl hd
  rwa [← List.append_assoc, List.take_append_drop] at hfront

/-- A character that no rule reads in front of a semicolon is not read without it either. -/
theorem scan_closing_none {c : Char} {cs : List Char} (h : scan c (cs ++ [';']) = none)
    {rest : List Char} (hrest : ∀ d ∈ rest.head?, isClosing d = true) :
    scan c (cs ++ rest) = none := by
  refine scan_of_unread (unread_of_scan h) fun d hd => ?_
  cases cs with
  | nil => exact Or.inr (joins_isClosing (hrest d hd) c)
  | cons e es => exact Or.inl hd

end Token

namespace Word

open Token

/-- A text with nothing open at its end: a semicolon behind it is a word of its own. -/
def Closed (cs : List Char) : Prop :=
  words (cs ++ [';']) = words cs ++ [⟨.semicolon, ";"⟩]

instance : DecidablePred Closed := fun cs =>
  inferInstanceAs (Decidable (words (cs ++ [';']) = words cs ++ [⟨.semicolon, ";"⟩]))

/-- What the words at the front of a text say of a closed text. -/
theorem words_closing {c : Char} {cs : List Char} (hc : isLayout c = false) {kind : TokenKind}
    {more : Nat} (hscan : scan c (cs ++ [';']) = some (kind, more)) (hmore : more ≤ cs.length) :
    ∃ front, ∀ rest, (∀ d ∈ rest.head?, isClosing d = true) →
      words (c :: (cs ++ rest)) = front ++ words (cs.drop more ++ rest) := by
  have hcut : ∀ rest, (∀ d ∈ rest.head?, isClosing d = true) →
      scan c (cs ++ rest) = some (kind, more) ∧ (cs ++ rest).take more = cs.take more ∧
        (cs ++ rest).drop more = cs.drop more ++ rest := fun rest hrest =>
    ⟨scan_closing hscan hmore hrest, List.take_append_of_le_length hmore,
      List.drop_append_of_le_length hmore⟩
  by_cases hcomment : kind = .comment
  · subst hcomment
    refine ⟨[], fun rest hrest => ?_⟩
    obtain ⟨h, -, hdrop⟩ := hcut rest hrest
    rw [words_comment hc h, hdrop, List.nil_append]
  · refine ⟨[⟨kind, String.ofList (c :: cs.take more)⟩], fun rest hrest => ?_⟩
    obtain ⟨h, htake, hdrop⟩ := hcut rest hrest
    rw [words_scan hc h hcomment, htake, hdrop, List.singleton_append]

/-- A token that takes in a semicolon behind the text leaves it open. -/
theorem not_closed {c : Char} {cs : List Char} (hc : isLayout c = false) {kind : TokenKind}
    {more : Nat} (hscan : scan c (cs ++ [';']) = some (kind, more)) (hmore : cs.length < more) :
    ¬ Closed (c :: cs) := by
  intro h
  unfold Closed at h
  have hall : (cs ++ [';']).length ≤ more := by
    rw [List.length_append, List.length_singleton]
    omega
  have hdrop : (cs ++ [';']).drop more = [] := List.drop_eq_nil_of_le hall
  have htake : (cs ++ [';']).take more = cs ++ [';'] := List.take_of_length_le hall
  by_cases hcomment : kind = .comment
  · subst hcomment
    rw [List.cons_append, words_comment hc hscan, hdrop] at h
    simp at h
  · rw [List.cons_append, words_scan hc hscan hcomment, hdrop, htake, words_nil] at h
    have hlast := congrArg List.getLast? h
    rw [List.getLast?_singleton, List.getLast?_concat, Option.some.injEq] at hlast
    have htext := congrArg (fun w => w.text.toList.length) hlast
    simp at htext

/-- A text with nothing open at its end is read by itself in front of what nothing goes together
with. -/
theorem Closed.words_append {cs : List Char} (h : Closed cs) {d : Char} (hd : isClosing d = true)
    (rest : List Char) : words (cs ++ d :: rest) = words cs ++ words (d :: rest) := by
  have hrest : ∀ e ∈ (d :: rest).head?, isClosing e = true := fun e he =>
    Option.some.inj he ▸ hd
  have hsemicolon : ∀ e ∈ [';'].head?, isClosing e = true := fun e he => Option.some.inj he ▸ rfl
  have hnone : ∀ e ∈ ([] : List Char).head?, isClosing e = true := nofun
  match cs with
  | [] => rfl
  | c :: cs =>
      cases hlay : isLayout c with
      | true =>
          unfold Closed at h
          rw [List.cons_append, words_layout hlay, words_layout hlay] at h
          rw [List.cons_append, words_layout hlay, words_layout hlay]
          exact Closed.words_append h hd rest
      | false =>
          cases hscan : scan c (cs ++ [';']) with
          | none =>
              have halone := scan_closing_none hscan hnone
              rw [List.append_nil] at halone
              unfold Closed at h
              rw [List.cons_append, words_unread hlay hscan, words_unread hlay halone] at h
              rw [List.cons_append, words_unread hlay (scan_closing_none hscan hrest),
                words_unread hlay halone]
              exact Closed.words_append h hd rest
          | some found =>
              obtain ⟨kind, more⟩ := found
              by_cases hmore : more ≤ cs.length
              · obtain ⟨front, hfront⟩ := words_closing hlay hscan hmore
                have halone := hfront [] hnone
                rw [List.append_nil, List.append_nil] at halone
                unfold Closed at h
                rw [List.cons_append, hfront _ hsemicolon, halone, List.append_assoc] at h
                rw [List.cons_append, hfront _ hrest, halone, List.append_assoc,
                  Closed.words_append (List.append_cancel_left h) hd rest]
              · exact absurd h (not_closed hlay hscan (by omega))
termination_by cs.length

end Word

end InoBlocks
