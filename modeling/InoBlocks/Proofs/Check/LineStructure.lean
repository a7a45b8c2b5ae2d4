import InoBlocks.Proofs.Token.Tiling
import InoBlocks.Sketch.Check

/-!
# The lines of a masked sketch

The mask keeps the length of a sketch, and every character is either kept or becomes a blank.  Line
feeds are kept as well, all but those that stand behind a backslash in a quoted text: there the mask
passes over the backslash and whatever it escapes.  So up to the first such line feed, and no
further, a place has the same line and column in the sketch and in its mask.
-/

namespace InoBlocks

/-! ## The characters of a mask -/

theorem getElem?_maskFrom_cases (r : Region) (cs : List Char) (i : Nat) :
    (maskFrom r cs)[i]? = cs[i]? ∨ (maskFrom r cs)[i]? = some ' ' := by
  have hblanked : ∀ c, blanked c = c ∨ blanked c = ' ' := by
    intro c
    rw [blanked]
    split
    · exact Or.inl rfl
    · exact Or.inr rfl
  fun_induction maskFrom r cs generalizing i <;> rcases i with _ | _ | i <;> simp_all

/-- Behind a text the mask is inside a literal in some quotes, whatever comes next. -/
def OpensLiteral (r : Region) (quote : Char) (front : List Char) : Prop :=
  ∃ m, ∀ rest, maskFrom r (front ++ rest) = m ++ maskFrom (.literal quote) rest

/-- Whether at an offset of a text, which begins in a region, a line feed stands behind a backslash
in a quoted text. -/
def ContinuesFrom (r : Region) (cs : List Char) (i : Nat) : Prop :=
  ∃ quote front back, OpensLiteral r quote front ∧ cs = front ++ '\\' :: '\n' :: back ∧
    i = front.length + 1

/-- Whether at an offset of a sketch a line feed stands behind a backslash in a quoted text. -/
def IsContinued (cs : List Char) (i : Nat) : Prop :=
  ContinuesFrom .code cs i

/-- A line feed behind a backslash in a quoted text is blanked out. -/
theorem ContinuesFrom.getElem? {r : Region} {cs : List Char} {i : Nat} (h : ContinuesFrom r cs i) :
    (maskFrom r cs)[i]? = some ' ' := by
  obtain ⟨quote, front, back, ⟨m, hm⟩, rfl, rfl⟩ := h
  have hlength : front.length = m.length := by
    have hnil := congrArg List.length (hm [])
    simpa [maskFrom_length, maskFrom] using hnil
  rw [hm, hlength, List.getElem?_append_right (by omega), Nat.add_sub_cancel_left, maskFrom]
  rfl

/-! ## One character -/

theorem maskFrom_code_cons {c : Char} {cs : List Char}
    (h : c = '/' → cs.head? ≠ some '/' ∧ cs.head? ≠ some '*') :
    maskFrom .code (c :: cs) = c :: maskFrom (Region.afterCode c) cs := by
  rw [maskFrom]
  · rintro rest rfl rfl
    exact (h rfl).1 rfl
  · rintro rest rfl rfl
    exact (h rfl).2 rfl

theorem maskFrom_comment_cons {c : Char} {cs : List Char}
    (h : c = '*' → cs.head? ≠ some '/') :
    maskFrom .blockComment (c :: cs) = blanked c :: maskFrom .blockComment cs := by
  rw [maskFrom]
  rintro rest rfl rfl
  exact h rfl rfl

theorem maskFrom_literal_cons {q c : Char} {cs : List Char} (h : c ≠ '\\') :
    maskFrom (.literal q) (c :: cs) =
      if c == q then c :: maskFrom .code cs
      else blanked c :: maskFrom (if c == '\n' then .code else .literal q) cs := by
  rw [maskFrom]
  rintro d rest rfl -
  exact h rfl

/-- A backslash in a literal that escapes nothing is the end of the text. -/
theorem ne_escape_of_mem {c d : Char} {cs : List Char} {i : Nat}
    (hescape : ∀ (e : Char) (rest : List Char), c = '\\' → cs = e :: rest → False)
    (hmem : cs[i]? = some d) : c ≠ '\\' := by
  rintro rfl
  cases cs with
  | nil => cases hmem
  | cons e rest => exact hescape e rest rfl rfl

/-! ## Line feeds -/

/-- A line feed that the mask loses, in a text that begins in a region: it stands behind a backslash
in a quoted text, and right at the front of the text only if the text begins in a literal. -/
def LosesFeed (r : Region) (cs : List Char) (i : Nat) : Prop :=
  ∃ quote front back, (front = [] → r = .literal quote) ∧ OpensLiteral r quote front ∧
    cs = front ++ '\\' :: '\n' :: back ∧ i = front.length + 1

/-- What the mask loses behind one more character, if that character is masked alone whenever the
text behind it begins as this one or is the inside of a literal. -/
theorem LosesFeed.cons {r r' : Region} {c d : Char} {cs : List Char} {i : Nat}
    (h : LosesFeed r' cs i)
    (hstep : ∀ rest, rest.head? = cs.head? ∨ (∃ quote, r' = .literal quote) →
      maskFrom r (c :: rest) = d :: maskFrom r' rest) : LosesFeed r (c :: cs) (i + 1) := by
  obtain ⟨quote, front, back, hfront, ⟨m, hm⟩, rfl, rfl⟩ := h
  refine ⟨quote, c :: front, back, nofun, ⟨d :: m, fun rest => ?_⟩, rfl, rfl⟩
  rw [List.cons_append, hstep, hm, List.cons_append]
  cases front with
  | nil => exact Or.inr ⟨quote, hfront rfl⟩
  | cons e front => exact Or.inl rfl

/-- What the mask loses behind two characters that are masked together. -/
theorem LosesFeed.pair {r r' : Region} {c d : Char} {cs : List Char} {i : Nat}
    (h : LosesFeed r' cs i)
    (hstep : ∀ rest, maskFrom r (c :: d :: rest) = ' ' :: ' ' :: maskFrom r' rest) :
    LosesFeed r (c :: d :: cs) (i + 2) := by
  obtain ⟨quote, front, back, -, ⟨m, hm⟩, rfl, rfl⟩ := h
  refine ⟨quote, c :: d :: front, back, nofun, ⟨' ' :: ' ' :: m, fun rest => ?_⟩, rfl, rfl⟩
  rw [List.cons_append, List.cons_append, hstep, hm]
  rfl

/-- What the mask loses behind a character of the code that opens no comment. -/
theorem LosesFeed.code_cons {c : Char} {cs : List Char} {i : Nat}
    (h : LosesFeed (Region.afterCode c) cs i)
    (hline : ∀ rest, c = '/' → cs = '/' :: rest → False)
    (hblock : ∀ rest, c = '/' → cs = '*' :: rest → False) : LosesFeed .code (c :: cs) (i + 1) := by
  refine h.cons (d := c) fun rest hrest => maskFrom_code_cons fun hslash => ?_
  subst hslash
  obtain hhead | ⟨quote, hopens⟩ := hrest
  · rw [hhead]
    cases cs with
    | nil => simp
    | cons d cs =>
        refine ⟨fun heq => ?_, fun heq => ?_⟩ <;> cases heq
        · exact hline cs rfl rfl
        · exact hblock cs rfl rfl
  · cases hopens

/-- What the mask loses behind a character of a comment that does not end it. -/
theorem LosesFeed.comment_cons {c : Char} {cs : List Char} {i : Nat}
    (h : LosesFeed .blockComment cs i) (hend : ∀ rest, c = '*' → cs = '/' :: rest → False) :
    LosesFeed .blockComment (c :: cs) (i + 1) := by
  refine h.cons (d := blanked c) fun rest hrest => maskFrom_comment_cons fun hstar => ?_
  subst hstar
  obtain hhead | ⟨quote, hopens⟩ := hrest
  · rw [hhead]
    cases cs with
    | nil => simp
    | cons d cs =>
        intro heq
        cases heq
        exact hend cs rfl rfl
  · cases hopens

/-- The mask loses no line feed but those behind a backslash in a quoted text. -/
theorem losesFeed_of_ne (r : Region) (cs : List Char) (i : Nat) (hfeed : cs[i]? = some '\n')
    (hlost : (maskFrom r cs)[i]? ≠ some '\n') : LosesFeed r cs i := by
  fun_induction maskFrom r cs generalizing i with
  | case1 => cases hfeed
  | case2 cs ih =>
      rcases i with _ | _ | i
      · cases hfeed
      · cases hfeed
      · exact (ih i hfeed hlost).pair fun _ => rfl
  | case3 cs ih =>
      rcases i with _ | _ | i
      · cases hfeed
      · cases hfeed
      · exact (ih i hfeed hlost).pair fun _ => rfl
  | case4 c cs hline hblock ih =>
      rcases i with _ | i
      · exact absurd hfeed hlost
      · exact (ih i hfeed hlost).code_cons hline hblock
  | case5 c cs ih =>
      rcases i with _ | i
      · cases hfeed
        exact absurd rfl hlost
      · exact (ih i hfeed hlost).cons (d := blanked c) fun _ _ => by rw [maskFrom]
  | case6 cs ih =>
      rcases i with _ | _ | i
      · cases hfeed
      · cases hfeed
      · exact (ih i hfeed hlost).pair fun _ => rfl
  | case7 c cs hend ih =>
      rcases i with _ | i
      · cases hfeed
        exact absurd rfl hlost
      · exact (ih i hfeed hlost).comment_cons hend
  | case8 q d cs ih =>
      rcases i with _ | _ | i
      · cases hfeed
      · cases hfeed
        exact ⟨q, [], cs, fun _ => rfl, ⟨[], fun _ => rfl⟩, rfl, rfl⟩
      · exact (ih i hfeed hlost).pair fun _ => rfl
  | case9 q c cs hescape hquote ih =>
      rcases i with _ | i
      · exact absurd hfeed hlost
      · have hslash : c ≠ '\\' := ne_escape_of_mem hescape hfeed
        refine (ih i hfeed hlost).cons (d := c) fun rest _ => ?_
        rw [maskFrom_literal_cons hslash, if_pos hquote]
  | case10 q c cs hescape hquote ih =>
      rcases i with _ | i
      · cases hfeed
        exact absurd rfl hlost
      · have hslash : c ≠ '\\' := ne_escape_of_mem hescape hfeed
        refine (ih i hfeed hlost).cons (d := blanked c) fun rest _ => ?_
        rw [maskFrom_literal_cons hslash, if_neg hquote]

/-- The mask has a line feed where the sketch has one that it does not lose. -/
theorem getElem?_mask_feed_iff (cs : List Char) (i : Nat) :
    (mask cs)[i]? = some '\n' ↔ cs[i]? = some '\n' ∧ ¬ IsContinued cs i := by
  constructor
  · intro hmask
    refine ⟨?_, fun hcontinued => ?_⟩
    · obtain hkept | hblank := getElem?_maskFrom_cases .code cs i
      · exact hkept.symm.trans hmask
      · cases hblank.symm.trans hmask
    · cases hcontinued.getElem?.symm.trans hmask
  · rintro ⟨hfeed, hcontinued⟩
    by_contra hlost
    obtain ⟨quote, front, back, -, hopens⟩ := losesFeed_of_ne .code cs i hfeed hlost
    exact hcontinued ⟨quote, front, back, hopens⟩

/-! ## Places -/

/-- Two texts with their line feeds at the same offsets lead to the same place. -/
theorem advanceAll_congr {p : Cursor} {cs ds : List Char} (hlength : cs.length = ds.length)
    (hfeeds : ∀ i : Nat, cs[i]? = some '\n' ↔ ds[i]? = some '\n') :
    p.advanceAll cs = p.advanceAll ds := by
  induction cs generalizing p ds with
  | nil => rw [List.eq_nil_of_length_eq_zero hlength.symm]
  | cons c cs ih =>
      cases ds with
      | nil => cases hlength
      | cons d ds =>
          have hhead : c = '\n' ↔ d = '\n' := by simpa using hfeeds 0
          have hadvance : p.advance c = p.advance d := by
            rw [Cursor.advance, Cursor.advance]
            simp only [hhead]
          rw [Cursor.advanceAll_cons, Cursor.advanceAll_cons, hadvance]
          exact ih (by simpa using hlength) fun i => by simpa using hfeeds (i + 1)

/-- A place in front of which the mask loses no line feed is the same in the mask. -/
theorem advanceAll_take_mask (p : Cursor) {cs : List Char} {i : Nat}
    (h : ∀ j < i, ¬ IsContinued cs j) :
    p.advanceAll (cs.take i) = p.advanceAll ((mask cs).take i) := by
  refine advanceAll_congr ?_ fun j => ?_
  · rw [List.length_take, List.length_take, mask, maskFrom_length]
  · rw [List.getElem?_take, List.getElem?_take]
    split
    · rename_i hj
      rw [getElem?_mask_feed_iff]
      exact ⟨fun hfeed => ⟨hfeed, h j hj⟩, And.left⟩
    · exact Iff.rfl

/-! ## Lines -/

/-- A line of a text, numbered from some number on: it begins the text or stands behind a line
feed, and its number counts the line feeds in front of it. -/
theorem exists_of_mem_lines {cs line : List Char} {first n : Nat}
    (h : (line, n) ∈ (Text.cut (· == '\n') cs).zipIdx first) :
    ∃ front back, cs = front ++ line ++ back ∧ (front = [] ∨ front.getLast? = some '\n') ∧
      n = first + front.count '\n' := by
  induction cs generalizing line first n with
  | nil =>
      simp only [Text.cut, List.zipIdx_cons, List.zipIdx_nil, List.mem_singleton,
        Prod.mk.injEq] at h
      obtain ⟨rfl, rfl⟩ := h
      exact ⟨[], [], rfl, Or.inl rfl, rfl⟩
  | cons c cs ih =>
      rw [Text.cut] at h
      by_cases hc : c = '\n'
      · rw [if_pos (by simpa using hc), List.zipIdx_cons, List.mem_cons] at h
        obtain heq | hmem := h
        · cases heq
          exact ⟨[], c :: cs, rfl, Or.inl rfl, rfl⟩
        · obtain ⟨front, back, rfl, hfront, rfl⟩ := ih hmem
          refine ⟨c :: front, back, rfl, Or.inr ?_, ?_⟩
          · obtain rfl | hlast := hfront
            · rw [hc]
              rfl
            · rw [List.getLast?_cons, hlast]
              rfl
          · rw [hc, List.count_cons_self]
            omega
      · rw [if_neg (by simpa using hc)] at h
        obtain ⟨piece, pieces, hcut⟩ := List.exists_cons_of_ne_nil (Text.cut_ne_nil (· == '\n') cs)
        rw [hcut] at h ih
        simp only [List.zipIdx_cons, List.mem_cons] at h ih
        obtain heq | hmem := h
        · cases heq
          obtain ⟨front, back, rfl, hfront, hcount⟩ := ih (Or.inl (Eq.refl (piece, first)))
          have hnil : front = [] := by
            obtain rfl | hlast := hfront
            · rfl
            · have := List.count_pos_iff.2 (List.mem_of_getLast? hlast)
              omega
          subst hnil
          exact ⟨[], back, rfl, Or.inl rfl, rfl⟩
        · obtain ⟨front, back, rfl, hfront, hcount⟩ := ih (Or.inr hmem)
          have hlater : first + 1 ≤ n := List.le_snd_of_mem_zipIdx hmem
          refine ⟨c :: front, back, rfl, Or.inr ?_, ?_⟩
          · obtain rfl | hlast := hfront
            · simp at hcount
              omega
            · rw [List.getLast?_cons, hlast]
              rfl
          · rw [List.count_cons_of_ne hc]
            exact hcount

/-- A line of a masked sketch is numbered as it is in the sketch, if the mask loses no line feed in
front of it. -/
theorem locate_of_mem_lines {file code : String} {line : List Char} {n : Nat}
    (h : (line, n) ∈ (Text.cut (· == '\n') (mask code.toList)).zipIdx 1) :
    ∃ front back, mask code.toList = front ++ line ++ back ∧
      ((∀ j < front.length, ¬ IsContinued code.toList j) →
        (Check.Subject.ofString file code).locate front.length = ⟨file, n, 1⟩) := by
  obtain ⟨front, back, hmask, hfront, rfl⟩ := exists_of_mem_lines h
  refine ⟨front, back, hmask, fun hcontinued => ?_⟩
  have hcolumn : Cursor.columnAfter front = 1 := by
    obtain rfl | hlast := hfront
    · rfl
    · obtain ⟨front, rfl⟩ := List.getLast?_eq_some_iff.1 hlast
      simp [Cursor.columnAfter]
  have htake : (mask code.toList).take front.length = front := by
    rw [hmask, List.append_assoc, List.take_left']
    rfl
  change (Cursor.start.advanceAll (code.toList.take front.length)).toLocation file = _
  rw [advanceAll_take_mask _ hcontinued, htake, Cursor.advanceAll_start, Cursor.toLocation, hcolumn,
    Nat.add_comm 1]
  rfl

/-! ## The whole mask -/

/-- The mask of a sketch is as long as the sketch, and every character of it is kept or becomes a
blank.  It has its line feeds exactly where the sketch has one that does not stand behind a
backslash in a quoted text.  In front of the first such line feed every offset has the same place in
the sketch and in its mask, and every line of the mask begins at the line of the sketch with its
number. -/
theorem mask_keepsLines (file code : String) :
    let s := Check.Subject.ofString file code
    s.masked.length = s.code.length ∧
      (∀ i : Nat, s.masked[i]? = s.code[i]? ∨ s.masked[i]? = some ' ') ∧
      (∀ i : Nat, s.masked[i]? = some '\n' ↔ s.code[i]? = some '\n' ∧ ¬ IsContinued s.code i) ∧
      (∀ i, (∀ j < i, ¬ IsContinued s.code j) →
        s.locate i = (Cursor.start.advanceAll (s.masked.take i)).toLocation file) ∧
      ∀ line n, (line, n) ∈ (Text.cut (· == '\n') s.masked).zipIdx 1 →
        ∃ front back, s.masked = front ++ line ++ back ∧
          ((∀ j < front.length, ¬ IsContinued s.code j) →
            s.locate front.length = ⟨file, n, 1⟩) := by
  refine ⟨maskFrom_length .code _, getElem?_maskFrom_cases .code _, getElem?_mask_feed_iff _,
    fun i h => ?_, fun line n h => locate_of_mem_lines h⟩
  exact congrArg (Cursor.toLocation · file) (advanceAll_take_mask .start h)

/-- A sketch with a comment over two lines, escaped quotes, and a line feed behind a backslash. -/
def continuedText : String :=
  "/* on\n*/ x = \"\\\"\";\ny = \"e\\\nf\"; // g\nz"

/-- The mask of a sketch that goes on behind a backslash. -/
theorem mask_keepsLines_continued :
    let s := Check.Subject.ofString "lamp.ino" continuedText
    (String.ofList s.masked = "     \n   x = \"  \";\ny = \"    \";     \nz" ∧
      IsContinued s.code 26) ∧
      s.locate 19 = ⟨"lamp.ino", 3, 1⟩ ∧
      ∃ front back, s.masked = front ++ "   x = \"  \";".toList ++ back ∧
        s.locate front.length = ⟨"lamp.ino", 2, 1⟩ := by
  intro s
  obtain ⟨-, -, hfeeds, hplaces, hlines⟩ := mask_keepsLines "lamp.ino" continuedText
  have hfront : ∀ j < 26, ¬ IsContinued s.code j := by
    intro j hj hcontinued
    have hkept : ∀ j < 26, s.code[j]? = some '\n' → s.masked[j]? = some '\n' := by
      decide +kernel
    obtain ⟨quote, front, back, hopens, hcode, rfl⟩ := hcontinued
    refine ((hfeeds _).1 (hkept _ hj ?_)).2 ⟨quote, front, back, hopens, hcode, rfl⟩
    rw [hcode, List.getElem?_append_right (by omega), Nat.add_sub_cancel_left]
    rfl
  refine ⟨⟨by decide +kernel, ?_⟩, ?_, ?_⟩
  · by_contra hkept
    have hfeed : s.masked[26]? = some '\n' := (hfeeds 26).2 ⟨by decide +kernel, hkept⟩
    exact absurd hfeed (by decide +kernel)
  · exact (hplaces 19 fun j hj => hfront j (by omega)).trans (by decide +kernel)
  · obtain ⟨front, back, hmask, hplace⟩ := hlines "   x = \"  \";".toList 2 (by decide +kernel)
    refine ⟨front, back, hmask, hplace fun j hj => hfront j ?_⟩
    have hlength : s.masked.length = 37 := by decide +kernel
    have hline : "   x = \"  \";".toList.length = 12 := by decide +kernel
    rw [hmask, List.length_append, List.length_append] at hlength
    omega

/-- A line feed behind a backslash in a quoted text is blanked out, and the line behind it is
numbered as if it were not there. -/
theorem mask_losesLine :
    let s := Check.Subject.ofString "lamp.ino" "x = \"a\\\nb\";\ny"
    s.code[7]? = some '\n' ∧ s.masked[7]? = some ' ' ∧
      s.code.drop 12 = ['y'] ∧ s.locate 12 = ⟨"lamp.ino", 3, 1⟩ ∧
      Check.semicolonFindings s =
        [⟨.warning, "line 2 may be missing a semicolon", some ⟨"lamp.ino", 2, 1⟩, Check.stage⟩] := by
  decide +kernel

end InoBlocks
