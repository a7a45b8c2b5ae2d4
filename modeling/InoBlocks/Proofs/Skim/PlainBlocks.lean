import InoBlocks.Proofs.Skim.PlainStatements

/-!
# The bodies of plain sketches

The text of some plain statements is read as their blocks, whatever the blanks between the lines
are.  A piece with a body has the block of its header around the blocks of the body.
-/

namespace InoBlocks

namespace Plain

open Text Skim

/-! ## Headers and bodies -/

theorem take_bracketed (o c : Char) (inside rest : List Char) :
    ((o :: (inside ++ c :: rest)).take (inside.length + 1)).drop 1 = inside := by
  rw [List.take_succ_cons, List.drop_succ_cons, List.drop_zero, List.take_left]

theorem drop_bracketed (o c : Char) (inside rest : List Char) :
    (o :: (inside ++ c :: rest)).drop (inside.length + 1 + 1) = rest := by
  rw [List.drop_succ_cons, ← List.drop_drop, List.drop_left, List.drop_succ_cons, List.drop_zero]

theorem trim_braced (front inside : List Char) (hfront : ∃ c cs, front = c :: cs ∧ isBlank c = false) :
    trim (' ' :: (front ++ (inside ++ ['}']))) = front ++ (inside ++ ['}']) := by
  obtain ⟨c, cs, rfl, hc⟩ := hfront
  have hblanks : ∀ c ∈ [' '], isBlank c = true := by decide
  exact trim_of_ends hblanks ⟨c, _, rfl, hc⟩ ⟨c :: cs ++ inside, '}', by simp, by decide⟩

/-- What stands between the parentheses of a header, and the braces behind it. -/
theorem header?_headerChars {word : String} (hword : IsWordText word.toList) {inside : List Char}
    (hinert : inside.all isInert = true) (htight : Tight inside) (body : List Char) :
    header? (headerChars word inside ++ (body ++ ['}'])) = some (inside, '{' :: (body ++ ['}'])) := by
  have hfront : ∀ c ∈ word.toList ++ [' '], (c != '(') = true := by
    refine List.forall_mem_append.mpr ⟨fun c hc => ?_, by decide⟩
    have hne : c ≠ '(' := by
      rintro rfl
      exact absurd (hword.chars _ hc) (by decide)
    simpa using hne
  have htext : headerChars word inside ++ (body ++ ['}']) =
      (word.toList ++ [' ']) ++ '(' :: (inside ++ ')' :: ' ' :: '{' :: (body ++ ['}'])) := by
    simp [headerChars]
  have hdrop : (headerChars word inside ++ (body ++ ['}'])).dropWhile (· != '(') =
      '(' :: (inside ++ ')' :: ' ' :: '{' :: (body ++ ['}'])) := by
    rw [htext, List.dropWhile_append_of_pos hfront, List.dropWhile_cons_of_neg (by decide)]
  have htrim : trim (' ' :: '{' :: (body ++ ['}'])) = '{' :: (body ++ ['}']) :=
    trim_braced ['{'] body ⟨'{', [], rfl, by decide⟩
  rw [header?, hdrop, closing?_parentheses (nested_of_inert hinert), Option.map_some,
    take_bracketed, drop_bracketed, htight.trim_eq, htrim]

/-- A body between braces, and what stands behind it. -/
theorem bodyAndRest_braced {inside : List Char} (h : Nested inside) (behind : List Char) :
    bodyAndRest ('{' :: (inside ++ '}' :: behind)) = (inside, trim behind) := by
  rw [bodyAndRest, closing?_braces h]
  dsimp only
  rw [take_bracketed, drop_bracketed]

theorem bodyAndRest_body {inside : List Char} (h : Nested inside) :
    bodyAndRest ('{' :: (inside ++ ['}'])) = (inside, []) :=
  bodyAndRest_braced h []

/-! ## Counted loops -/

/-- Behind its type, the header of a loop that counts is taken apart mark by mark. -/
theorem countedTo?_count (bound : Integer) :
    countedTo? ("i = 0; i < ".toList ++ (bound.chars ++ countBack)) = some bound.chars := by
  have hback : countBack = [';', ' ', 'i', '+', '+'] := by decide
  have htail : trimStart (' ' :: (bound.chars ++ countBack)) = bound.chars ++ countBack := by
    obtain ⟨c, cs, hchars, hc, -⟩ := bound.isWordText.tight.head
    rw [trimStart, List.dropWhile_cons_of_pos (by decide), hchars, List.cons_append,
      List.dropWhile_cons_of_neg (by simp [hc])]
  have hword : ∀ c ∈ bound.chars, isWord c = true := fun c hc =>
    isWord_of_isNameChar (bound.isWordText.chars c hc)
  have htake : (bound.chars ++ countBack).takeWhile isWord = bound.chars := by
    rw [List.takeWhile_append_of_pos hword, hback, List.takeWhile_cons_of_neg (by decide),
      List.append_nil]
  have hdrop : (bound.chars ++ countBack).dropWhile isWord = countBack := by
    rw [List.dropWhile_append_of_pos hword, hback, List.dropWhile_cons_of_neg (by decide)]
  generalize ht : bound.chars ++ countBack = t at htail htake hdrop
  have hname : spanName? ("i = 0; i < ".toList ++ t) = some (['i'], " = 0; i < ".toList ++ t) :=
    rfl
  have hstart : afterMark? '=' (" = 0; i < ".toList ++ t) = some ("0; i < ".toList ++ t) := rfl
  have hzero : afterMark? '0' ("0; i < ".toList ++ t) = some ("; i < ".toList ++ t) := rfl
  have hend : afterMark? ';' ("; i < ".toList ++ t) = some ("i < ".toList ++ t) := rfl
  have hagain : after? ['i'] ("i < ".toList ++ t) = some (" < ".toList ++ t) := rfl
  have hsmaller : afterMark? '<' (" < ".toList ++ t) = some t := by
    change some (trimStart (' ' :: t)) = _
    rw [htail]
  have hsemicolon : afterMark? ';' countBack = some "i++".toList := by decide
  have hstep : after? ['i'] "i++".toList = some ['+', '+'] := by decide
  have hsigns : (trimStart ['+', '+'] == ['+', '+']) = true := by decide
  have hbound : bound.chars.isEmpty = false := by simp [bound.ne_nil]
  simp only [countedTo?, hname, hstart, hzero, hend, hagain, hsmaller, htake, hdrop, hsemicolon,
    hstep, hsigns, hbound, Option.bind_eq_bind, Option.bind_some, Bool.false_eq_true, if_false,
    if_true]

theorem repetition?_count (bound : Integer) :
    repetition? (countChars bound) = some bound.chars := by
  have htype : afterType? (countChars bound) =
      some ("int", "i = 0; i < ".toList ++ (bound.chars ++ countBack)) := by
    have hfront : countFront = "int ".toList ++ "i = 0; i < ".toList := by decide
    rw [countChars, hfront, List.append_assoc]
    rfl
  rw [repetition?, behindType?, htype, Option.bind_some, countedTo?_count]
  rfl

theorem countedLoop_count (bound : Integer) (body : List Block) :
    countedLoop (countChars bound) body = (Header.forLoop bound).block body := by
  have hnumber : numberIn (some bound.chars) "10" .natural = .number bound.text := by
    rw [numberIn, Option.map_some]
    exact congrArg Block.number (bound.ofField_eq "10" (Or.inr rfl) rfl)
  rw [countedLoop, repetition?_count]
  dsimp only
  rw [hnumber]
  rfl

/-! ## Pieces with a body -/

theorem startsHeader_headerChars (word : String) (inside rest : List Char) :
    startsHeader word (headerChars word inside ++ rest) = true := by
  have hblank : trimStart (' ' :: '(' :: (inside ++ [')', ' ', '{'] ++ rest)) =
      '(' :: (inside ++ [')', ' ', '{'] ++ rest) := by
    rw [trimStart, List.dropWhile_cons_of_pos (by decide), List.dropWhile_cons_of_neg (by decide)]
  have htext : headerChars word inside ++ rest =
      word.toList ++ ' ' :: '(' :: (inside ++ [')', ' ', '{'] ++ rest) := by
    simp [headerChars]
  rw [startsHeader, htext, after?_eq_some.mpr rfl, Option.map_some, hblank]
  rfl

theorem startsHeader_other {word other : String} (hword : IsWordText word.toList)
    (hother : other.toList.all isNameChar = true) (hne : word.toList ≠ other.toList)
    (inside rest : List Char) :
    startsHeader other (headerChars word inside ++ rest) = false := by
  have htext : headerChars word inside ++ rest =
      word.toList ++ ' ' :: '(' :: (inside ++ [')', ' ', '{'] ++ rest) := by
    simp [headerChars]
  rw [htext]
  exact startsHeader_of_ne hword (by decide) hother hne

theorem chunk?_if (r : Reader) (inside rest : List Char) :
    chunk? r (headerChars "if" inside ++ rest) = some (choice r (headerChars "if" inside ++ rest)) := by
  rw [chunk?, startsHeader_headerChars]
  rfl

theorem choice_branch {r : Reader} {test : Condition}
    (htest : r.condition test.chars = test.block) {inside : List Char} (hinside : Nested inside) :
    choice r (headerChars "if" test.chars ++ (inside ++ ['}'])) =
      (Header.branch test).block (r.block inside) := by
  rw [choice, arms?, header?_headerChars (Plain.isWordText "if" (by decide)) test.inert test.tight,
    Option.bind_eq_bind, Option.bind_some]
  dsimp only
  rw [bodyAndRest_body hinside, htest]
  rfl

theorem choice_alternative {r : Reader} {test : Condition}
    (htest : r.condition test.chars = test.block) {inside inside' : List Char}
    (hinside : Nested inside) (hinside' : Nested inside') :
    choice r (headerChars "if" test.chars ++ (inside ++ (elseChars ++ (inside' ++ ['}'])))) =
      choiceBlock test (r.block inside) (r.block inside') := by
  have htext : inside ++ (elseChars ++ (inside' ++ ['}'])) =
      (inside ++ (elseChars ++ inside')) ++ ['}'] := by simp
  have hbody : '{' :: (inside ++ (elseChars ++ inside') ++ ['}']) =
      '{' :: (inside ++ '}' :: ' ' :: (elseFront ++ ('{' :: inside' ++ ['}']))) := by
    simp [elseChars_eq]
  have hbehind : trim (' ' :: (elseFront ++ ('{' :: inside' ++ ['}']))) =
      elseFront ++ ('{' :: inside' ++ ['}']) :=
    trim_braced elseFront _ ⟨'e', "lse ".toList, by decide, by decide⟩
  have hfront : elseFront = "else".toList ++ [' '] := by decide
  have helse : startsWithWord "else" (elseFront ++ ('{' :: inside' ++ ['}'])) = true := by
    rw [startsWithWord, hfront, List.append_assoc, after?_eq_some.mpr rfl]
    rfl
  have halternative : trim ((elseFront ++ ('{' :: inside' ++ ['}'])).drop 4) =
      '{' :: (inside' ++ ['}']) := by
    rw [hfront]
    exact trim_braced ['{'] inside' ⟨'{', [], rfl, by decide⟩
  have hif : startsHeader "if" ('{' :: (inside' ++ ['}'])) = false := rfl
  rw [choice, htext, arms?, header?_headerChars (Plain.isWordText "if" (by decide)) test.inert test.tight,
    Option.bind_eq_bind, Option.bind_some]
  dsimp only
  rw [hbody, bodyAndRest_braced hinside, hbehind, htest]
  dsimp only
  rw [helse, halternative, hif, bodyAndRest_body hinside']
  rfl

/-- A piece with one body has the block of its header around the blocks of the body. -/
theorem Header.chunk?_compound {levels : Nat} (h : Header) {inside : List Char} (hinside : Nested inside) :
    chunk? (reader (levels + 2)) (h.line ++ (inside ++ ['}'])) =
      some (h.block ((reader (levels + 2)).block inside)) := by
  cases h with
  | branch test =>
      rw [Header.line, Header.word, Header.inside, chunk?_if,
        choice_branch (condition_condition test) hinside]
  | whileLoop test =>
      have hword := Plain.isWordText "while" (by decide)
      rw [Header.line, Header.word, Header.inside, chunk?,
        startsHeader_other hword (by decide) (by decide),
        startsHeader_other hword (by decide) (by decide), startsHeader_headerChars,
        header?_headerChars hword test.inert test.tight]
      dsimp only
      rw [bodyAndRest_body hinside, condition_condition]
      rfl
  | forLoop bound =>
      have hword := Plain.isWordText "for" (by decide)
      rw [Header.line, Header.word, Header.inside, chunk?,
        startsHeader_other hword (by decide) (by decide), startsHeader_headerChars,
        header?_headerChars hword (count_inert bound) (count_tight bound)]
      dsimp only
      rw [bodyAndRest_body hinside, countedLoop_count]
      rfl

/-! ## Bodies -/

/-- What a body is read as is settled by its pieces. -/
theorem block_laid {p : Steps} {t : List Char} {levels : Nat} (h : Laid p.lines t)
    (hpieces : ∀ cs, Cut p cs → cs.filterMap (chunk? (reader levels)) = p.blocks) :
    (reader (levels + 1)).block t = p.blocks := by
  obtain ⟨cs, hcs, hstatements⟩ := exists_statements (h.clean p.tight)
  change (statements (clean t)).filterMap (chunk? (reader levels)) = p.blocks
  rw [hstatements, hpieces cs hcs]

/-- The pieces of some statements have the blocks of the statements. -/
theorem filterMap_cut : ∀ (p : Steps) {cs : List (List Char)} (levels : Nat), Cut p cs →
    p.depth ≤ levels → cs.filterMap (chunk? (reader (levels + 2))) = p.blocks
  | .done, cs, levels, h, _ => by
      cases h
      rfl
  | .simple s next, cs, levels, h, hlevels => by
      cases h with
      | simple _ hnext =>
          rw [List.filterMap_cons, s.chunk?_line, filterMap_cut next levels hnext hlevels]
          rfl
  | .compound header body next, cs, levels, h, hlevels => by
      obtain ⟨hbody, hnext⟩ := Nat.max_le.mp hlevels
      obtain ⟨n, rfl⟩ := Nat.exists_eq_add_of_lt hbody
      cases h with
      | compound _ hinside hcs =>
          have hblock := block_laid hinside fun cs' hcs' =>
            filterMap_cut body (body.depth + n) hcs' (Nat.le_add_right _ _)
          rw [List.filterMap_cons, header.chunk?_compound (body.nested hinside), hblock,
            filterMap_cut next _ hcs hnext]
          rfl
  | .choice test body otherwise next, cs, levels, h, hlevels => by
      obtain ⟨hbodies, hnext⟩ := Nat.max_le.mp hlevels
      obtain ⟨hbody, hotherwise⟩ := Nat.max_le.mp hbodies
      obtain ⟨n, rfl⟩ := Nat.exists_eq_add_of_le' (Nat.le_of_add_left_le hbody)
      cases h with
      | choice _ hinside hinside' hcs =>
          have hblock := block_laid hinside fun cs' hcs' =>
            filterMap_cut body n hcs' (Nat.le_of_add_le_add_right hbody)
          have hblock' := block_laid hinside' fun cs' hcs' =>
            filterMap_cut otherwise n hcs' (Nat.le_of_add_le_add_right hotherwise)
          rw [List.filterMap_cons, chunk?_if,
            choice_alternative (condition_condition test) (body.nested hinside)
              (otherwise.nested hinside'),
            hblock, hblock', filterMap_cut next _ hcs hnext]
          rfl

/-- The text of a body is read as the blocks of its statements, if the levels are enough. -/
theorem Steps.block_eq (p : Steps) {t : List Char} (h : Laid p.lines t) {levels : Nat}
    (hlevels : p.depth ≤ levels) : (reader (levels + 3)).block t = p.blocks :=
  block_laid h fun _ hcs => filterMap_cut p levels hcs hlevels

end Plain

end InoBlocks
