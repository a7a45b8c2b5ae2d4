import InoBlocks.Proofs.Skim.PlainBlocks

/-!
# The functions of plain sketches

The bodies of both functions are found, and a plain sketch is skimmed to its blocks.  No function
begins inside a body: behind its name would stand parentheses with nothing between them.
-/

namespace InoBlocks

namespace Plain

open Text Skim

/-! ## Looking for a function -/

/-- Whether a parenthesis that is opened has something in it. -/
def Filled (c d : Char) : Prop :=
  c = '(' → isBlank d = false ∧ d ≠ ')'

theorem Laid.filled {ls : List (List Char)} {t : List Char} (h : Laid ls t)
    (hls : ∀ l ∈ ls, Tight l) : t.IsChain Filled := by
  refine h.isChain (fun c hc d hparen => ?_) fun l hl =>
    ⟨(hls l hl).chain.imp fun _ _ h => h.2.2, fun c hc d =>
      (follows_of_isFree ((hls l hl).getLast?_free hc) d).2.2⟩
  rw [hparen] at hc
  exact absurd hc (by decide)

theorem after?_before {front t rest r : List Char} {c : Char} (hc : c ∉ front)
    (h : after? front (t ++ c :: rest) = some r) : ∃ t', t = front ++ t' ∧ r = t' ++ c :: rest := by
  rw [after?_eq_some] at h
  rcases List.append_eq_append_iff.mp h with ⟨more, hmore, hrest⟩ | ⟨more, hmore, hrest⟩
  · cases more with
    | nil => exact ⟨[], by simpa using hmore.symm, hrest.symm⟩
    | cons d more =>
        obtain ⟨rfl, -⟩ := List.cons.inj hrest
        exact absurd (by rw [hmore]; simp) hc
  · exact ⟨more, hmore, hrest⟩

theorem trimStart_before (t rest : List Char) {c : Char} (hc : isBlank c = false) :
    ∃ t', t' <:+ t ∧ trimStart (t ++ c :: rest) = t' ++ c :: rest := by
  induction t with
  | nil => exact ⟨[], List.suffix_rfl, List.dropWhile_cons_of_neg (by simp [hc])⟩
  | cons d t ih =>
      by_cases hd : isBlank d = true
      · obtain ⟨t', ht', htrim⟩ := ih
        exact ⟨t', ht'.trans (List.suffix_cons d t),
          by rw [List.cons_append, trimStart, List.dropWhile_cons_of_pos hd]; exact htrim⟩
      · exact ⟨d :: t, List.suffix_rfl, List.dropWhile_cons_of_neg hd⟩

theorem afterBlanks?_before {t rest r : List Char} {c : Char} (hc : isBlank c = false)
    (h : afterBlanks? (t ++ c :: rest) = some r) : ∃ t', t' <:+ t ∧ r = t' ++ c :: rest := by
  cases t with
  | nil =>
      rw [List.nil_append, afterBlanks?, if_neg (by simp [hc])] at h
      cases h
  | cons d t =>
      rw [List.cons_append, afterBlanks?] at h
      split at h
      · obtain ⟨t', ht', htrim⟩ := trimStart_before t rest hc
        rw [htrim, Option.some.injEq] at h
        exact ⟨t', ht'.trans (List.suffix_cons d t), h.symm⟩
      · cases h

theorem openingBrace?_before {t : List Char} (h : t.IsChain Filled) (rest : List Char) :
    openingBrace? (t ++ '}' :: rest) = none := by
  have hbrace : isBlank '}' = false := by decide
  obtain ⟨t', ht', htrim⟩ := trimStart_before t rest hbrace
  have hchain := h.suffix ht'
  rw [openingBrace?, htrim]
  split
  · rename_i inside heq
    rcases t' with _ | ⟨c, _ | ⟨d, t'⟩⟩
    · cases heq
    · cases heq
      rfl
    · -- the parenthesis has something in it, so it is not closed at once
      simp only [List.cons_append, List.cons.injEq] at heq
      obtain ⟨rfl, rfl⟩ := heq
      obtain ⟨hd, hparen⟩ := (List.isChain_cons_cons.mp hchain).1 rfl
      have hstart : trimStart (d :: (t' ++ '}' :: rest)) = d :: (t' ++ '}' :: rest) :=
        List.dropWhile_cons_of_neg (by simp [hd])
      rw [hstart]
      split
      · rename_i heq
        exact absurd (List.cons.inj heq).1 hparen
      · rfl
  · rfl

/-- No function begins in a text whose parentheses have something in them. -/
theorem functionAt?_before {name t : List Char} (hname : '}' ∉ name) (h : t.IsChain Filled)
    (rest : List Char) : functionAt? name (t ++ '}' :: rest) = none := by
  by_contra hne
  obtain ⟨body, hbody⟩ := Option.ne_none_iff_exists'.mp hne
  simp only [functionAt?, Option.bind_eq_bind, Option.bind_eq_some_iff] at hbody
  obtain ⟨_, hvoid, _, hblanks, _, hafter, hopen⟩ := hbody
  obtain ⟨t₁, rfl, rfl⟩ := after?_before (by decide) hvoid
  obtain ⟨t₂, ht₂, rfl⟩ := afterBlanks?_before (by decide) hblanks
  obtain ⟨t₃, rfl, rfl⟩ := after?_before hname hafter
  have hsuffix : t₃ <:+ "void".toList ++ t₁ :=
    ((List.suffix_append name t₃).trans ht₂).trans (List.suffix_append _ t₁)
  rw [openingBrace?_before (h.suffix hsuffix)] at hopen
  cases hopen

theorem functionAt?_of_ne (name : List Char) {c : Char} (hc : c ≠ 'v') (cs : List Char) :
    functionAt? name (c :: cs) = none := by
  have hvoid : after? "void".toList (c :: cs) = none := by
    rw [after?, if_neg]
    simp [startsWith, hc.symm]
  rw [functionAt?, hvoid]
  rfl

/-- The function that is found first among the spots of a text. -/
def firstFunction? (name : List Char) (spots : List Spot) : Option (List Char) :=
  spots.findSome? fun s => functionAt? name s.rest

/-- A search for a function passes over a text in which none begins. -/
theorem firstFunction?_append {name t rest : List Char}
    (h : ∀ s, s <:+ t → s ≠ [] → functionAt? name (s ++ rest) = none) (offset : Nat)
    (afterWord : Bool) :
    ∃ offset' afterWord', firstFunction? name (spotsFrom offset afterWord (t ++ rest)) =
      firstFunction? name (spotsFrom offset' afterWord' rest) := by
  induction t generalizing offset afterWord with
  | nil => exact ⟨offset, afterWord, rfl⟩
  | cons c t ih =>
      obtain ⟨offset', afterWord', hrest⟩ :=
        ih (fun s hs => h s (hs.trans (List.suffix_cons c t))) (offset + 1) (isWord c)
      refine ⟨offset', afterWord', ?_⟩
      have hhere := h (c :: t) List.suffix_rfl (List.cons_ne_nil c t)
      rw [List.cons_append] at hhere
      rw [← hrest, List.cons_append, spotsFrom, firstFunction?, List.findSome?_cons, hhere]
      rfl

theorem firstFunction?_of_ne {name t : List Char} (h : ∀ c ∈ t, c ≠ 'v') (rest : List Char)
    (offset : Nat) (afterWord : Bool) :
    ∃ offset' afterWord', firstFunction? name (spotsFrom offset afterWord (t ++ rest)) =
      firstFunction? name (spotsFrom offset' afterWord' rest) := by
  refine firstFunction?_append (fun s hs hne => ?_) offset afterWord
  obtain ⟨c, cs, rfl⟩ := List.exists_cons_of_ne_nil hne
  exact functionAt?_of_ne name (h c (hs.subset List.mem_cons_self)) _

theorem firstFunction?_here {name cs body : List Char} (h : functionAt? name cs = some body)
    (offset : Nat) (afterWord : Bool) :
    firstFunction? name (spotsFrom offset afterWord cs) = some body := by
  cases cs with
  | nil => cases h
  | cons c cs =>
      rw [spotsFrom, firstFunction?, List.findSome?_cons, h]

/-! ## The functions of a sketch -/

theorem functionAt?_header (body : List Char) :
    functionAt? "setup".toList (functionChars "setup" ++ body) = some ('{' :: body) ∧
      functionAt? "loop".toList (functionChars "loop" ++ body) = some ('{' :: body) ∧
      functionAt? "loop".toList (functionChars "setup" ++ body) = none :=
  ⟨rfl, rfl, rfl⟩

/-- The other function does not begin in the header of the first. -/
theorem functionAt?_setup (rest : List Char) : ∀ t, t <:+ functionChars "setup" → t ≠ [] →
    functionAt? "loop".toList (t ++ rest) = none := by
  have hchars : functionChars "setup" = 'v' :: "oid setup() \x7b".toList := by decide
  have htail : ∀ c ∈ "oid setup() \x7b".toList, c ≠ 'v' := by decide
  intro t ht hne
  rw [hchars, List.suffix_cons_iff] at ht
  rcases ht with rfl | ht
  · rw [← hchars]
    exact (functionAt?_header rest).2.2
  · obtain ⟨c, cs, rfl⟩ := List.exists_cons_of_ne_nil hne
    exact functionAt?_of_ne _ (htail c (ht.subset List.mem_cons_self)) _

theorem ne_of_isLayout {gap : List Char} (h : gap.all Token.isLayout = true) :
    ∀ c ∈ gap, c ≠ 'v' := by
  rintro c hc rfl
  exact absurd (List.all_eq_true.mp h _ hc) (by decide)

/-- A function that is found has the body between its braces. -/
theorem functionBody?_of_first {name code inside : List Char} (h : Nested inside)
    (rest : List Char)
    (hfirst : firstFunction? name (spots code) = some ('{' :: (inside ++ '}' :: rest))) :
    functionBody? name code = some inside := by
  rw [functionBody?]
  change ((firstFunction? name (spots code)).bind _) = _
  rw [hfirst, Option.bind_some]
  change ((closing? braces _).bind _) = _
  rw [closing?_braces h, Option.bind_some]
  exact congrArg some (take_bracketed '{' '}' inside rest)

/-- The text of a plain sketch: both functions, with layout before, between and behind them. -/
theorem Sketch.exists_parts {s : Sketch} {code : List Char} (h : Laid s.lines code) :
    ∃ gap inside gap' inside' gap'', gap.all Token.isLayout = true ∧
      gap'.all Token.isLayout = true ∧ Laid s.setup.lines inside ∧ Laid s.loop.lines inside' ∧
      gap''.all Token.isLayout = true ∧ code = gap ++ (functionChars "setup" ++ (inside ++ '}' ::
        (gap' ++ (functionChars "loop" ++ (inside' ++ '}' :: gap''))))) := by
  cases h with
  | @line gap t _ _ hgap h =>
      obtain ⟨inside, t', hinside, h', rfl⟩ := h.exists_split
      cases h' with
      | @line gap' t'' _ _ hgap' h'' =>
          obtain ⟨inside', gap'', hinside', hback, rfl⟩ := h''.exists_split
          cases hback with
          | done hback =>
              exact ⟨gap, inside, gap', inside', gap'', hgap, hgap', hinside, hinside', hback, rfl⟩

theorem exists_bodies {s : Sketch} {code : List Char} (h : Laid s.lines code) :
    ∃ inside inside', Laid s.setup.lines inside ∧ Laid s.loop.lines inside' ∧
      functionBody? "setup".toList code = some inside ∧
      functionBody? "loop".toList code = some inside' := by
  obtain ⟨gap, inside, gap', inside', gap'', hgap, hgap', hinside, hinside', -, rfl⟩ :=
    Sketch.exists_parts h
  refine ⟨inside, inside', hinside, hinside',
    functionBody?_of_first (s.setup.nested hinside)
      (gap' ++ (functionChars "loop" ++ (inside' ++ '}' :: gap''))) ?_,
    functionBody?_of_first (s.loop.nested hinside') gap'' ?_⟩
  · obtain ⟨_, _, hskip⟩ := firstFunction?_of_ne (ne_of_isLayout hgap) _ 0 false
    rw [spots, hskip]
    exact firstFunction?_here (functionAt?_header _).1 _ _
  · -- the layout, the header of the other function and its body are passed over
    have hfilled := hinside.filled s.setup.tight
    have hbrace : '}' ∉ "loop".toList := by decide
    have hclose : ∀ c ∈ '}' :: gap', c ≠ 'v' :=
      List.forall_mem_cons.mpr ⟨by decide, ne_of_isLayout hgap'⟩
    obtain ⟨o₁, w₁, hskip₁⟩ := firstFunction?_of_ne (ne_of_isLayout hgap) _ 0 false
    obtain ⟨o₂, w₂, hskip₂⟩ := firstFunction?_append (functionAt?_setup _) o₁ w₁
    obtain ⟨o₃, w₃, hskip₃⟩ := firstFunction?_append (fun t ht _ =>
      functionAt?_before hbrace (hfilled.suffix ht) _) o₂ w₂
    obtain ⟨o₄, w₄, hskip₄⟩ := firstFunction?_of_ne hclose _ o₃ w₃
    rw [spots, hskip₁, hskip₂, hskip₃, ← List.cons_append, hskip₄]
    exact firstFunction?_here (functionAt?_header _).2.1 _ _

theorem Sketch.skimmed (s : Sketch) {code : String} (h : Laid s.lines code.toList)
    (hdepth : s.depth ≤ 61) : Skim.workspace code = s.workspace := by
  obtain ⟨inside, inside', hinside, hinside', hsetup, hloop⟩ := exists_bodies h
  obtain ⟨hdepth, hdepth'⟩ := Nat.max_le.mp hdepth
  rw [Skim.workspace, functionBlocks, functionBlocks, hsetup, hloop]
  exact congrArg₂ (Workspace.mk · · []) (s.setup.block_eq hinside hdepth)
    (s.loop.block_eq hinside' hdepth')

end Plain

end InoBlocks
