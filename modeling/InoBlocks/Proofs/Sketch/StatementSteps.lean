import InoBlocks.Proofs.Sketch.PhraseReading
import InoBlocks.Proofs.Sketch.Spelling

/-!
# Steps over statements

What the readers of statements do on tokens whose words are known: recovery from a fault, types,
blocks, and functions without parameters.
-/

namespace InoBlocks

def Diagnostic.IsNesting (d : Diagnostic) : Prop :=
  d.severity = .error ∧ ∃ limit, d.message = (Cause.nestedTooDeep limit).message

namespace Grammar

open Read ExprGrammar Word

/-! ## Steps that recover -/

section Steps

variable {α : Type} {s : ReadState} {ts : List Token}

theorem reading_ok {x : Read α} {a : α} (h : x s.tokens = .ok a ts) :
    reading x s = .ok a { s with tokens := ts } := by
  rw [reading, h]

theorem reading_error {x : Read α} {stop : Stop} (h : x s.tokens = .error stop ts) :
    reading x s = .error stop { s with tokens := ts } := by
  rw [reading, h]

theorem reading_eq_ok {x : Read α} {a : α} {s' : ReadState} (h : reading x s = .ok a s') :
    ∃ ts, x s.tokens = .ok a ts ∧ s' = { s with tokens := ts } := by
  rw [reading] at h
  cases hx : x s.tokens with
  | ok b ts =>
      rw [hx] at h
      injection h with hb hs
      exact ⟨ts, by rw [hb], hs.symm⟩
  | error stop ts =>
      rw [hx] at h
      cases h

theorem recovering_ok (limit : Nat) {x : Recover α} {a : α} {s' : ReadState}
    (h : x s = .ok a s') : recovering limit x s = .ok (some a) s' := by
  rw [recovering, h]

/-- The first fault of a reading is recorded and passed over. -/
theorem recovering_misread {limit : Nat} (hlimit : 1 ≤ limit) {x : Recover α} {fault : Fault}
    {s' : ReadState} (h : x s = .error (.misread fault) s') (hfirst : s'.recoveries = 0) :
    recovering limit x s =
      .ok none ⟨skipToBoundary s'.tokens, 1, s'.findings.recordFault fault⟩ := by
  have hle : ¬ limit < s'.recoveries + 1 := by omega
  rw [recovering, h]
  dsimp only
  rw [recover, if_neg hle, hfirst]

end Steps

/-- Recovery passes over tokens that are no boundary of a statement. -/
theorem skipToBoundary_append {us : List Token}
    (h : ∀ t ∈ us, t.kind ≠ .semicolon ∧ t.kind ≠ .rightBrace ∧ t.kind ≠ .endOfInput)
    (rest : List Token) : skipToBoundary (us ++ rest) = skipToBoundary rest := by
  induction us with
  | nil => rfl
  | cons t us ih =>
      obtain ⟨hsemicolon, hbrace, hend⟩ := h t List.mem_cons_self
      rw [List.cons_append, skipToBoundary]
      split
      · contradiction
      · contradiction
      · contradiction
      · exact ih fun u hu => h u (List.mem_cons_of_mem t hu)

theorem skipToBoundary_semicolon {t : Token} (h : t.kind = .semicolon) (rest : List Token) :
    skipToBoundary (t :: rest) = rest := by
  rw [skipToBoundary]
  simp only [h]

/-! ## Types, blocks and functions -/

/-- A statement that was abandoned is an empty part of another. -/
theorem substatement_ok {parts : Parts} {found : Option Node} {s s' : ReadState}
    (h : parts.statement s = .ok found s') :
    substatement parts s = .ok (found.getD .empty) s' := by
  rw [substatement, bind_ok h]
  rfl

/-- Where a block or the input ends, there are no statements. -/
theorem statements_stop (statement : Recover (Option Node)) (fuel : Nat) {s : ReadState}
    (h : kindAt 0 s.tokens = .rightBrace ∨ kindAt 0 s.tokens = .endOfInput) :
    statements statement fuel s = .ok [] s := by
  cases fuel with
  | zero => rfl
  | succ fuel =>
      rw [statements, bind_ok (reading_ok (peekKind_apply 0 s.tokens)), if_pos (by simpa using h)]
      rfl

theorem statements_cons {statement : Recover (Option Node)} {s s' s'' : ReadState}
    {found : Option Node} {ns : List Node} (fuel : Nat) (hbrace : kindAt 0 s.tokens ≠ .rightBrace)
    (hend : kindAt 0 s.tokens ≠ .endOfInput) (h : statement s = .ok found s')
    (hrest : statements statement fuel s' = .ok ns s'') :
    statements statement (fuel + 1) s = .ok (found.toList ++ ns) s'' := by
  rw [statements, bind_ok (reading_ok (peekKind_apply 0 s.tokens)),
    if_neg (by simp [hbrace, hend]), bind_ok h, bind_ok hrest]
  rfl

/-- In front of a statement, statements are that one and those behind it. -/
theorem statements_eq_ok {statement : Recover (Option Node)} {fuel : Nat} {s s'' : ReadState}
    {body : List Node}
    (hrun : statements statement (fuel + 1) s = .ok body s'')
    (hbrace : kindAt 0 s.tokens ≠ .rightBrace) (hend : kindAt 0 s.tokens ≠ .endOfInput) :
    ∃ found s' ns, statement s = .ok found s' ∧ statements statement fuel s' = .ok ns s'' ∧
      body = found.toList ++ ns := by
  rw [statements, bind_ok (reading_ok (peekKind_apply 0 s.tokens)),
    if_neg (by simp [hbrace, hend])] at hrun
  obtain ⟨found, s', hs, hrest⟩ := bind_eq_ok hrun
  obtain ⟨ns, s₁, hns, hpure⟩ := bind_eq_ok hrest
  cases hpure
  exact ⟨found, s', ns, hs, hns, rfl⟩

theorem block_ok {statement : Recover (Option Node)} {left right : Token}
    {us rest : List Token} {recoveries recoveries' : Nat} {findings findings' : Findings}
    {body : List Node} (hleft : left.kind = .leftBrace) (hright : right.kind = .rightBrace)
    (h : statements statement (us ++ right :: rest).length ⟨us ++ right :: rest, recoveries, findings⟩ =
      .ok body ⟨right :: rest, recoveries', findings'⟩) :
    block statement ⟨left :: us ++ right :: rest, recoveries, findings⟩ =
      .ok (.block left.location body) ⟨rest, recoveries', findings'⟩ := by
  have hend : right.kind ≠ .endOfInput := by
    rw [hright]
    decide
  rw [block, List.cons_append, bind_ok (reading_ok (peek_cons left _)),
    bind_ok (reading_ok (expect_of_kind hleft (by decide) _)),
    bind_ok (reading_ok (remaining_apply _)), bind_ok h, bind_ok (reading_ok (peek_cons right _)),
    if_neg (by simpa using hend), bind_ok (reading_ok (advance_cons hend))]
  rfl

/-- Words that are a type. -/
inductive TypeWords : List Word → String → Prop where
  | one {w : Word} : w.kind.namesType = true → TypeWords [w] w.text
  | unsigned {u w : Word} : u.kind = .unsigned → w.kind.namesType = true →
      TypeWords [u, w] (u.text ++ " " ++ w.text)

theorem TypeWords.typeLength {ws : List Word} {type : String} (h : TypeWords ws type)
    (us : List Token) (hus : us.map Token.word = ws) (rest : List Token) :
    Read.typeLength 0 (us ++ rest) = us.length := by
  cases h with
  | one hw =>
      obtain ⟨t, rfl, rfl⟩ := List.map_eq_singleton_iff.mp hus
      rw [Token.word_kind] at hw
      have hne : t.kind ≠ .unsigned := by
        intro hk
        rw [hk] at hw
        cases hw
      rw [Read.typeLength, List.cons_append, kindAt_cons, if_neg (by simpa using hne), if_pos hw]
      rfl
  | unsigned hu hw =>
      obtain ⟨t, us, rfl, ht, -, hus⟩ := map_word_cons hus
      obtain ⟨v, rfl, rfl⟩ := List.map_eq_singleton_iff.mp hus
      rw [Token.word_kind] at hw
      have hnext : kindAt (0 + 1) (t :: [v] ++ rest) = v.kind := rfl
      rw [Read.typeLength, hnext, List.cons_append, kindAt_cons, ht, hu, if_pos (by decide),
        if_pos hw]
      rfl

theorem TypeWords.kinds {ws : List Word} {type : String} (h : TypeWords ws type) :
    ∀ w ∈ ws, w.kind.beginsType = true := by
  cases h with
  | one hw =>
      intro w hmem
      rw [List.mem_singleton.mp hmem, TokenKind.beginsType, hw, Bool.true_or]
  | unsigned hu hw =>
      intro w hmem
      simp only [List.mem_cons, List.not_mem_nil, or_false] at hmem
      rcases hmem with rfl | rfl
      · rw [hu]
        rfl
      · rw [TokenKind.beginsType, hw, Bool.true_or]

theorem advanceMany_length {us : List Token} (h : ∀ t ∈ us, t.kind ≠ .endOfInput)
    (rest : List Token) : advanceMany us.length (us ++ rest) = .ok us rest := by
  induction us with
  | nil => rfl
  | cons t us ih =>
      have hrest := ih fun u hu => h u (List.mem_cons_of_mem t hu)
      rw [List.length_cons, advanceMany, List.cons_append,
        bind_ok (advance_cons (h t List.mem_cons_self)), bind_ok hrest]
      rfl

theorem TypeWords.typeSpecifier_ok {ws : List Word} {type : String} (h : TypeWords ws type)
    (us : List Token) (hus : us.map Token.word = ws) (rest : List Token) :
    typeSpecifier (us ++ rest) = .ok type rest := by
  have hkinds : ∀ t ∈ us, t.kind ≠ .endOfInput := by
    intro t ht hk
    have hbegins := h.kinds t.word (hus ▸ List.mem_map_of_mem ht)
    rw [Token.word_kind, hk] at hbegins
    cases hbegins
  have hne : us.length ≠ 0 := by
    cases h with
    | one =>
        obtain ⟨t, rfl, -⟩ := List.map_eq_singleton_iff.mp hus
        simp
    | unsigned =>
        obtain ⟨t, us, rfl, -⟩ := map_word_cons hus
        simp
  have htext : " ".intercalate (us.map Token.text) = type := by
    have hmap : us.map Token.text = ws.map Word.text := by
      rw [← hus, List.map_map]
      rfl
    rw [hmap]
    cases h with
    | one => rfl
    | unsigned => rfl
  have hget : (get : Read (List Token)) (us ++ rest) = .ok (us ++ rest) (us ++ rest) := rfl
  rw [typeSpecifier, bind_ok hget, h.typeLength us hus rest, if_neg hne,
    bind_ok (advanceMany_length hkinds rest), htext]
  rfl

/-- The words in front of the body of a function without parameters. -/
def headerWords (type : Word) (name : String) : List Word :=
  [type, ⟨.identifier, name⟩, symbol .leftParen, symbol .rightParen]

/-- A function without parameters is what its body is. -/
theorem function_eq {limit : Nat} {name : String} {header : List Token}
    (hheader : header.map Token.word = headerWords ⟨.voidType, "void"⟩ name) (rest : List Token)
    (recoveries : Nat) (findings : Findings) :
    ∃ l, function limit ⟨header ++ rest, recoveries, findings⟩ =
      (block (statement limit maxNesting 0) >>= fun body =>
        pure (.function l name "void" [] body)) ⟨rest, recoveries, findings⟩ := by
  obtain ⟨v, header, rfl, hv, hvtext, hheader⟩ := map_word_cons hheader
  obtain ⟨n, header, rfl, hn, hntext, hheader⟩ := map_word_cons hheader
  obtain ⟨l, header, rfl, hl, -, hheader⟩ := map_word_cons hheader
  obtain ⟨r, rfl, hr⟩ := List.map_eq_singleton_iff.mp hheader
  have hr' : r.kind = .rightParen := congrArg Word.kind hr
  have hl' : l.kind = .leftParen := hl
  dsimp only at hv hvtext hn hntext
  refine ⟨v.location, ?_⟩
  have htype : typeSpecifier (v :: n :: l :: r :: rest) = .ok "void" (n :: l :: r :: rest) := by
    have htypeWords := TypeWords.one (w := v.word) (by rw [Token.word_kind, hv]; rfl)
    rw [Token.word_text, hvtext] at htypeWords
    exact htypeWords.typeSpecifier_ok [v] rfl _
  have hparameters : parameterList (l :: r :: rest) = .ok [] rest := by
    have hnone : parameters (r :: rest) = .ok [] (r :: rest) := by
      rw [parameters, bind_ok (peekKind_apply 0 _), bind_ok (peekKind_apply 1 _), kindAt_cons, hr',
        if_neg (by simp), if_pos (by decide)]
      rfl
    rw [parameterList, bind_ok (expect_of_kind hl' (by decide) _), bind_ok hnone,
      bind_ok (expect_of_kind hr' (by decide) _)]
    rfl
  change function limit ⟨v :: n :: l :: r :: rest, recoveries, findings⟩ = _
  rw [function, bind_ok (reading_ok (peek_cons v _)), bind_ok (reading_ok htype),
    bind_ok (reading_ok (expect_of_kind hn (by decide) _)), bind_ok (reading_ok hparameters),
    hntext]

/-! ## Top-level declarations -/

/-- Tokens in front of which a declaration is looked for. -/
theorem skipSemicolons_of_ne {ts : List Token} (h : kindAt 0 ts ≠ .semicolon) :
    skipSemicolons ts = ts := by
  cases ts with
  | nil => rfl
  | cons t ts => exact if_neg h

theorem topLevel_eq {limit : Nat} {s : ReadState} (h : kindAt 0 s.tokens ≠ .semicolon) :
    topLevel limit s =
      (if kindAt 0 s.tokens == .endOfInput then pure none
        else
          if typeLength 0 s.tokens != 0 &&
              kindAt (typeLength 0 s.tokens) s.tokens == .identifier then
            if kindAt (typeLength 0 s.tokens + 1) s.tokens == .leftParen then
              function limit >>= fun n => pure (some n)
            else reading (declaration (expression maxNesting 0)) >>= fun n => pure (some n)
          else reading advance >>= fun _ => pure none : Recover (Option Node)) s := by
  have hmodify : (modify fun s => { s with tokens := skipSemicolons s.tokens } : Recover Unit) s =
      .ok () s := by
    change EStateM.Result.ok () { s with tokens := skipSemicolons s.tokens } = _
    rw [skipSemicolons_of_ne h]
  have hget : (get : Recover ReadState) s = .ok s s := rfl
  rw [topLevel, bind_ok hmodify, bind_ok hget]

/-- A function without parameters is read as a top-level declaration. -/
theorem topLevel_function_eq (limit : Nat) {name : String} {header : List Token}
    (hheader : header.map Token.word = headerWords ⟨.voidType, "void"⟩ name) (rest : List Token)
    (recoveries : Nat) (findings : Findings) :
    ∃ l, topLevel limit ⟨header ++ rest, recoveries, findings⟩ =
      (block (statement limit maxNesting 0) >>= fun body =>
        pure (some (.function l name "void" [] body))) ⟨rest, recoveries, findings⟩ := by
  obtain ⟨l, hfunction⟩ := function_eq hheader rest recoveries findings
  obtain ⟨v, header, rfl, hv, -, hheader⟩ := map_word_cons hheader
  obtain ⟨n, header, rfl, hn, -, hheader⟩ := map_word_cons hheader
  obtain ⟨p, header, rfl, hp, -, -⟩ := map_word_cons hheader
  have hv' : v.kind = .voidType := hv
  have hn' : kindAt 1 (v :: n :: p :: header ++ rest) = .identifier := hn
  have hp' : kindAt 2 (v :: n :: p :: header ++ rest) = .leftParen := hp
  have hlength : typeLength 0 (v :: n :: p :: header ++ rest) = 1 := by
    simp [typeLength, hv', TokenKind.namesType]
  refine ⟨l, ?_⟩
  rw [topLevel_eq (by simp [hv'])]
  dsimp only
  rw [hlength, List.cons_append, kindAt_cons, hv', if_neg (by decide), ← List.cons_append,
    if_pos (by rw [hn']; decide), if_pos (by rw [hp']; decide)]
  have hbind : (function limit >>= fun n => pure (some n) : Recover (Option Node))
      ⟨v :: n :: p :: header ++ rest, recoveries, findings⟩ =
        ((block (statement limit maxNesting 0) >>= fun body =>
          pure (.function l name "void" [] body)) >>= fun n => pure (some n))
        ⟨rest, recoveries, findings⟩ := by
    change EStateM.bind _ _ _ = EStateM.bind _ _ _
    rw [EStateM.bind, EStateM.bind, ← hfunction]
  rw [hbind, bind_assoc]
  rfl

theorem topLevel_function (limit : Nat) {name : String} {header rest : List Token}
    (hheader : header.map Token.word = headerWords ⟨.voidType, "void"⟩ name) {recoveries : Nat}
    {findings : Findings} {body : Node} {s' : ReadState}
    (h : block (statement limit maxNesting 0) ⟨rest, recoveries, findings⟩ = .ok body s') :
    ∃ l, topLevel limit ⟨header ++ rest, recoveries, findings⟩ =
      .ok (some (.function l name "void" [] body)) s' := by
  obtain ⟨l, hfunction⟩ := topLevel_function_eq limit hheader rest recoveries findings
  refine ⟨l, ?_⟩
  rw [hfunction, bind_ok h]
  rfl

/-- A declaration that is read, and the declarations after it. -/
theorem declarations_cons {limit fuel : Nat} {s s' : ReadState} {node : Option Node}
    (hkind : kindAt 0 s.tokens ≠ .endOfInput) (h : topLevel limit s = .ok node s') :
    declarations limit (fuel + 1) s =
      (node.toList ++ (declarations limit fuel s').1, (declarations limit fuel s').2) := by
  rw [declarations, if_neg (by simpa using hkind), recovering_ok limit h]
  rfl

theorem declarations_end {limit fuel : Nat} {s : ReadState}
    (hkind : kindAt 0 s.tokens = .endOfInput) : declarations limit fuel s = ([], s, none) := by
  cases fuel with
  | zero => rfl
  | succ fuel => rw [declarations, if_pos (by simpa using hkind)]

end Grammar

end InoBlocks
