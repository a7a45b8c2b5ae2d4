import InoBlocks.Proofs.Sketch.Placeless
import InoBlocks.Proofs.Sketch.Printing
import InoBlocks.Proofs.Sketch.ProperSketch
import InoBlocks.Proofs.Sketch.ShallowPhrase
import InoBlocks.Proofs.Sketch.StatementSteps

/-!
# Reading a text back

A text that is spelled as a phrase, put as the one statement into the body of a function, is read
as that statement and nothing is reported, or a limit of nesting is reported and the body stays
empty.  The text of every expression that occurs in a sketch is such a text.
-/

namespace InoBlocks

namespace Grammar

open Read ExprGrammar Word

/-! ## A statement -/

/-- A statement that begins as an expression is read as one. -/
theorem statementOf_effect {parts : Parts} {s : ReadState}
    (h : (kindAt 0 s.tokens).begins = true) :
    statementOf parts s = reading (effect parts.expression) s := by
  rw [statementOf, Read.bind_ok (reading_ok (peekKind_apply 0 s.tokens))]
  cases hkind : kindAt 0 s.tokens <;> rw [hkind] at h <;> first | rfl | cases h

theorem statement_of_depth (limit levelsLeft : Nat) {depth : Nat} (hdepth : depth < maxTreeDepth) :
    statement limit (levelsLeft + 1) depth =
      recovering limit (statementOf ⟨expression levelsLeft (depth + 1),
        statement limit levelsLeft (depth + 1)⟩) := by
  rw [statement, if_neg (by omega)]

/-- An expression that is read in front of its semicolon is a statement. -/
theorem statement_effect_ok (limit levelsLeft : Nat) {depth : Nat} (hdepth : depth < maxTreeDepth)
    {t : Token} {ts rest : List Token} (hbegins : t.kind.begins = true) {semicolon : Token}
    (hsemicolon : semicolon.kind = .semicolon) {e : Expr}
    (h : expression levelsLeft (depth + 1) (t :: ts) = .ok e (semicolon :: rest))
    (recoveries : Nat) (findings : Findings) :
    statement limit (levelsLeft + 1) depth ⟨t :: ts, recoveries, findings⟩ =
      .ok (some (.effect t.location e)) ⟨rest, recoveries, findings⟩ := by
  have heffect : effect (expression levelsLeft (depth + 1)) (t :: ts) =
      .ok (.effect t.location e) rest := by
    rw [effect, bind_ok (peek_cons t ts), bind_ok h,
      bind_ok (expect_of_kind hsemicolon (by decide) _)]
    rfl
  rw [statement_of_depth limit levelsLeft hdepth]
  exact recovering_ok limit ((statementOf_effect (by exact hbegins)).trans (reading_ok heffect))

/-- An expression with its semicolon is read as a statement, or a limit of nesting is reported and
the statement is passed over. -/
theorem statement_effect {ws : List Word} {e : Expr} (hphrase : Phrase 1 ws e) {limit : Nat}
    (hlimit : 1 ≤ limit) (levelsLeft depth : Nat) (hdepth : depth < maxTreeDepth)
    {us : List Token} (hus : us.map Token.word = ws) (rest : List Token) {semicolon : Token}
    (hsemicolon : semicolon.kind = .semicolon) (findings : Findings) :
    (∃ l e', e'.forget = e.forget ∧
      statement limit (levelsLeft + 1) depth ⟨us ++ semicolon :: rest, 0, findings⟩ =
        .ok (some (.effect l e')) ⟨rest, 0, findings⟩) ∨
    ∃ fault : Fault, fault.IsNesting ∧
      statement limit (levelsLeft + 1) depth ⟨us ++ semicolon :: rest, 0, findings⟩ =
        .ok none ⟨rest, 1, findings.recordFault fault⟩ := by
  obtain ⟨w, ws', rfl, hbegins, -⟩ := hphrase.exists_head
  obtain ⟨t, us', rfl, ht, -, -⟩ := map_word_cons hus
  have hstart : (kindAt 0 (t :: us' ++ semicolon :: rest)).begins = true := by
    rw [List.cons_append, kindAt_cons, ht]
    exact hbegins
  have hreads := expression_reads hphrase levelsLeft (depth + 1) hus (semicolon :: rest)
    (by rw [kindAt_cons, hsemicolon]; rfl)
  rcases hreads with ⟨fault, vs, hfault, hvs, herror⟩ | ⟨e', he', hok⟩
  · right
    refine ⟨fault, hfault, ?_⟩
    have heffect : effect (expression levelsLeft (depth + 1)) (t :: us' ++ semicolon :: rest) =
        .error (.misread fault) (vs ++ semicolon :: rest) := by
      rw [effect, List.cons_append, bind_ok (peek_cons t _)]
      exact bind_error herror
    have hskip : skipToBoundary (vs ++ semicolon :: rest) = rest := by
      have hvs' : ∀ u ∈ vs, u.kind ≠ .semicolon ∧ u.kind ≠ .rightBrace ∧
          u.kind ≠ .endOfInput := by
        intro u hu
        have hword := hphrase.inPhrase u.word (hus ▸ List.mem_map_of_mem (hvs.subset hu))
        rw [Token.word_kind] at hword
        refine ⟨?_, ?_, ?_⟩ <;> intro hkind <;> rw [hkind] at hword <;> cases hword
      rw [skipToBoundary_append hvs', skipToBoundary_semicolon hsemicolon]
    rw [statement_of_depth limit levelsLeft hdepth,
      recovering_misread hlimit ((statementOf_effect hstart).trans (reading_error heffect)) rfl,
      hskip]
  · left
    exact ⟨t.location, e', he',
      statement_effect_ok limit levelsLeft hdepth hstart hsemicolon hok 0 findings⟩

/-! ## A sketch of one statement -/

/-- A sketch with one function, whose body is one statement. -/
def inFunction (name text : String) : String :=
  "void " ++ name ++ "() \x7b " ++ text ++ "; \x7d"

/-- A sketch that is read as one function, with the body given. -/
def IsFunction (p : Parsed) (name : String) (body : List Node) : Prop :=
  p.unreadable = none ∧
    ∃ l l', p.program.body = [.function l name "void" [] (.block l' body)]

/-- A text, with a semicolon behind it in the body of a function, is read as an expression by
itself, places aside, and nothing is reported; or what is reported is just that a limit of nesting
was reached, and the body stays empty. -/
def ReadsBack (text : String) (e : Expr) : Prop :=
  ∀ name file limit, Word.Firm ⟨.identifier, name⟩ → 1 ≤ limit →
    let p := parse (inFunction name text) file limit
    (∃ l e', e'.forget = e.forget ∧ IsFunction p name [.effect l e'] ∧ p.diagnostics = []) ∨
    (∃ d, d.IsNesting ∧ IsFunction p name [] ∧ p.diagnostics = [d])

theorem words_inFunction {name text : String} {ws : List Word} {pointed : Bool}
    (hname : Word.Firm ⟨.identifier, name⟩) (h : Spelling text ws pointed) :
    words (inFunction name text).toList =
      headerWords ⟨.voidType, "void"⟩ name ++ symbol .leftBrace :: ws ++
        [symbol .semicolon, symbol .rightBrace] := by
  have hvoid := firm_name 'v' "oid".toList (by decide) (by decide)
  have hkind : TokenKind.ofWord (String.ofList ('v' :: "oid".toList)) = .voidType := by decide
  rw [hkind] at hvoid
  have htype := hvoid.readsAs.blank (by decide)
  have hleft := readsAs_symbol .leftParen rfl
  have hright := (readsAs_symbol .rightParen rfl).blank rfl
  have hopen := (readsAs_symbol .leftBrace rfl).blank rfl
  have hsemicolon := (readsAs_symbol .semicolon rfl).blank rfl
  have hclose := readsAs_symbol .rightBrace rfl
  have hcall := hname.readsAs.append_cons (d := '(') hleft rfl
  have hbody := h.reads.append_cons (d := ';') hsemicolon (by cases pointed <;> decide)
  have hall := htype.seq (hcall.seq (hright.seq (hopen.seq (hbody.seq hclose))))
  have hwords := hall.words_eq
  simpa [inFunction, headerWords] using hwords

/-- The reading of a sketch with one function comes down to the reading of its body. -/
theorem parse_function {source name : String} {ws : List Word}
    (hwords : words source.toList =
      headerWords ⟨.voidType, "void"⟩ name ++ symbol .leftBrace :: ws ++ [symbol .rightBrace])
    (file : String) (limit : Nat) :
    ∃ us right rest, us.map Token.word = ws ∧ right.kind = .rightBrace ∧
      ∀ body recoveries findings,
        statements (statement limit maxNesting 0) (us ++ right :: rest).length
            ⟨us ++ right :: rest, 0, .empty "parser"⟩ =
          .ok body ⟨right :: rest, recoveries, findings⟩ →
        IsFunction (parse source file limit) name body ∧
          (parse source file limit).diagnostics = findings.diagnostics := by
  have htokens := significant_word source file
  rw [hwords] at htokens
  obtain ⟨ts, last, hts, hts', hlast⟩ := List.map_eq_append_iff.mp htokens
  obtain ⟨t, rfl, ht⟩ := List.map_eq_singleton_iff.mp hlast
  obtain ⟨us, right, hus, hus', hright⟩ := List.map_eq_append_iff.mp hts'
  obtain ⟨r, rfl, hr⟩ := List.map_eq_singleton_iff.mp hright
  obtain ⟨header, left, vs, rfl, hheader, hleft, -, hvs⟩ := map_word_append_cons hus'
  have htend : t.kind = .endOfInput := congrArg Word.kind ht
  have hr' : r.kind = .rightBrace := congrArg Word.kind hr
  have hsource : Token.significant source file = header ++ (left :: vs ++ r :: [t]) := by
    rw [hts, hus]
    simp
  refine ⟨vs, r, [t], hvs, hr', ?_⟩
  intro body recoveries findings hbody
  have hblock := block_ok hleft hr' hbody
  obtain ⟨l, htop⟩ := topLevel_function limit hheader hblock
  have hstart : kindAt 0 (header ++ (left :: vs ++ r :: [t])) ≠ .endOfInput := by
    obtain ⟨v, header, rfl, hv, -, -⟩ := map_word_cons hheader
    rw [List.cons_append, kindAt_cons, hv]
    decide
  have hlength : (header ++ (left :: vs ++ r :: [t])).length =
      (header ++ (left :: vs ++ [r])).length + 1 := by
    simp only [List.length_append, List.length_cons, List.length_nil]
    omega
  rw [parse, parseTokens, prepare_tokenize, hsource, hlength, declarations_cons hstart htop,
    declarations_end (by exact htend)]
  exact ⟨⟨rfl, l, left.location, rfl⟩, rfl⟩

/-- The reading of a sketch of one statement comes down to the reading of that statement. -/
theorem parse_inFunction {name text : String} {w : Word} {ws : List Word} {pointed : Bool}
    (hname : Word.Firm ⟨.identifier, name⟩) (h : Spelling text (w :: ws) pointed)
    (hbegins : w.kind.begins = true) (file : String) (limit : Nat) :
    ∃ t us semicolon right rest, (t :: us).map Token.word = w :: ws ∧
      semicolon.kind = .semicolon ∧ right.kind = .rightBrace ∧
      ∀ found recoveries findings,
        statement limit maxNesting 0 ⟨t :: us ++ semicolon :: right :: rest, 0, .empty "parser"⟩ =
          .ok found ⟨right :: rest, recoveries, findings⟩ →
        IsFunction (parse (inFunction name text) file limit) name found.toList ∧
          (parse (inFunction name text) file limit).diagnostics = findings.diagnostics := by
  have hwords := words_inFunction hname h
  have hsplit : headerWords ⟨.voidType, "void"⟩ name ++ symbol .leftBrace :: (w :: ws) ++
      [symbol .semicolon, symbol .rightBrace] =
      headerWords ⟨.voidType, "void"⟩ name ++
        symbol .leftBrace :: (w :: ws ++ [symbol .semicolon]) ++ [symbol .rightBrace] := by simp
  rw [hsplit] at hwords
  obtain ⟨ts, right, rest, hts, hright, hparse⟩ := parse_function hwords file limit
  obtain ⟨us, semicolon, us', rfl, hus, hsemicolon, -, hus'⟩ := map_word_append_cons hts
  obtain rfl := List.map_eq_nil_iff.mp hus'
  obtain ⟨t, us, rfl, ht, -, -⟩ := map_word_cons hus
  refine ⟨t, us, semicolon, right, rest, hus, hsemicolon, hright, ?_⟩
  intro found recoveries findings hok
  have htokens : t :: us ++ [semicolon] ++ right :: rest =
      t :: us ++ semicolon :: right :: rest := by simp
  have hlength : (t :: us ++ [semicolon] ++ right :: rest).length =
      (t :: us ++ right :: rest).length + 1 := by
    simp only [List.length_append, List.length_cons, List.length_nil]
    omega
  rw [hlength, htokens] at hparse
  have hne : ∀ kind, kind.begins = false →
      kindAt 0 (t :: us ++ semicolon :: right :: rest) ≠ kind := by
    rintro kind hkind rfl
    rw [List.cons_append, kindAt_cons, ht, hbegins] at hkind
    cases hkind
  have hcons := statements_cons (t :: us ++ right :: rest).length (hne .rightBrace rfl)
    (hne .endOfInput rfl) hok (statements_stop _ _ (Or.inl (by exact hright)))
  rw [List.append_nil] at hcons
  exact hparse _ _ _ hcons

/-- A text that is spelled as a phrase is read back. -/
theorem readsBack_of_spelling {text : String} {ws : List Word} {pointed : Bool} {e : Expr}
    (hphrase : Phrase 1 ws e) (hspelling : Spelling text ws pointed) : ReadsBack text e := by
  intro name file limit hname hlimit
  dsimp only
  obtain ⟨w, ws, rfl, hbegins, -⟩ := hphrase.exists_head
  obtain ⟨t, us, semicolon, right, rest, hus, hsemicolon, -, hparse⟩ :=
    parse_inFunction hname hspelling hbegins file limit
  rcases statement_effect hphrase hlimit 31 0 (by decide) hus (right :: rest) hsemicolon
    (.empty "parser") with ⟨l, e', he', hok⟩ | ⟨fault, hfault, hok⟩
  · obtain ⟨hfunction, hdiagnostics⟩ := hparse _ _ _ hok
    exact Or.inl ⟨l, e', he', hfunction, hdiagnostics⟩
  · obtain ⟨hfunction, hdiagnostics⟩ := hparse _ _ _ hok
    obtain ⟨n, hcause⟩ := hfault
    refine Or.inr ⟨_, ⟨rfl, n, ?_⟩, hfunction, hdiagnostics⟩
    rw [Fault.message, hcause]

/-- A text, with a semicolon behind it in the body of a function, is read as an expression that has
this text, and nothing is reported. -/
def IsRead (text : String) : Prop :=
  ∀ name file limit, Word.Firm ⟨.identifier, name⟩ →
    let p := parse (inFunction name text) file limit
    ∃ l e, e.source = text ∧ IsFunction p name [.effect l e] ∧ p.diagnostics = []

/-- A phrase with fewer words than there are levels is read as the expression that it is. -/
theorem isRead_of_spelling {text : String} {ws : List Word} {pointed : Bool} {e : Expr}
    (hphrase : Phrase 1 ws e) (hspelling : Spelling text ws pointed)
    (hshort : ws.length < maxNesting) (hsource : e.source = text) : IsRead text := by
  intro name file limit hname
  dsimp only
  obtain ⟨w, ws, rfl, hbegins, -⟩ := hphrase.exists_head
  obtain ⟨t, us, semicolon, right, rest, hus, hsemicolon, -, hparse⟩ :=
    parse_inFunction hname hspelling hbegins file limit
  have hlevels : (w :: ws).length ≤ 31 := Nat.le_of_lt_succ hshort
  have hdepth : (w :: ws).length + 1 < maxTreeDepth := by
    rw [maxTreeDepth]
    omega
  have hstop : (kindAt 0 (semicolon :: right :: rest)).joins = 0 := by
    rw [kindAt_cons, hsemicolon]
    rfl
  obtain ⟨e', he', hok⟩ := expression_ok hphrase hlevels hdepth hus hstop
  have ht : t.kind.begins = true := by
    rw [List.map_cons, List.cons.injEq] at hus
    rw [← Token.word_kind, hus.1, hbegins]
  obtain ⟨hfunction, hdiagnostics⟩ := hparse _ _ _
    (statement_effect_ok limit 31 (by decide) ht hsemicolon hok 0 (.empty "parser"))
  refine ⟨t.location, e', ?_, hfunction, hdiagnostics⟩
  rw [← Expr.source_forget, he', Expr.source_forget, hsource]

end Grammar

/-- The text of an expression that occurs in a sketch, as it is read from any text, is read back,
if no member is taken of a number in it. -/
theorem Expr.source_readsBack {source file : String} {limit : Nat} {e : Expr}
    (he : Node.bare e ∈ (Grammar.parse source file limit).program.walk.map Visit.node)
    (hmember : ∀ p ∈ e.parts, ¬ p.isNumberMember) : Grammar.ReadsBack e.source e := by
  obtain ⟨ws, hphrase, hspelling⟩ := (Grammar.proper_of_mem_walk he).printed hmember
  exact Grammar.readsBack_of_spelling (hphrase.loosenTo (Nat.le_refl 1) hphrase.one_le) hspelling

/-- Signs that stand side by side, and a sum on the right of a difference. -/
theorem Expr.source_readsBack_signs :
    ∃ e, Node.bare e ∈ (Grammar.parse "void loop() \x7b y = - -x - (f + \"s\"); \x7d" "s.ino"
        1).program.walk.map Visit.node ∧
      (∀ p ∈ e.parts, ¬ p.isNumberMember) ∧ e.source = "- -x - (f + \"s\")" ∧
      Grammar.ReadsBack "- -x - (f + \"s\")" e := by
  have hfound : ((Grammar.parse "void loop() \x7b y = - -x - (f + \"s\"); \x7d" "s.ino"
      1).program.walk.map Visit.node).any (Node.isBareWith fun e =>
        e.source == "- -x - (f + \"s\")" && e.parts.all fun p => !p.isNumberMember) = true := by
    decide +kernel
  obtain ⟨e, hmember, he⟩ := Node.exists_bare hfound
  rw [Bool.and_eq_true, beq_iff_eq, List.all_eq_true] at he
  have hparts : ∀ p ∈ e.parts, ¬ p.isNumberMember := fun p hp => by simpa using he.2 p hp
  exact ⟨e, hmember, hparts, he.1, he.1 ▸ Expr.source_readsBack hmember hparts⟩

end InoBlocks
