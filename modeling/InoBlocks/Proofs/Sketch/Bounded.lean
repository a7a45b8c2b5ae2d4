import InoBlocks.Proofs.Sketch.Onward

/-!
# Reading is bounded

Every statement, in front of anything but a closing brace, takes a token, be it by recovery; so no
loop over statements is cut short by the number of its steps, and reading reaches the end of the
input unless more faults are found than are tolerated.
-/

namespace InoBlocks

open Read ExprGrammar

namespace Token

/-! ## Spellings -/

/-- The lexer spells the numbers of a text as it cuts them. -/
theorem spelled_tokensFrom (file : String) (p : Cursor) (skip : Nat) (cs : List Char) :
    Spelled (tokensFrom file true p skip cs) := by
  induction cs generalizing p skip with
  | nil =>
      intro t ht hnumber
      rw [List.mem_singleton.mp ht] at hnumber
      cases hnumber
  | cons c cs ih =>
      cases skip with
      | succ skip => exact ih _ _
      | zero =>
          simp only [tokensFrom, Bool.true_or, ↓reduceIte]
          split
          · exact ih _ _
          · split
            · exact ih _ _
            · rename_i kind more hscan
              intro t ht hnumber
              rcases List.mem_cons.mp ht with rfl | ht
              · obtain rfl : kind = .number := hnumber
                rcases scan_cases hscan (by decide) with ⟨-, hk, -⟩ | ⟨hc, -, rfl⟩ | ⟨-, hk, -⟩ |
                  ⟨-, -, hop⟩
                · cases hk
                · refine ⟨c, _, rfl, hc, ?_⟩
                  have htake : numberLength false (cs.take (numberLength false cs) ++ []) =
                      numberLength false cs := numberLength_take false cs (Word.apart_nil _)
                  rw [List.append_nil] at htake
                  rw [htake, List.length_take, Nat.min_eq_left (numberLength_le false cs)]
                · exact absurd hk.symm (TokenKind.ofWord_ne _).2
                · cases symbol?_of_scanOperator hop
              · exact ih _ _ t ht hnumber

theorem spelled_tokenize (source file : String) : Spelled (tokenize source file) :=
  spelled_tokensFrom file .start 0 source.toList

end Token

namespace Grammar

/-! ## Consumption -/

def Consumes {α : Type} (x : Recover α) : Prop :=
  ∀ s a s', x s = .ok a s' → s'.tokens.length < s.tokens.length

namespace Consumes

variable {α β : Type} {limit n : Nat}

theorem reading {allowed : TokenKind → Bool} {x : Read α} (h : Closed allowed x) :
    Consumes (reading x) := by
  intro s a s' hrun
  rw [Grammar.reading] at hrun
  cases hx : x s.tokens with
  | ok a' ts =>
      rw [hx] at hrun
      cases hrun
      exact h.shrinks s.tokens a ts hx
  | error stop ts =>
      rw [hx] at hrun
      cases hrun

theorem first {x : Recover α} {f : α → Recover β} (hx : Consumes x)
    (hf : ∀ a, Advances limit n (f a)) : Consumes (x >>= f) := by
  intro s b s'' hrun
  obtain ⟨a, s', hs', hrest⟩ := bind_eq_ok hrun
  have honward := (hf a).onward s'
  rw [hrest] at honward
  exact Nat.lt_of_le_of_lt honward.passes.length_le (hx s a s' hs')

theorem after {x : Recover α} {f : α → Recover β} (hx : Advances limit n x)
    (hf : ∀ a, Consumes (f a)) : Consumes (x >>= f) := by
  intro s b s'' hrun
  obtain ⟨a, s', hs', hrest⟩ := bind_eq_ok hrun
  have honward := hx.onward s
  rw [hs'] at honward
  exact Nat.lt_of_lt_of_le (hf a s' b s'' hrest) honward.passes.length_le

end Consumes

section Statements

variable {limit n : Nat} {parts : Parts}

theorem consumes_block {statement : Recover (Option Node)} (h : Advances limit n statement) :
    Consumes (block statement) := by
  intro s a s' hrun
  rcases block_cases statement s with ⟨stop, s', -, heq⟩ | ⟨t, ts, hts, -, heq⟩
  · rw [heq] at hrun
    cases hrun
  · have honward := (body_advances h ts.length t.location { s with tokens := ts }).1
    rw [← heq, hrun] at honward
    rw [hts]
    exact Nat.lt_succ_of_le honward.passes.length_le

theorem consumes_statementOf (hexpression : TidyPhrase parts.expression)
    (h : Advances limit n parts.statement) : Consumes (statementOf parts) := by
  have hadvance : Advances limit n (reading advance) := .reading Tidy.advance.takes
  have hpeek : Advances limit n (reading (peekKind 0)) := .reading (.still fun _ => ⟨_, rfl⟩)
  have hcondition : ∀ {opening closing : String}, opening ≠ "'\x7d' before end of input" →
      closing ≠ "'\x7d' before end of input" →
      Consumes (reading (condition parts.expression opening closing)) :=
    fun hopening hclosing => .reading (closed_condition hexpression hopening hclosing)
  refine .after hpeek fun kind => ?_
  split
  · exact .after hadvance fun _ => (hcondition (by decide) (by decide)).first fun _ =>
      (advances_substatement h).bind fun _ => (advances_alternative h).bind fun _ => .pure _
  · exact .after hadvance fun _ => (Consumes.reading (closed_loopHeader hexpression)).first
      fun _ => (advances_substatement h).bind fun _ => .pure _
  · exact .after hadvance fun _ => (hcondition (by decide) (by decide)).first fun _ =>
      (advances_substatement h).bind fun _ => .pure _
  · exact .reading (closed_exit hexpression)
  · exact consumes_block h
  · split
    · exact .reading (closed_declaration hexpression)
    · exact .reading (closed_effect hexpression)

/-- In front of a token that ends no block, a step that takes a token when it succeeds takes one
also when it fails: the fault is passed over. -/
theorem recovering_shortens {α : Type} {x : Recover α} {s s' : ReadState} {found : Option α}
    (hx : Onward s (leftBy (x s)))
    (hconsumes : ∀ a s', x s = .ok a s' → s'.tokens.length < s.tokens.length)
    (hbrace : kindAt 0 s.tokens ≠ .rightBrace) (hend : ¬ AtEnd s)
    (h : recovering limit x s = .ok found s') : s'.tokens.length < s.tokens.length := by
  rcases recovering_cases limit x s with ⟨a, s₁, hs₁, heq⟩ | ⟨fault, s₁, hs₁, -, heq⟩ |
    ⟨fault, s₁, -, -, heq⟩ | ⟨stop, s₁, -, -, heq⟩ <;> rw [heq] at h <;> cases h
  · exact hconsumes a _ hs₁
  · rw [hs₁] at hx
    obtain ⟨front, hfront, -⟩ := hx.passes
    change s.tokens = front ++ s₁.tokens at hfront
    change (skipToBoundary s₁.tokens).length < s.tokens.length
    cases front with
    | nil =>
        rw [List.nil_append] at hfront
        rw [← hfront]
        obtain ⟨t, ts, hts⟩ := exists_cons_of_kindAt hend
        rw [AtEnd, hts] at hend
        rw [hts] at hbrace ⊢
        exact skipToBoundary_length hbrace hend
    | cons t front =>
        have hle := (passes_skipToBoundary s₁.tokens).length_le
        rw [hfront, List.length_append, List.length_cons]
        omega

/-- In front of a token that ends no block, a statement takes a token. -/
theorem statement_shortens (limit levelsLeft depth : Nat) {s s' : ReadState}
    {found : Option Node} (hbrace : kindAt 0 s.tokens ≠ .rightBrace) (hend : ¬ AtEnd s)
    (h : statement limit levelsLeft depth s = .ok found s') :
    s'.tokens.length < s.tokens.length := by
  have hdeep : ∀ l (a : Node) s', reading (tooDeep l) s = .ok a s' →
      s'.tokens.length < s.tokens.length := by
    intro l a s' hrun
    cases hrun
  cases levelsLeft with
  | zero => exact recovering_shortens (x := reading (tooDeep _)) (.refl s) (hdeep _) hbrace hend h
  | succ n =>
      have hinner := advances_statement limit n (depth + 1)
      have hexpression := tidy_expression n (depth + 1)
      rw [statement] at h
      by_cases hlevel : maxTreeDepth ≤ depth
      · rw [if_pos hlevel] at h
        exact recovering_shortens (x := reading (tooDeep _)) (.refl s) (hdeep _) hbrace hend h
      · rw [if_neg hlevel] at h
        exact recovering_shortens ((advances_statementOf hexpression hinner).onward s)
          (consumes_statementOf hexpression hinner s) hbrace hend h

theorem consumes_function (limit : Nat) : Consumes (function limit) := by
  have hpeek : Advances limit (maxNesting + 1) (reading peek) :=
    .reading (.still fun _ => ⟨_, rfl⟩)
  have htype : Advances limit (maxNesting + 1) (reading typeSpecifier) :=
    .reading (Tidy.typeSpecifier.takes.mono fun _ => TokenKind.isWord_of_beginsType)
  have hname : Closed TokenKind.isWord (expect .identifier "function name") :=
    .expect rfl (by decide) (by decide)
  exact .after hpeek fun _ => .after htype fun _ => (Consumes.reading hname).first fun _ =>
    (Advances.reading takes_parameterList).bind fun _ =>
      (advances_block (advances_statement limit maxNesting 0)).bind fun _ => .pure _

end Statements

/-! ## Loops -/

/-- Statements are read up to their end, however many steps there are. -/
theorem statements_unbounded (limit levelsLeft depth : Nat) :
    Unbounded (fun s : ReadState => s.tokens.length)
      (statements (statement limit levelsLeft depth)) := by
  refine unbounded_of_rounds _ (fun (_ : Unit) => statements (statement limit levelsLeft depth))
    (fun _ n s hs => ?_) (fun _ n m s _ ih => ?_) ()
  · obtain ⟨tokens, r, f⟩ := s
    obtain rfl : tokens = [] := List.length_eq_zero_iff.mp hs
    cases n <;> rfl
  · rw [statements, statements, bind_ok (reading_ok (peekKind_apply 0 s.tokens)),
      bind_ok (reading_ok (peekKind_apply 0 s.tokens))]
    split
    · rfl
    · rename_i hkind
      simp only [Bool.or_eq_true, beq_iff_eq, not_or] at hkind
      exact bind_congr_at fun found s' hs' => bind_congr_left
        (ih () s' (statement_shortens limit levelsLeft depth hkind.1 hkind.2 hs'))

/-- A top-level declaration, once the semicolons in front of it are passed over. -/
theorem topLevel_apply (limit : Nat) (s : ReadState) :
    topLevel limit s =
      (if kindAt 0 (skipSemicolons s.tokens) == .endOfInput then pure none
      else if typeLength 0 (skipSemicolons s.tokens) != 0 &&
          kindAt (typeLength 0 (skipSemicolons s.tokens)) (skipSemicolons s.tokens) ==
            .identifier then
        if kindAt (typeLength 0 (skipSemicolons s.tokens) + 1) (skipSemicolons s.tokens) ==
            .leftParen then
          function limit >>= fun n => pure (some n)
        else
          reading (declaration (expression maxNesting 0)) >>= fun n => pure (some n)
      else
        reading advance >>= fun _ => pure none)
      { s with tokens := skipSemicolons s.tokens } :=
  rfl

/-- Before the end of the input, a top-level declaration that is read takes a token. -/
theorem topLevel_shortens (limit : Nat) {s s' : ReadState} {found : Option Node}
    (hend : ¬ AtEnd s) (h : topLevel limit s = .ok found s') :
    s'.tokens.length < s.tokens.length := by
  have hpass := passes_skipSemicolons s.tokens
  have hskip : ∀ {x : Recover (Option Node)}, Consumes x →
      x { s with tokens := skipSemicolons s.tokens } = .ok found s' →
      s'.tokens.length < s.tokens.length :=
    fun hx hrun => Nat.lt_of_lt_of_le (hx _ _ _ hrun) hpass.length_le
  have hsome : ∀ {x : Recover Node}, Consumes x →
      Consumes (x >>= fun n => pure (some n)) := fun hx =>
    hx.first fun _ => (.pure _ : Advances limit 0 _)
  rw [topLevel_apply] at h
  split at h
  · rename_i hskipped
    obtain ⟨front, hfront, -⟩ := hpass
    cases front with
    | nil =>
        rw [List.nil_append] at hfront
        rw [← hfront] at hskipped
        exact absurd (beq_iff_eq.mp hskipped) hend
    | cons t front =>
        cases h
        have hlength := congrArg List.length hfront
        rw [List.length_append, List.length_cons] at hlength
        change (skipSemicolons s.tokens).length < s.tokens.length
        omega
  · rename_i hskipped
    split at h
    · split at h
      · exact hskip (hsome (consumes_function limit)) h
      · exact hskip (hsome (.reading (closed_declaration (tidy_expression _ _)))) h
    · obtain ⟨t, ts, hts⟩ := exists_cons_of_kindAt (by simpa using hskipped)
      rw [hts, kindAt_cons, beq_iff_eq] at hskipped
      rw [hts] at h hpass
      rw [bind_ok (reading_ok (advance_cons hskipped))] at h
      cases h
      exact hpass.length_le

/-- In front of a closing brace, a top-level declaration does not fail. -/
theorem topLevel_rightBrace (limit : Nat) {s : ReadState} (h : kindAt 0 s.tokens = .rightBrace) :
    ∃ s', topLevel limit s = .ok none s' := by
  obtain ⟨tokens, r, f⟩ := s
  obtain ⟨t, ts, rfl⟩ := exists_cons_of_kindAt (by rw [h]; decide)
  rw [kindAt_cons] at h
  have hskip : skipSemicolons (t :: ts) = t :: ts := by
    rw [skipSemicolons, if_neg (by rw [h]; decide)]
  have hlength : typeLength 0 (t :: ts) = 0 := by simp [typeLength_cons, h]; rfl
  refine ⟨⟨ts, r, f⟩, ?_⟩
  rw [topLevel_apply, hskip, if_neg (by simp [h]), hlength, if_neg (by simp),
    bind_ok (reading_ok (advance_cons (by rw [h]; decide)))]
  rfl

/-- Before the end of the input, a top-level declaration takes a token, be it by recovery. -/
theorem recovering_topLevel_shortens (limit : Nat) {s s' : ReadState}
    {found : Option (Option Node)} (hend : ¬ AtEnd s)
    (h : recovering limit (topLevel limit) s = .ok found s') :
    s'.tokens.length < s.tokens.length := by
  by_cases hbrace : kindAt 0 s.tokens = .rightBrace
  · obtain ⟨s₁, hs₁⟩ := topLevel_rightBrace limit hbrace
    rw [recovering_ok limit hs₁] at h
    cases h
    exact topLevel_shortens limit hend hs₁
  · exact recovering_shortens ((advances_topLevel limit).onward s)
      (fun a s₁ hs₁ => topLevel_shortens limit hend hs₁) hbrace hend h

/-- Declarations are read up to the end, however many steps there are. -/
theorem declarations_unbounded (limit : Nat) :
    Unbounded (fun s : ReadState => s.tokens.length) (declarations limit) := by
  refine unbounded_of_rounds _ (fun (_ : Unit) => declarations limit) (fun _ n s hs => ?_)
    (fun _ n m s _ ih => ?_) ()
  · obtain ⟨tokens, r, f⟩ := s
    obtain rfl : tokens = [] := List.length_eq_zero_iff.mp hs
    cases n <;> rfl
  · rw [declarations, declarations]
    by_cases hend : (kindAt 0 s.tokens == .endOfInput) = true
    · rw [if_pos hend, if_pos hend]
    · have hleft : ¬ AtEnd s := fun hatEnd => hend (beq_iff_eq.mpr hatEnd)
      rw [if_neg hend, if_neg hend]
      cases hrun : recovering limit (topLevel limit) s with
      | error stop s' => rfl
      | ok found s' =>
          dsimp only
          rw [ih () s' (recovering_topLevel_shortens limit hleft hrun)]

/-! ## Whole sketches -/

/-- A step with recovery that stops in a sound state stops beyond the limit. -/
theorem recovering_stops {α : Type} {limit n : Nat} {x : Recover α} (hx : Advances limit n x)
    {s s' : ReadState} (hs : Sound limit s) {stop : Stop}
    (h : recovering limit x s = .error stop s') : stop = .exhausted ∧ Overrun limit s' := by
  have hsound := hx.recovering.sound s hs
  rcases recovering_cases limit x s with ⟨a, s₁, -, heq⟩ | ⟨fault, s₁, -, -, heq⟩ |
    ⟨fault, s₁, -, -, heq⟩ | ⟨stop', s₁, -, hstop, heq⟩ <;> rw [heq] at h hsound <;> cases h
  · exact ⟨rfl, hsound⟩
  · cases stop with
    | misread fault => exact absurd rfl (hstop fault)
    | unreadable text => exact hsound.elim
    | exhausted => exact ⟨rfl, hsound⟩

/-- Declarations are read to the end of the input, or there are more faults than the limit. -/
theorem declarations_finish (limit fuel : Nat) {s : ReadState} (hs : Sound limit s)
    (hfuel : s.tokens.length ≤ fuel) :
    Onward s (declarations limit fuel s).2.1 ∧
    CutsOff (maxNesting + 1) s (declarations limit fuel s).2.1 ∧
    (((declarations limit fuel s).2.2 = none ∧ Sound limit (declarations limit fuel s).2.1 ∧
        AtEnd (declarations limit fuel s).2.1) ∨
      ((declarations limit fuel s).2.2 = some .exhausted ∧
        Overrun limit (declarations limit fuel s).2.1)) := by
  have hstep := (advances_topLevel limit).recovering
  induction fuel generalizing s with
  | zero =>
      have hend : AtEnd s := by
        rw [AtEnd, List.length_eq_zero_iff.mp (Nat.le_zero.mp hfuel), kindAt_nil]
      exact ⟨.refl s, .of_eq rfl, Or.inl ⟨rfl, hs, hend⟩⟩
  | succ fuel ih =>
      rw [declarations]
      by_cases hend : (kindAt 0 s.tokens == .endOfInput) = true
      · rw [if_pos hend]
        exact ⟨.refl s, .of_eq rfl, Or.inl ⟨rfl, hs, beq_iff_eq.mp hend⟩⟩
      · have hleft : ¬ AtEnd s := fun hatEnd => hend (beq_iff_eq.mpr hatEnd)
        have honward := hstep.onward s
        have hsound := hstep.sound s hs
        have hcuts := hstep.cutsOff s hs
        rw [if_neg hend]
        cases hrun : recovering limit (topLevel limit) s with
        | error stop s' =>
            rw [hrun] at honward hcuts
            obtain ⟨rfl, hover⟩ := recovering_stops (advances_topLevel limit) hs hrun
            exact ⟨honward, hcuts, Or.inr ⟨rfl, hover⟩⟩
        | ok found s' =>
            rw [hrun] at honward hsound hcuts
            have hshort := recovering_topLevel_shortens limit hleft hrun
            obtain ⟨honward', hcuts', hend'⟩ := ih hsound (by omega)
            exact ⟨honward.trans honward', hcuts.trans honward hcuts' honward', hend'⟩

theorem spelled_prepare {tokens : List Token} (h : Token.Spelled tokens) (file : String) :
    Token.Spelled (prepare tokens file) := by
  have hfilter : Token.Spelled (tokens.filter Token.isSignificant) := fun t ht =>
    h t (List.mem_filter.mp ht).1
  have hmark : ∀ place : Location, Token.IsSpelled ⟨.endOfInput, "", 0, 0, place⟩ := by
    intro place hnumber
    cases hnumber
  unfold prepare
  dsimp only
  split
  · intro t ht
    rw [List.mem_singleton.mp ht]
    exact hmark _
  · split
    · exact hfilter
    · intro t ht
      rcases List.mem_append.mp ht with ht | ht
      · exact hfilter t ht
      · rw [List.mem_singleton.mp ht]
        exact hmark _

theorem tokens_of_atEnd {s s' : ReadState} (h : Onward s s') (hend : AtEnd s') :
    s'.tokens = s.tokens.dropWhile fun t => t.kind.isWord := by
  obtain ⟨front, hfront, hwords⟩ := h.passes
  rw [hfront, List.dropWhile_append_of_pos hwords]
  rw [AtEnd] at hend
  cases hts : s'.tokens with
  | nil => rfl
  | cons t ts =>
      rw [hts, kindAt_cons] at hend
      rw [List.dropWhile_cons_of_neg (by simp [TokenKind.isWord, hend])]

end Grammar

/-! ## What is reported -/

/-- The error that reading is abandoned, after one fault more than are tolerated. -/
def Diagnostic.IsAbandonment (limit : Nat) (d : Diagnostic) : Prop :=
  d.severity = .error ∧
    d.message = "parsing abandoned after " ++ Number.decimal (limit + 1) ++ " recovered errors"

/-- What reading tokens comes to.  No token stops it for good.  It reports faults of the grammar,
as many as are tolerated at most, and blocks that are cut off, one for each level of nesting at
most.  Then it has reached the first mark of the end; or it reports, as the last thing, that it is
abandoned, and there are as many faults as are tolerated before that. -/
structure BoundedReading (tokens : List Token) (file : String) (limit : Nat) : Prop where
  readable : (Grammar.parseTokens tokens file limit).unreadable = none
  reports : ∃ found : List Diagnostic,
    (∀ d ∈ found, d.isCutOff = true ∨ d.IsFault) ∧
    found.countP (fun d => !d.isCutOff) ≤ limit ∧ found.countP Diagnostic.isCutOff ≤ 33 ∧
    (((Grammar.parseTokens tokens file limit).diagnostics = found ∧
        (Grammar.declarations limit (Grammar.prepare tokens file).length
          ⟨Grammar.prepare tokens file, 0, .empty "parser"⟩).2.1.tokens =
            (Grammar.prepare tokens file).dropWhile fun t => t.kind.isWord) ∨
      ∃ d, (Grammar.parseTokens tokens file limit).diagnostics = found ++ [d] ∧
        d.IsAbandonment limit ∧ found.countP (fun d => !d.isCutOff) = limit)

namespace Grammar

/-- What is reported last where there were more faults than are tolerated. -/
theorem closingFindings_exhausted {limit : Nat} {s : ReadState} (h : Overrun limit s) :
    ∃ d : Diagnostic,
      (closingFindings s (some .exhausted)).diagnostics = s.findings.diagnostics ++ [d] ∧
        d.IsAbandonment limit := by
  refine ⟨_, rfl, rfl, ?_⟩
  dsimp only
  rw [h.passed]

theorem boundedReading_of_spelled {tokens : List Token} (h : Token.Spelled tokens) (file : String)
    (limit : Nat) : BoundedReading tokens file limit := by
  have hstart : Sound limit ⟨prepare tokens file, 0, .empty "parser"⟩ :=
    ⟨spelled_prepare h file, by simp [Findings.empty], by simp [Findings.empty], Nat.zero_le _⟩
  obtain ⟨honward, hcuts, hfinish⟩ := declarations_finish limit _ hstart (Nat.le_refl _)
  have hle : cutOffs _ ≤ 33 := hcuts.le
  have hparsed : (parseTokens tokens file limit).diagnostics =
      (closingFindings
        (declarations limit (prepare tokens file).length
          ⟨prepare tokens file, 0, .empty "parser"⟩).2.1
        (declarations limit (prepare tokens file).length
          ⟨prepare tokens file, 0, .empty "parser"⟩).2.2).diagnostics := rfl
  rcases hfinish with ⟨hstop, hsound, hend⟩ | ⟨hstop, hover⟩
  · refine ⟨by simp only [parseTokens, hstop], _, hsound.reported,
      Nat.le_trans (Nat.le_of_eq hsound.counted) hsound.bounded, hle,
      Or.inl ⟨?_, tokens_of_atEnd honward hend⟩⟩
    rw [hparsed, hstop]
    rfl
  · obtain ⟨d, hd, habandoned⟩ := closingFindings_exhausted hover
    refine ⟨by simp only [parseTokens, hstop], _, hover.reported, Nat.le_of_eq hover.counted, hle,
      Or.inr ⟨d, ?_, habandoned, hover.counted⟩⟩
    rw [hparsed, hstop, hd]

/-- Reading ends, and what it reports is bounded: no loop over statements or declarations is cut
short by the number of its steps, and whatever tokens are read, with their numbers spelled as the
lexer spells them -- so those of every text -- the faults, the blocks that are cut off and the
report of abandonment are limited. -/
theorem parse_bounded (file : String) (limit : Nat) :
    (Unbounded (fun s : ReadState => s.tokens.length) (declarations limit) ∧
      ∀ levelsLeft depth, Unbounded (fun s : ReadState => s.tokens.length)
        (statements (statement limit levelsLeft depth))) ∧
    (∀ tokens, Token.Spelled tokens → BoundedReading tokens file limit) ∧
    ∀ source, BoundedReading (Token.tokenize source file) file limit :=
  ⟨⟨declarations_unbounded limit, statements_unbounded limit⟩,
    fun _ h => boundedReading_of_spelled h file limit,
    fun source => boundedReading_of_spelled (Token.spelled_tokenize source file) file limit⟩

/-- Two faults, one of them tolerated, in a body that the end cuts off. -/
theorem parse_bounded_abandoned :
    Token.Spelled (Token.tokenize "void f() \x7b 1 ); 2 );" "a.ino") ∧
    BoundedReading (Token.tokenize "void f() \x7b 1 ); 2 );" "a.ino") "a.ino" 1 ∧
    (parse "void f() \x7b 1 ); 2 );" "a.ino" 1).diagnostics.map Diagnostic.message =
      ["expected ';' after expression", "parsing abandoned after 2 recovered errors"] :=
  ⟨Token.spelled_tokenize _ _,
    (parse_bounded "a.ino" 1).2.1 _ (Token.spelled_tokenize _ _), by decide +kernel⟩

end Grammar

end InoBlocks
