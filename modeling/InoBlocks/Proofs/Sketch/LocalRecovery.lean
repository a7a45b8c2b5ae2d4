import InoBlocks.Proofs.Sketch.CleanRun
import InoBlocks.Proofs.Sketch.PhraseOrigin

/-!
# Recovery is local

A stretch of tokens that is no statement, up to its semicolon, costs at most one finding, and the
statements before it and behind it are read as they are without it.  Whatever depth the reading of
the stretch had come to, the fault is caught by the statement that the stretch began, or by one
inside that one, and what is skipped ends with the semicolon.
-/

namespace InoBlocks

open Read ExprGrammar

namespace TokenKind

/-- Whether a token may stand inside a clause: it ends no statement. -/
def inClause (kind : TokenKind) : Bool :=
  kind != .semicolon && kind != .endOfInput

/-- Whether a token may stand in a statement of one semicolon: it ends no statement, it is no
brace, and it begins no counted loop. -/
def inLine (kind : TokenKind) : Bool :=
  kind.inClause && kind != .leftBrace && kind != .rightBrace && kind != .forWord

theorem inClause_of_inPhrase {kind : TokenKind} (h : kind.inPhrase = true) :
    kind.inClause = true := by
  cases kind <;> first | rfl | exact absurd h (by decide)

theorem inClause_of_beginsType {kind : TokenKind} (h : kind.beginsType = true) :
    kind.inClause = true := by
  cases kind <;> first | rfl | exact absurd h (by decide)

end TokenKind

/-- Tokens that may stand in a statement of one semicolon, their numbers spelled as the lexer
spells them. -/
def Token.InLine (ts : List Token) : Prop :=
  ∀ t ∈ ts, t.kind.inLine = true ∧ t.IsSpelled

theorem Token.InLine.suffix {ts us : List Token} (h : Token.InLine ts) (hsuffix : us <:+ ts) :
    Token.InLine us :=
  fun t ht => h t (hsuffix.mem ht)

/-- A stretch with its semicolon ends neither a block nor the input. -/
theorem Token.InLine.head_inClause {g : List Token} {semicolon : Token} (hg : Token.InLine g)
    (hsemicolon : semicolon.kind = .semicolon) (v : List Token) :
    kindAt 0 (g ++ semicolon :: v) ≠ .rightBrace ∧ kindAt 0 (g ++ semicolon :: v) ≠ .endOfInput := by
  cases g with
  | nil =>
      rw [List.nil_append, kindAt_cons, hsemicolon]
      decide
  | cons t g =>
      have hin := (hg t List.mem_cons_self).1
      rw [List.cons_append, kindAt_cons]
      constructor <;> intro hkind <;> rw [hkind] at hin <;> cases hin

/-! ## Readers in front of a semicolon -/

/-- What takes tokens of a clause only does not reach beyond the next semicolon. -/
theorem Passes.before_semicolon {g v us : List Token} {semicolon : Token}
    (h : Passes TokenKind.inClause (g ++ semicolon :: v) us) (hkind : semicolon.kind = .semicolon) :
    ∃ front back, g = front ++ back ∧ us = back ++ semicolon :: v := by
  obtain ⟨front, heq, hfront⟩ := h
  rcases List.append_eq_append_iff.mp heq with ⟨more, hmore, hrest⟩ | ⟨back, rfl, hus⟩
  · cases more with
    | nil => exact ⟨g, [], by simp, by simpa using hrest.symm⟩
    | cons t more =>
        rw [List.cons_append] at hrest
        obtain ⟨rfl, -⟩ := List.cons.inj hrest
        have ht := hfront semicolon (by rw [hmore]; simp)
        rw [hkind] at ht
        cases ht
  · exact ⟨front, back, rfl, hus⟩

/-- In front of a token of some kind, and within a stretch that ends with a semicolon, a reader
takes the stretch and its semicolon, or stops within it at tokens that fit no rule. -/
def EndsAt {α : Type} (kind : TokenKind) (x : Read α) : Prop :=
  ∀ g semicolon v, Token.InLine g → semicolon.kind = .semicolon →
    kindAt 0 (g ++ semicolon :: v) = kind →
    (∃ a, x (g ++ semicolon :: v) = .ok a v) ∨
    (∃ fault g', Token.InLine g' ∧
      x (g ++ semicolon :: v) = .error (.misread fault) (g' ++ semicolon :: v))

/-- A reader that takes a stretch and its semicolon, or stops within it. -/
def Ends {α : Type} (x : Read α) : Prop :=
  ∀ kind, EndsAt kind x

section Ends

variable {α β : Type} {kind : TokenKind} {g v : List Token} {semicolon : Token}

/-- What takes tokens of a clause only stays within the stretch, whether it succeeds or not. -/
theorem TakesAt.within {x : Read α} (h : TakesAt TokenKind.inClause kind x)
    (hg : Token.InLine g) (hsemicolon : semicolon.kind = .semicolon)
    (hkind : kindAt 0 (g ++ semicolon :: v) = kind) :
    (∃ a g', Token.InLine g' ∧ x (g ++ semicolon :: v) = .ok a (g' ++ semicolon :: v)) ∨
    (∃ fault g', Token.InLine g' ∧
      x (g ++ semicolon :: v) = .error (.misread fault) (g' ++ semicolon :: v)) := by
  obtain ⟨hpass, hfault⟩ := h _ hkind
  obtain ⟨front, back, rfl, hleft⟩ := hpass.before_semicolon hsemicolon
  have hback : Token.InLine back := hg.suffix (List.suffix_append front back)
  cases hrun : x (front ++ back ++ semicolon :: v) with
  | ok a us =>
      rw [hrun] at hleft
      obtain rfl : us = back ++ semicolon :: v := hleft
      exact Or.inl ⟨a, back, hback, rfl⟩
  | error stop us =>
      rw [hrun] at hleft
      obtain rfl : us = back ++ semicolon :: v := hleft
      have hspelled : Token.Spelled front := fun t ht => (hg t (List.mem_append_left _ ht)).2
      have hstop := hfault front _ stop (List.append_assoc ..) hspelled hrun
      cases stop with
      | misread fault => exact Or.inr ⟨fault, back, hback, rfl⟩
      | unreadable text => exact hstop.elim
      | exhausted => exact hstop.elim

theorem EndsAt.bind {x : Read α} {f : α → Read β} (hx : TakesAt TokenKind.inClause kind x)
    (hf : ∀ a, Ends (f a)) : EndsAt kind (x >>= f) := by
  intro g semicolon v hg hsemicolon hkind
  rcases hx.within hg hsemicolon hkind with ⟨a, g', hg', hrun⟩ | ⟨fault, g', hg', hrun⟩
  · rw [bind_ok hrun]
    exact hf a _ g' semicolon v hg' hsemicolon rfl
  · exact Or.inr ⟨fault, g', hg', bind_error hrun⟩

theorem Ends.bind {x : Read α} {f : α → Read β} (hx : Takes TokenKind.inClause x)
    (hf : ∀ a, Ends (f a)) : Ends (x >>= f) :=
  fun kind => .bind (hx kind) hf

theorem Ends.close (what : String) (a : α) :
    Ends (expect .semicolon what >>= fun _ => pure a) := by
  intro kind g semicolon v hg hsemicolon _
  cases g with
  | nil => exact Or.inl ⟨a, bind_ok (expect_of_kind hsemicolon (by decide) what)⟩
  | cons t g =>
      have hkind : kindAt 0 (t :: g ++ semicolon :: v) ≠ .semicolon := by
        intro ht
        have hin := (hg t List.mem_cons_self).1
        rw [show t.kind = .semicolon from ht] at hin
        cases hin
      have hexpect : expect .semicolon what (t :: g ++ semicolon :: v) =
          stopAt (fun t => .missingToken what (some (describe t))) (t :: g ++ semicolon :: v) := by
        rw [expect, bind_ok (peekKind_apply 0 _), if_neg (by simpa using hkind)]
      exact Or.inr ⟨_, t :: g, hg, bind_error hexpect⟩

end Ends

namespace Grammar

section Clauses

variable {x : Read Expr}

theorem ends_declaration (h : TidyPhrase x) : Ends (declaration x) :=
  .bind Tidy.peek.takes fun _ =>
    .bind (Tidy.typeSpecifier.takes.mono fun _ => TokenKind.inClause_of_beginsType) fun _ =>
      .bind (Tidy.expect rfl (by decide)).takes fun _ =>
        .bind ((tidy_initialValue h).takes.mono fun _ => TokenKind.inClause_of_inPhrase) fun _ =>
          .close _ _

theorem ends_exit (h : TidyPhrase x) : EndsAt .returnWord (exit x) :=
  .bind (.advance fun _ => rfl) fun _ =>
    .bind ((tidy_unlessAt h _).takes.mono fun _ => TokenKind.inClause_of_inPhrase) fun _ =>
      .close _ _

theorem ends_effect (h : TidyPhrase x) : Ends (effect x) :=
  .bind Tidy.peek.takes fun _ =>
    .bind (h.takes.mono fun _ => TokenKind.inClause_of_inPhrase) fun _ => .close _ _

theorem takes_condition (h : TidyPhrase x) {opening closing : String}
    (hopening : opening ≠ "'\x7d' before end of input")
    (hclosing : closing ≠ "'\x7d' before end of input") :
    Takes TokenKind.inClause (condition x opening closing) :=
  (Tidy.expect rfl hopening).takes.bind fun _ =>
    (h.takes.mono fun _ => TokenKind.inClause_of_inPhrase).bind fun _ =>
      (Tidy.expect rfl hclosing).takes.bind fun _ => .pure _

end Clauses

/-! ## Statements in front of a semicolon -/

/-- The state after a stretch of tokens, with what was found in it. -/
def after (v : List Token) (ds : List Diagnostic) (r : Nat) (f : Findings) : ReadState :=
  ⟨v, r + ds.length, { f with diagnostics := f.diagnostics ++ ds }⟩

@[simp] theorem after_nil (v : List Token) (r : Nat) (f : Findings) : after v [] r f = ⟨v, r, f⟩ := by
  simp [after]

/-- Within a stretch that ends with a semicolon, a step takes it all with at most one finding, or
stops within it at tokens that fit no rule, before anything was found. -/
def Settles {α : Type} (limit : Nat) (x : Recover α) (g : List Token) (semicolon : Token)
    (v : List Token) : Prop :=
  ∀ r f, r < limit →
    (∃ a ds, ds.length ≤ 1 ∧ x ⟨g ++ semicolon :: v, r, f⟩ = .ok a (after v ds r f)) ∨
    (∃ fault g', Token.InLine g' ∧
      x ⟨g ++ semicolon :: v, r, f⟩ = .error (.misread fault) ⟨g' ++ semicolon :: v, r, f⟩)

/-- A statement within a stretch that ends with a semicolon takes it all, and finds at most one
fault; it finds one if it is no statement. -/
def SettlesAll (limit : Nat) (x : Recover (Option Node)) : Prop :=
  ∀ g semicolon v, Token.InLine g → semicolon.kind = .semicolon → Calm v → ∀ r f, r < limit →
    ∃ found ds, ds.length ≤ 1 ∧ (found = none → ds.length = 1) ∧
      x ⟨g ++ semicolon :: v, r, f⟩ = .ok found (after v ds r f)

section Settles

variable {α : Type} {limit : Nat} {g v : List Token} {semicolon : Token}

theorem settles_reading {x : Read α} (h : EndsAt (kindAt 0 (g ++ semicolon :: v)) x)
    (hg : Token.InLine g) (hsemicolon : semicolon.kind = .semicolon) :
    Settles limit (reading x) g semicolon v := by
  intro r f _
  rcases h g semicolon v hg hsemicolon rfl with ⟨a, hrun⟩ | ⟨fault, g', hg', hrun⟩
  · exact Or.inl ⟨a, [], Nat.zero_le 1, by rw [after_nil]; exact reading_ok hrun⟩
  · exact Or.inr ⟨fault, g', hg', reading_error hrun⟩

/-- What is skipped after a fault within the stretch ends with the semicolon. -/
theorem pastFault_within (fault : Fault) (hg : Token.InLine g)
    (hsemicolon : semicolon.kind = .semicolon) (r : Nat) (f : Findings) :
    pastFault fault ⟨g ++ semicolon :: v, r, f⟩ =
      after v [⟨.error, fault.message, fault.location, f.stage⟩] r f := by
  have hskip : skipToBoundary (g ++ semicolon :: v) = v := by
    rw [skipToBoundary_append, skipToBoundary_semicolon hsemicolon]
    intro t ht
    have hin := (hg t ht).1
    refine ⟨?_, ?_, ?_⟩ <;> intro hkind <;> rw [hkind] at hin <;> cases hin
  rw [pastFault, hskip]
  rfl

theorem Settles.recovering {x : Recover α} (h : Settles limit x g semicolon v)
    (hsemicolon : semicolon.kind = .semicolon) {r : Nat} (f : Findings) (hr : r < limit) :
    ∃ found ds, ds.length ≤ 1 ∧ (found = none → ds.length = 1) ∧
      recovering limit x ⟨g ++ semicolon :: v, r, f⟩ = .ok found (after v ds r f) := by
  rcases h r f hr with ⟨a, ds, hds, hrun⟩ | ⟨fault, g', hg', hrun⟩
  · exact ⟨some a, ds, hds, (fun hnone => nomatch hnone), recovering_ok limit hrun⟩
  · refine ⟨none, [⟨.error, fault.message, fault.location, f.stage⟩], Nat.le_refl 1,
      fun _ => rfl, ?_⟩
    rcases recovering_cases limit x ⟨g ++ semicolon :: v, r, f⟩ with ⟨a, s, hs, -⟩ |
      ⟨fault', s, hs, -, heq⟩ | ⟨fault', s, hs, hge, -⟩ | ⟨stop, s, hs, hstop, -⟩ <;>
      rw [hrun] at hs
    · cases hs
    · injection hs with hstop hs
      injection hstop with hfault
      rw [heq, ← hs, ← hfault, pastFault_within fault hg' hsemicolon]
    · injection hs with _ hs
      rw [← hs] at hge
      exact absurd hge (Nat.not_le_of_lt hr)
    · injection hs with hs _
      exact absurd hs.symm (hstop fault)

end Settles

section Statements

variable {limit : Nat} {parts : Parts} {g v : List Token} {semicolon : Token}

theorem settles_branch (hexpression : TidyPhrase parts.expression)
    (hstatement : SettlesAll limit parts.statement) {t : Token} (ht : t.kind = .ifWord)
    (hg : Token.InLine g) (hsemicolon : semicolon.kind = .semicolon) (hv : Calm v) :
    Settles limit (branch parts) (t :: g) semicolon v := by
  intro r f hr
  have hend : t.kind ≠ .endOfInput := by rw [ht]; decide
  have hcondition : Takes TokenKind.inClause
      (condition parts.expression "'(' after 'if'" "')' after if condition") :=
    takes_condition hexpression (by decide) (by decide)
  rw [branch, List.cons_append, bind_ok (reading_ok (advance_cons hend))]
  rcases (hcondition _).within (v := v) hg hsemicolon rfl with
    ⟨test, g', hg', hrun⟩ | ⟨fault, g', hg', hrun⟩
  · obtain ⟨found, ds, hds, -, hs⟩ := hstatement g' semicolon v hg' hsemicolon hv r f hr
    refine Or.inl ⟨.branch t.location test (found.getD .empty) .empty, ds, hds, ?_⟩
    have halternative : alternative parts (after v ds r f) = .ok .empty (after v ds r f) :=
      alternative_calm hv
    rw [bind_ok (reading_ok hrun), bind_ok (substatement_ok hs), bind_ok halternative]
    rfl
  · exact Or.inr ⟨fault, g', hg', bind_error (reading_error hrun)⟩

theorem settles_whileLoop (hexpression : TidyPhrase parts.expression)
    (hstatement : SettlesAll limit parts.statement) {t : Token} (ht : t.kind = .whileWord)
    (hg : Token.InLine g) (hsemicolon : semicolon.kind = .semicolon) (hv : Calm v) :
    Settles limit (whileLoop parts) (t :: g) semicolon v := by
  intro r f hr
  have hend : t.kind ≠ .endOfInput := by rw [ht]; decide
  have hcondition : Takes TokenKind.inClause
      (condition parts.expression "'(' after 'while'" "')' after while condition") :=
    takes_condition hexpression (by decide) (by decide)
  rw [whileLoop, List.cons_append, bind_ok (reading_ok (advance_cons hend))]
  rcases (hcondition _).within (v := v) hg hsemicolon rfl with
    ⟨test, g', hg', hrun⟩ | ⟨fault, g', hg', hrun⟩
  · obtain ⟨found, ds, hds, -, hs⟩ := hstatement g' semicolon v hg' hsemicolon hv r f hr
    refine Or.inl ⟨.whileLoop t.location test (found.getD .empty), ds, hds, ?_⟩
    rw [bind_ok (reading_ok hrun), bind_ok (substatement_ok hs)]
    rfl
  · exact Or.inr ⟨fault, g', hg', bind_error (reading_error hrun)⟩

/-- Whatever a stretch begins with, its statement takes it all or stops within it. -/
theorem settles_statementOf (hexpression : TidyPhrase parts.expression)
    (hstatement : SettlesAll limit parts.statement) (hg : Token.InLine g)
    (hsemicolon : semicolon.kind = .semicolon) (hv : Calm v) :
    Settles limit (statementOf parts) g semicolon v := by
  suffices hby : Settles limit (statementBy parts (kindAt 0 (g ++ semicolon :: v))) g semicolon v by
    intro r f hr
    rw [statementOf_eq]
    exact hby r f hr
  have hhead : ∀ {kind}, kindAt 0 (g ++ semicolon :: v) = kind → kind ≠ .semicolon →
      ∃ t g', g = t :: g' ∧ t.kind = kind ∧ t.kind.inLine = true ∧ Token.InLine g' := by
    intro kind hkind hne
    cases g with
    | nil => exact absurd (hkind.symm.trans hsemicolon) hne
    | cons t g =>
        exact ⟨t, g, rfl, hkind, (hg t List.mem_cons_self).1, hg.suffix (List.suffix_cons t g)⟩
  generalize hkind : kindAt 0 (g ++ semicolon :: v) = kind
  unfold statementBy
  split
  · obtain ⟨t, g', rfl, ht, -, hg'⟩ := hhead hkind (by decide)
    exact settles_branch hexpression hstatement ht hg' hsemicolon hv
  · obtain ⟨t, g', rfl, ht, hin, -⟩ := hhead hkind (by decide)
    rw [ht] at hin
    cases hin
  · obtain ⟨t, g', rfl, ht, -, hg'⟩ := hhead hkind (by decide)
    exact settles_whileLoop hexpression hstatement ht hg' hsemicolon hv
  · exact settles_reading (hkind ▸ ends_exit hexpression) hg hsemicolon
  · obtain ⟨t, g', rfl, ht, hin, -⟩ := hhead hkind (by decide)
    rw [ht] at hin
    cases hin
  · split
    · exact settles_reading (ends_declaration hexpression _) hg hsemicolon
    · exact settles_reading (ends_effect hexpression _) hg hsemicolon

/-- A statement within a stretch takes it all, and finds at most one fault. -/
theorem settlesAll_statement (limit levelsLeft depth : Nat) :
    SettlesAll limit (statement limit levelsLeft depth) := by
  have hdeep : ∀ l g (semicolon : Token) v, Token.InLine g →
      Settles limit (reading (tooDeep l) : Recover Node) g semicolon v :=
    fun l g semicolon v hg r f _ => Or.inr ⟨_, g, hg, rfl⟩
  induction levelsLeft generalizing depth with
  | zero =>
      intro g semicolon v hg hsemicolon _ r f hr
      exact (hdeep maxNesting g semicolon v hg).recovering hsemicolon f hr
  | succ n ih =>
      intro g semicolon v hg hsemicolon hv r f hr
      rw [statement]
      refine Settles.recovering ?_ hsemicolon f hr
      split
      · exact hdeep maxTreeDepth g semicolon v hg
      · exact settles_statementOf (tidy_expression n (depth + 1)) (ih (depth + 1)) hg hsemicolon hv

end Statements

/-! ## Bodies -/

theorem expression_else {t : Token} (ht : t.kind = .elseWord) (levelsLeft depth : Nat)
    (ts us : List Token) (e : Expr) : expression levelsLeft depth (t :: ts) ≠ .ok e us := by
  intro hrun
  obtain ⟨words, hwords, hphrase⟩ := expression_sound levelsLeft depth (t :: ts) e us hrun
  obtain ⟨w, ws, hw, hbegins, -⟩ := hphrase.exists_head
  cases words with
  | nil => cases hw
  | cons t' words =>
      obtain ⟨rfl, -⟩ := List.cons.inj hwords
      obtain ⟨rfl, -⟩ := List.cons.inj hw
      rw [Token.word_kind, ht] at hbegins
      cases hbegins

/-- A statement that begins with an `else` costs a finding. -/
theorem statement_else {t : Token} (ht : t.kind = .elseWord) (limit levelsLeft depth : Nat)
    {ts : List Token} {r : Nat} {f : Findings} {found : Option Node} {s : ReadState}
    (h : statement limit levelsLeft depth ⟨t :: ts, r, f⟩ = .ok found s) : r < s.recoveries := by
  have hfault : ∀ {x : Recover Node}, (∀ s, Onward s (leftBy (x s))) →
      (∀ n s', x ⟨t :: ts, r, f⟩ ≠ .ok n s') →
      recovering limit x ⟨t :: ts, r, f⟩ = .ok found s → r < s.recoveries := by
    intro x hx hno hrun
    have honward := hx ⟨t :: ts, r, f⟩
    rcases recovering_cases limit x ⟨t :: ts, r, f⟩ with ⟨a, s₁, hs₁, -⟩ |
      ⟨fault, s₁, hs₁, -, heq⟩ | ⟨fault, s₁, -, -, heq⟩ | ⟨stop, s₁, -, -, heq⟩
    · exact absurd hs₁ (hno a s₁)
    · rw [heq] at hrun
      rw [hs₁] at honward
      injection hrun with _ hstate
      rw [← hstate]
      exact Nat.lt_succ_of_le honward.recoveries
    · rw [heq] at hrun
      cases hrun
    · rw [heq] at hrun
      cases hrun
  have hdeep : ∀ l, recovering limit (reading (tooDeep l)) ⟨t :: ts, r, f⟩ = .ok found s →
      r < s.recoveries :=
    fun l => hfault (fun s => .refl s) fun n s' hrun => by cases hrun
  cases levelsLeft with
  | zero => exact hdeep maxNesting h
  | succ n =>
      rw [statement] at h
      split at h
      · exact hdeep maxTreeDepth h
      · refine hfault (advances_statementOf (tidy_expression n (depth + 1))
          (advances_statement limit n (depth + 1))).onward (fun n' s' hrun => ?_) h
        rw [statementOf_eq, kindAt_cons, ht] at hrun
        obtain ⟨us, heffect, -⟩ := reading_eq_ok hrun
        obtain ⟨t', us', hpeek, hrest⟩ := bind_eq_ok heffect
        obtain ⟨rfl, rfl⟩ : t = t' ∧ t :: ts = us' := by
          rw [peek_cons] at hpeek
          exact ⟨by injection hpeek, by injection hpeek⟩
        obtain ⟨e, us'', he, -⟩ := bind_eq_ok hrest
        exact expression_else ht n (depth + 1) ts us'' e he

/-- Tokens that are the statements of a body and are read to their end without a finding, in
front of something that ends the body. -/
def ReadsAsBody (limit : Nat) (ts : List Token) (body : List Node) : Prop :=
  ∃ u, (kindAt 0 u = .rightBrace ∨ kindAt 0 u = .endOfInput) ∧
    statements (statement limit maxNesting 0) (ts ++ u).length ⟨ts ++ u, 0, .empty "parser"⟩ =
      .ok body ⟨u, 0, .empty "parser"⟩

theorem ReadsAsBody.calm {limit : Nat} {ts : List Token} {body : List Node}
    (h : ReadsAsBody limit ts body) {v : List Token} (hv : Calm v) : Calm (ts ++ v) := by
  obtain ⟨u, hu, hrun⟩ := h
  cases ts with
  | nil => exact hv
  | cons t ts =>
      intro ht
      change t.kind = .elseWord at ht
      obtain ⟨found, s, ns, hs, hns, -⟩ := statements_eq_ok (s := ⟨t :: ts ++ u, 0, .empty "parser"⟩)
        hrun (by simp [ht]) (by simp [ht])
      have hlt := statement_else ht limit maxNesting 0 hs
      have honward := onward_statements (clean_statement limit maxNesting 0) (ts ++ u).length s
      rw [show (ts ++ u).length = (ts.append u).length from rfl, hns] at honward
      exact absurd honward.recoveries (Nat.not_le_of_lt hlt)

/-- Where the statements of a body end with a stretch that is no statement, its semicolon and more
statements, what is read is the statements in front of the stretch and those behind it, with at
most one statement between them.  At most one fault is found, and one is found if there is no
statement between them. -/
theorem block_recovers {limit r : Nat} (hr : r < limit) (f : Findings) {as bs g rest : List Token}
    {before behind : List Node} {opening semicolon closing : Token}
    (has : ReadsAsBody limit as before) (hbs : ReadsAsBody limit bs behind)
    (hg : Token.InLine g) (helse : kindAt 0 g ≠ .elseWord) (hopening : opening.kind = .leftBrace)
    (hsemicolon : semicolon.kind = .semicolon) (hclosing : closing.kind = .rightBrace) :
    ∃ (middle : Option Node) (ds : List Diagnostic), ds.length ≤ 1 ∧
      (middle = none → ds.length = 1) ∧
      block (statement limit maxNesting 0)
          ⟨opening :: (as ++ (g ++ semicolon :: (bs ++ closing :: rest))), r, f⟩ =
        .ok (.block opening.location (before ++ (middle.toList ++ behind))) (after rest ds r f) := by
  have hcalmClosing : Calm (closing :: rest) := by
    rw [Calm, kindAt_cons, hclosing]
    decide
  have hcalm : Calm (bs ++ closing :: rest) := hbs.calm hcalmClosing
  have hcalmG : Calm (g ++ semicolon :: (bs ++ closing :: rest)) := by
    cases g with
    | nil => exact ne_of_eq_of_ne hsemicolon (by decide)
    | cons t g => exact helse
  obtain ⟨middle, ds, hds, hnone, hmiddle⟩ := settlesAll_statement limit maxNesting 0 g semicolon
    (bs ++ closing :: rest) hg hsemicolon hcalm r f hr
  refine ⟨middle, ds, hds, hnone, ?_⟩
  obtain ⟨u, hu, hbefore⟩ := has
  obtain ⟨u', hu', hbehind⟩ := hbs
  have hlast : statements (statement limit maxNesting 0) (bs ++ closing :: rest).length
      (after (bs ++ closing :: rest) ds r f) = .ok behind (after (closing :: rest) ds r f) := by
    have hstop := statements_stop (statement limit maxNesting 0) (closing :: rest).length
      (s := after (closing :: rest) ds r f) (Or.inl hclosing)
    have happend := statements_append hu' hcalmClosing hbehind hstop
    rwa [List.append_nil] at happend
  have hlater : statements (statement limit maxNesting 0)
      (g ++ semicolon :: (bs ++ closing :: rest)).length
      ⟨g ++ semicolon :: (bs ++ closing :: rest), r, f⟩ =
        .ok (middle.toList ++ behind) (after (closing :: rest) ds r f) := by
    obtain ⟨hbrace, hend⟩ := hg.head_inClause hsemicolon (bs ++ closing :: rest)
    have hfuel := statements_unbounded limit maxNesting 0 (bs ++ closing :: rest).length
      (g ++ bs ++ closing :: rest).length (after (bs ++ closing :: rest) ds r f)
      (Nat.le_refl _) (by simp [after])
    rw [hlast] at hfuel
    have hlength : (g ++ semicolon :: (bs ++ closing :: rest)).length =
        (g ++ bs ++ closing :: rest).length + 1 := by
      simp only [List.length_append, List.length_cons]
      omega
    rw [hlength]
    exact statements_cons _ hbrace hend hmiddle hfuel.symm
  have hbody := statements_append hu hcalmG hbefore hlater
  have hright : closing.kind ≠ .endOfInput := by
    rw [hclosing]
    decide
  rw [block_open hopening, bind_ok hbody]
  exact closeBlock_cons hright rest _ _ _ _

/-- A choice that is broken off between two statements. -/
theorem block_recovers_choice :
    ReadsAsBody 1 [⟨.identifier, "x", 0, 1, default⟩, ⟨.semicolon, ";", 1, 2, default⟩]
      [.effect default (.name default "x")] ∧
    Token.InLine [⟨.ifWord, "if", 0, 2, default⟩, ⟨.leftParen, "(", 2, 3, default⟩] ∧
    ∃ (middle : Option Node) (ds : List Diagnostic), ds.length ≤ 1 ∧
      (middle = none → ds.length = 1) ∧
      block (statement 1 maxNesting 0)
          ⟨⟨.leftBrace, "\x7b", 0, 1, default⟩ ::
            ([⟨.identifier, "x", 0, 1, default⟩, ⟨.semicolon, ";", 1, 2, default⟩] ++
              ([⟨.ifWord, "if", 0, 2, default⟩, ⟨.leftParen, "(", 2, 3, default⟩] ++
                ⟨.semicolon, ";", 3, 4, default⟩ ::
                  ([⟨.identifier, "x", 0, 1, default⟩, ⟨.semicolon, ";", 1, 2, default⟩] ++
                    ⟨.rightBrace, "\x7d", 2, 3, default⟩ :: []))), 0, .empty "parser"⟩ =
        .ok (.block default ([.effect default (.name default "x")] ++
            (middle.toList ++ [.effect default (.name default "x")])))
          (after [] ds 0 (.empty "parser")) := by
  have hbody : ReadsAsBody 1 [⟨.identifier, "x", 0, 1, default⟩, ⟨.semicolon, ";", 1, 2, default⟩]
      [.effect default (.name default "x")] := ⟨[], Or.inr rfl, rfl⟩
  have hline : Token.InLine
      [⟨.ifWord, "if", 0, 2, default⟩, ⟨.leftParen, "(", 2, 3, default⟩] := by
    intro t ht
    simp only [List.mem_cons, List.not_mem_nil, or_false] at ht
    rcases ht with rfl | rfl <;> exact ⟨rfl, fun hnumber => nomatch hnumber⟩
  exact ⟨hbody, hline, block_recovers (by decide) _ hbody hbody hline (by decide) rfl rfl rfl⟩

end Grammar

end InoBlocks
