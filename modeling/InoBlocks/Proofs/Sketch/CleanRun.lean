import InoBlocks.Proofs.Sketch.Bounded

/-!
# Runs without findings

Where statements are read and nothing is found, the result depends on the tokens that are taken,
and on nothing else: not on what stands behind them, an `else` aside, and not on what was found
before.
-/

namespace InoBlocks

open Read ExprGrammar

namespace Grammar

/-- Tokens that do not go on with the choice in front of them. -/
def Calm (us : List Token) : Prop :=
  kindAt 0 us ≠ .elseWord

/-- Between two states with the same findings there are no other findings. -/
theorem Onward.between {us : List Token} {r : Nat} {f : Findings} {s s' : ReadState}
    (hs : s.recoveries = r ∧ s.findings = f) (h : Onward s s') (h' : Onward s' ⟨us, r, f⟩) :
    ∃ front, s' = ⟨front ++ us, r, f⟩ := by
  obtain ⟨rfl, rfl⟩ := hs
  obtain ⟨front, hfront, -⟩ := h'.passes
  obtain ⟨tokens, r', f'⟩ := s'
  obtain ⟨stage, ds⟩ := f'
  have hstage : stage = s.findings.stage := h.stage
  have hds : ds = s.findings.diagnostics :=
    h'.findings.eq_of_length_le h.findings.length_le
  have hr : r' = s.recoveries := Nat.le_antisymm h'.recoveries h.recoveries
  obtain rfl : tokens = front ++ us := hfront
  exact ⟨front, by rw [hstage, hds, hr]⟩

/-- Tokens are not taken off the front and there again. -/
theorem Passes.eq_nil {allowed : TokenKind → Bool} {q us : List Token}
    (h : Passes allowed us (q ++ us)) : q = [] := by
  have hle := h.length_le
  rw [List.length_append] at hle
  exact List.length_eq_zero_iff.mp (by omega)

/-- In a run without findings, a step depends neither on what stands behind the tokens that it
leaves, nor on what was found before. -/
def Framed {α : Type} (x : Recover α) : Prop :=
  ∀ ts q u u' a r f r' f', (q = [] → Calm u ∧ Calm u') →
    x ⟨ts ++ u, r, f⟩ = .ok a ⟨q ++ u, r, f⟩ → x ⟨ts ++ u', r', f'⟩ = .ok a ⟨q ++ u', r', f'⟩

/-- A step that goes on, and whose runs without findings depend on what they take only. -/
structure Clean {α : Type} (x : Recover α) : Prop where
  onward : ∀ s, Onward s (leftBy (x s))
  framed : Framed x

namespace Clean

variable {α β : Type}

theorem pure (a : α) : Clean (Pure.pure a) := by
  refine ⟨fun s => .refl s, fun ts q u u' b r f r' f' _ hrun => ?_⟩
  injection hrun with hb hs
  injection hs with htokens
  rw [← hb, List.append_cancel_right htokens]
  rfl

theorem bind {x : Recover α} {f : α → Recover β} (hx : Clean x) (hf : ∀ a, Clean (f a)) :
    Clean (x >>= f) := by
  refine ⟨onward_bind hx.onward fun a => (hf a).onward, ?_⟩
  intro ts q u u' b r g r' g' hcalm hrun
  obtain ⟨a, s', hs', hrest⟩ := bind_eq_ok hrun
  have honward := hx.onward ⟨ts ++ u, r, g⟩
  have honward' := (hf a).onward s'
  rw [hs'] at honward
  rw [hrest] at honward'
  obtain ⟨front, rfl⟩ := Onward.between ⟨rfl, rfl⟩ honward honward'
  rw [← List.append_assoc] at hs' hrest
  rw [bind_ok (hx.framed ts (front ++ q) u u' a r g r' g'
    (fun hnil => hcalm (List.append_eq_nil_iff.mp hnil).2) hs')]
  exact (hf a).framed _ q u u' b r g r' g' hcalm hrest

/-- A reader that ends with a token that it asks for. -/
theorem reading {x : Read α} (h : Closed TokenKind.isWord x) : Clean (reading x) := by
  refine ⟨(Advances.reading h.takes : Advances 0 0 _).onward, ?_⟩
  intro ts q u u' a r f r' f' _ hrun
  rw [Grammar.reading] at hrun ⊢
  dsimp only at hrun ⊢
  cases hx : x (ts ++ u) with
  | ok a' us =>
      rw [hx] at hrun
      injection hrun with ha hs
      injection hs with htokens
      rw [htokens] at hx
      rw [h.framed ts q u u' a' hx, ha]
  | error stop us =>
      rw [hx] at hrun
      cases hrun

theorem recovering {limit : Nat} {x : Recover α} (h : Clean x) : Clean (recovering limit x) := by
  refine ⟨onward_recovering limit h.onward, fun ts q u u' found r f r' f' hcalm hrun => ?_⟩
  obtain ⟨a, rfl, hx⟩ := recovering_eq_ok (h.onward _) hrun rfl
  exact recovering_ok limit (h.framed ts q u u' a r f r' f' hcalm hx)

end Clean

/-! ## Statements -/

section Statements

variable {parts : Parts}

theorem clean_substatement (h : Clean parts.statement) : Clean (substatement parts) :=
  h.bind fun _ => .pure _

/-- Where no `else` follows, there is no alternative. -/
theorem alternative_calm {s : ReadState} (h : Calm s.tokens) :
    alternative parts s = .ok .empty s := by
  have hnone : acceptKind .elseWord s.tokens = .ok none s.tokens := acceptKind_none h
  rw [alternative, bind_ok (reading_ok hnone)]
  rfl

theorem alternative_else {t : Token} (ht : t.kind = .elseWord) (ts : List Token) (r : Nat)
    (f : Findings) : alternative parts ⟨t :: ts, r, f⟩ = substatement parts ⟨ts, r, f⟩ := by
  rw [alternative, bind_ok (reading_ok (acceptKind_of_kind ht (by decide)))]

theorem clean_alternative (h : Clean parts.statement) : Clean (alternative parts) := by
  have haccept : Takes TokenKind.isWord (acceptKind .elseWord) := (Tidy.acceptKind rfl).takes
  have honward : ∀ s, Onward s (leftBy (alternative parts s)) := by
    refine onward_bind (Advances.reading haccept : Advances 0 0 _).onward fun found s => ?_
    cases found with
    | none => exact .refl s
    | some _ => exact (clean_substatement h).onward s
  refine ⟨honward, ?_⟩
  · intro ts q u u' a r f r' f' hcalm hrun
    cases ts with
    | nil =>
        have hpass := (honward ⟨[] ++ u, r, f⟩).passes
        rw [hrun] at hpass
        obtain rfl : q = [] := Passes.eq_nil hpass
        obtain ⟨hu, hu'⟩ := hcalm rfl
        rw [List.nil_append, alternative_calm (s := ⟨u, r, f⟩) hu] at hrun
        injection hrun with ha
        rw [List.nil_append, alternative_calm (s := ⟨u', r', f'⟩) hu', ha]
    | cons t ts =>
        by_cases ht : t.kind = .elseWord
        · rw [List.cons_append, alternative_else ht] at hrun ⊢
          exact (clean_substatement h).framed ts q u u' a r f r' f' hcalm hrun
        · have halt : ∀ us r f, alternative parts ⟨t :: ts ++ us, r, f⟩ =
              .ok .empty ⟨t :: ts ++ us, r, f⟩ := fun us r f =>
            alternative_calm (s := ⟨t :: ts ++ us, r, f⟩) ht
          rw [halt] at hrun ⊢
          injection hrun with ha hstate
          injection hstate with htokens
          rw [ha, List.append_cancel_right htokens]

end Statements

/-! ## Blocks -/

section Blocks

variable {statement : Recover (Option Node)}

theorem onward_statements (h : Clean statement) (fuel : Nat) (s : ReadState) :
    Onward s (leftBy (statements statement fuel s)) := by
  induction fuel generalizing s with
  | zero => exact .refl s
  | succ fuel ih =>
      rw [statements, bind_ok (reading_ok (peekKind_apply 0 s.tokens))]
      split
      · exact .refl s
      · exact onward_bind h.onward
          (fun found => onward_bind ih fun ns s => (Clean.pure (found.toList ++ ns)).onward s) s

/-- Statements that leave a token of their own are read in front of anything. -/
theorem statements_framed (h : Clean statement) {fuel : Nat} {ts q u : List Token}
    {body : List Node} {r : Nat} {f : Findings} (hq : q ≠ [])
    (hrun : statements statement fuel ⟨ts ++ u, r, f⟩ = .ok body ⟨q ++ u, r, f⟩)
    (u' : List Token) (r' : Nat) (f' : Findings) :
    statements statement fuel ⟨ts ++ u', r', f'⟩ = .ok body ⟨q ++ u', r', f'⟩ := by
  have hstop : ∀ {ts body}, (pure [] : Recover (List Node)) ⟨ts ++ u, r, f⟩ =
      .ok body ⟨q ++ u, r, f⟩ → (pure [] : Recover (List Node)) ⟨ts ++ u', r', f'⟩ =
        .ok body ⟨q ++ u', r', f'⟩ :=
    fun hrun => (Clean.pure []).framed _ q u u' _ r f r' f' (fun hnil => absurd hnil hq) hrun
  induction fuel generalizing ts body with
  | zero => exact hstop hrun
  | succ fuel ih =>
      have honward := onward_statements h (fuel + 1) ⟨ts ++ u, r, f⟩
      rw [hrun] at honward
      cases ts with
      | nil => exact absurd (Passes.eq_nil honward.passes) hq
      | cons t ts =>
          by_cases hkind : t.kind = .rightBrace ∨ t.kind = .endOfInput
          · have hempty : ∀ us r f, statements statement (fuel + 1) ⟨t :: ts ++ us, r, f⟩ =
                .ok [] ⟨t :: ts ++ us, r, f⟩ := fun us r f => statements_stop _ _ hkind
            rw [hempty] at hrun ⊢
            exact hstop hrun
          · obtain ⟨hbrace, hend⟩ := not_or.mp hkind
            obtain ⟨found, s, ns, hs, hns, rfl⟩ := statements_eq_ok hrun hbrace hend
            have hfirst := h.onward ⟨t :: ts ++ u, r, f⟩
            have hrest := onward_statements h fuel s
            rw [hs] at hfirst
            rw [hns] at hrest
            obtain ⟨front, rfl⟩ := Onward.between ⟨rfl, rfl⟩ hfirst hrest
            rw [← List.append_assoc] at hs hns
            have hs' := h.framed (t :: ts) (front ++ q) u u' found r f r' f'
              (fun hnil => absurd (List.append_eq_nil_iff.mp hnil).2 hq) hs
            exact statements_cons fuel hbrace hend hs' (ih hns)

/-- A block without findings is read in front of anything. -/
theorem block_framed (h : Clean statement)
    (hloop : Unbounded (fun s : ReadState => s.tokens.length) (statements statement))
    {t : Token} (ht : t.kind = .leftBrace) {ts q u : List Token} {n : Node} {r : Nat}
    {f : Findings} (hrun : block statement ⟨t :: ts ++ u, r, f⟩ = .ok n ⟨q ++ u, r, f⟩)
    (u' : List Token) (r' : Nat) (f' : Findings) :
    block statement ⟨t :: ts ++ u', r', f'⟩ = .ok n ⟨q ++ u', r', f'⟩ := by
  rw [List.cons_append, block_open ht] at hrun ⊢
  obtain ⟨body, s, hbody, hclose⟩ := bind_eq_ok hrun
  have honward := onward_statements h (ts ++ u).length ⟨ts ++ u, r, f⟩
  rw [hbody] at honward
  by_cases hend : AtEnd s
  · obtain ⟨place, heq⟩ := closeBlock_atEnd hend t.location body
    rw [heq] at hclose
    injection hclose with _ hstate
    have hlonger := honward.findings.length_le
    have hds : (cutShort place s).findings.diagnostics.length = f.diagnostics.length := by
      rw [hstate]
    simp only [cutShort, Findings.record, List.length_append, List.length_singleton] at hds
    change f.diagnostics.length ≤ s.findings.diagnostics.length at hlonger
    omega
  · obtain ⟨tokens, r₁, f₁⟩ := s
    obtain ⟨right, us, rfl⟩ := exists_cons_of_kindAt hend
    have hright : right.kind ≠ .endOfInput := hend
    rw [closeBlock_cons hright] at hclose
    injection hclose with hn hstate
    injection hstate with hus hr hf
    rw [hus, hr, hf, ← List.cons_append] at hbody
    let fuel := max (ts ++ u).length (ts ++ u').length
    have hfuel := hloop (ts ++ u).length fuel ⟨ts ++ u, r, f⟩ (Nat.le_refl _) (Nat.le_max_left _ _)
    have hfuel' := hloop (ts ++ u').length fuel ⟨ts ++ u', r', f'⟩ (Nat.le_refl _)
      (Nat.le_max_right _ _)
    rw [hfuel] at hbody
    have hbody' := hfuel'.trans (statements_framed h (List.cons_ne_nil _ _) hbody u' r' f')
    rw [bind_ok hbody', List.cons_append, closeBlock_cons hright, hn]

end Blocks

/-! ## Statements by their first token -/

/-- A step whose runs without findings, from a token on, depend on what they take only. -/
def FramedFrom {α : Type} (t : Token) (x : Recover α) : Prop :=
  ∀ ts q u u' a r f r' f', (q = [] → Calm u ∧ Calm u') →
    x ⟨t :: ts ++ u, r, f⟩ = .ok a ⟨q ++ u, r, f⟩ →
      x ⟨t :: ts ++ u', r', f'⟩ = .ok a ⟨q ++ u', r', f'⟩

theorem Clean.framedFrom {α : Type} {x : Recover α} (h : Clean x) (t : Token) : FramedFrom t x :=
  fun ts => h.framed (t :: ts)

theorem framedFrom_advance {α : Type} {t : Token} (ht : t.kind ≠ .endOfInput)
    {g : Token → Recover α} (hg : ∀ t, Clean (g t)) : FramedFrom t (reading advance >>= g) := by
  intro ts q u u' a r f r' f' hcalm hrun
  have hadvance : ∀ us r f, (reading advance >>= g) ⟨t :: us, r, f⟩ = g t ⟨us, r, f⟩ :=
    fun us r f => bind_ok (reading_ok (advance_cons ht))
  rw [List.cons_append, hadvance] at hrun ⊢
  exact (hg t).framed ts q u u' a r f r' f' hcalm hrun

section Parts

variable {parts : Parts} (hexpression : TidyPhrase parts.expression)
  (hstatement : Clean parts.statement)

include hexpression hstatement in
theorem framedFrom_branch {t : Token} (ht : t.kind = .ifWord) : FramedFrom t (branch parts) :=
  framedFrom_advance (by rw [ht]; decide) fun _ =>
    (Clean.reading (closed_condition hexpression (by decide) (by decide))).bind fun _ =>
      (clean_substatement hstatement).bind fun _ => (clean_alternative hstatement).bind fun _ =>
        .pure _

include hexpression hstatement in
theorem framedFrom_forLoop {t : Token} (ht : t.kind = .forWord) : FramedFrom t (forLoop parts) :=
  framedFrom_advance (by rw [ht]; decide) fun _ =>
    (Clean.reading (closed_loopHeader hexpression)).bind fun _ =>
      (clean_substatement hstatement).bind fun _ => .pure _

include hexpression hstatement in
theorem framedFrom_whileLoop {t : Token} (ht : t.kind = .whileWord) :
    FramedFrom t (whileLoop parts) :=
  framedFrom_advance (by rw [ht]; decide) fun _ =>
    (Clean.reading (closed_condition hexpression (by decide) (by decide))).bind fun _ =>
      (clean_substatement hstatement).bind fun _ => .pure _

/-- What a statement is, by the kind of its first token. -/
def statementBy (parts : Parts) (kind : TokenKind) : Recover Node :=
  match kind with
  | .ifWord => branch parts
  | .forWord => forLoop parts
  | .whileWord => whileLoop parts
  | .returnWord => reading (exit parts.expression)
  | .leftBrace => block parts.statement
  | kind =>
      if kind.beginsType then reading (declaration parts.expression)
      else reading (effect parts.expression)

theorem statementOf_eq (parts : Parts) (s : ReadState) :
    statementOf parts s = statementBy parts (kindAt 0 s.tokens) s := by
  rw [statementOf, bind_ok (reading_ok (peekKind_apply 0 s.tokens))]
  rfl

include hexpression hstatement in
theorem framedFrom_statementBy
    (hloop : Unbounded (fun s : ReadState => s.tokens.length) (statements parts.statement))
    (t : Token) : FramedFrom t (statementBy parts t.kind) := by
  unfold statementBy
  split
  · exact framedFrom_branch hexpression hstatement ‹_›
  · exact framedFrom_forLoop hexpression hstatement ‹_›
  · exact framedFrom_whileLoop hexpression hstatement ‹_›
  · exact (Clean.reading (closed_exit hexpression)).framedFrom t
  · rename_i ht
    exact fun ts q u u' n r f r' f' _ hrun => block_framed hstatement hloop ht hrun u' r' f'
  · split
    · exact (Clean.reading (closed_declaration hexpression)).framedFrom t
    · exact (Clean.reading (closed_effect hexpression)).framedFrom t

include hexpression hstatement in
theorem clean_statementOf {limit n : Nat} (h : Advances limit n parts.statement)
    (hloop : Unbounded (fun s : ReadState => s.tokens.length) (statements parts.statement)) :
    Clean (statementOf parts) := by
  have hadvances := advances_statementOf hexpression h
  refine ⟨hadvances.onward, fun ts q u u' a r f r' f' hcalm hrun => ?_⟩
  cases ts with
  | nil =>
      -- a statement takes a token
      have hlt := consumes_statementOf hexpression h _ _ _ hrun
      simp only [List.nil_append, List.length_append] at hlt
      omega
  | cons t ts =>
      have hby : ∀ us r f, statementOf parts ⟨t :: ts ++ us, r, f⟩ =
          statementBy parts t.kind ⟨t :: ts ++ us, r, f⟩ := fun us r f => statementOf_eq parts _
      rw [hby] at hrun ⊢
      exact framedFrom_statementBy hexpression hstatement hloop t ts q u u' a r f r' f' hcalm hrun

end Parts

/-- Statements are read without findings in front of anything, if they are so in front of
something. -/
theorem clean_statement (limit levelsLeft depth : Nat) :
    Clean (statement limit levelsLeft depth) := by
  have hdeep : ∀ l, Clean (reading (tooDeep l) : Recover Node) := fun l =>
    ⟨fun s => .refl s, fun ts q u u' a r f r' f' _ hrun => by cases hrun⟩
  induction levelsLeft generalizing depth with
  | zero => exact (hdeep maxNesting).recovering
  | succ n ih =>
      rw [statement]
      refine Clean.recovering ?_
      split
      · exact hdeep maxTreeDepth
      · exact clean_statementOf (tidy_expression n (depth + 1)) (ih (depth + 1))
          (advances_statement limit n (depth + 1)) (statements_unbounded limit n (depth + 1))

/-! ## Runs one after the other -/

/-- Statements that are read to their end without findings are read so in front of others, and
these go on from there. -/
theorem statements_append {limit levelsLeft depth fuel : Nat} {ts u u' : List Token}
    {body rest : List Node} {r r' : Nat} {f f' : Findings} {s : ReadState}
    (hu : kindAt 0 u = .rightBrace ∨ kindAt 0 u = .endOfInput) (hu' : Calm u')
    (hrun : statements (statement limit levelsLeft depth) fuel ⟨ts ++ u, r, f⟩ = .ok body ⟨u, r, f⟩)
    (hrest : statements (statement limit levelsLeft depth) u'.length ⟨u', r', f'⟩ = .ok rest s) :
    statements (statement limit levelsLeft depth) (ts ++ u').length ⟨ts ++ u', r', f'⟩ =
      .ok (body ++ rest) s := by
  have hclean := clean_statement limit levelsLeft depth
  have hcalm : Calm u := by
    rcases hu with hu | hu <;> rw [Calm, hu] <;> decide
  induction fuel generalizing ts body with
  | zero =>
      injection hrun with hbody hstate
      injection hstate with htokens
      obtain rfl : ts = [] := List.append_left_eq_self.mp htokens
      rw [← hbody]
      exact hrest
  | succ fuel ih =>
      cases ts with
      | nil =>
          rw [List.nil_append, statements_stop _ _ hu] at hrun
          injection hrun with hbody
          rw [← hbody]
          exact hrest
      | cons t ts =>
          by_cases hkind : t.kind = .rightBrace ∨ t.kind = .endOfInput
          · have hstop := statements_stop (statement limit levelsLeft depth) (fuel + 1)
              (s := ⟨t :: ts ++ u, r, f⟩) hkind
            rw [hstop] at hrun
            injection hrun with _ hstate
            injection hstate with htokens
            exact absurd (List.append_left_eq_self.mp htokens) (List.cons_ne_nil t ts)
          · obtain ⟨hbrace, hend⟩ := not_or.mp hkind
            obtain ⟨found, s₁, ns, hs, hns, rfl⟩ := statements_eq_ok hrun hbrace hend
            have hfirst := hclean.onward ⟨t :: ts ++ u, r, f⟩
            have hlater := onward_statements hclean fuel s₁
            rw [hs] at hfirst
            rw [hns] at hlater
            obtain ⟨front, rfl⟩ := Onward.between ⟨rfl, rfl⟩ hfirst hlater
            have hs' := hclean.framed (t :: ts) front u u' found r f r' f'
              (fun _ => ⟨hcalm, hu'⟩) hs
            have hshort := statement_shortens limit levelsLeft depth
              (s := ⟨t :: ts ++ u, r, f⟩) hbrace hend hs
            have hlater' := statements_unbounded limit levelsLeft depth (front ++ u').length
              (ts ++ u').length ⟨front ++ u', r', f'⟩ (Nat.le_refl _) (by simp at hshort ⊢; omega)
            rw [ih hns] at hlater'
            rw [List.append_assoc]
            exact statements_cons _ hbrace hend hs' hlater'.symm

end Grammar

end InoBlocks
