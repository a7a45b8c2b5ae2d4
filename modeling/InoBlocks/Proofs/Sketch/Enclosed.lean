import InoBlocks.Proofs.Sketch.CleanRun
import InoBlocks.Proofs.Sketch.ProperSketch

/-!
# What braces enclose

A statement that is read without findings takes tokens in which every brace that is opened is
closed.  So a block that is read without findings ends at the brace that closes its own, whatever
statements are in it.
-/

namespace InoBlocks

open Read ExprGrammar

namespace TokenKind

def unbraced (kind : TokenKind) : Bool :=
  kind.isWord && kind != .leftBrace && kind != .rightBrace

theorem isWord_of_unbraced {kind : TokenKind} (h : kind.unbraced = true) : kind.isWord = true := by
  cases kind <;> first | rfl | exact absurd h (by decide)

theorem unbraced_of_inPhrase {kind : TokenKind} (h : kind.inPhrase = true) :
    kind.unbraced = true := by
  cases kind <;> first | rfl | exact absurd h (by decide)

theorem unbraced_of_beginsType {kind : TokenKind} (h : kind.beginsType = true) :
    kind.unbraced = true := by
  cases kind <;> first | rfl | exact absurd h (by decide)

end TokenKind

namespace Token

/-- Tokens in which every brace that is opened is closed, and no other. -/
inductive Balanced : List Token → Prop where
  | nil : Balanced []
  | token {t : Token} {ts : List Token} : t.kind.unbraced = true → Balanced ts → Balanced (t :: ts)
  | braces {left right : Token} {ts us : List Token} : left.kind = .leftBrace →
      right.kind = .rightBrace → Balanced ts → Balanced us → Balanced (left :: (ts ++ right :: us))

theorem Balanced.append {ts us : List Token} (h : Balanced ts) (h' : Balanced us) :
    Balanced (ts ++ us) := by
  induction h with
  | nil => exact h'
  | token ht _ ih => exact .token ht ih
  | braces hleft hright hinside _ _ ih =>
      rw [List.cons_append, List.append_assoc, List.cons_append]
      exact .braces hleft hright hinside ih

theorem balanced_of_unbraced {ts : List Token} (h : ∀ t ∈ ts, t.kind.unbraced = true) :
    Balanced ts := by
  induction ts with
  | nil => exact .nil
  | cons t ts ih =>
      obtain ⟨ht, hts⟩ := List.forall_mem_cons.mp h
      exact .token ht (ih hts)

/-- The token that closes the outermost of some open braces. -/
def closing? : (depth : Nat) → List Token → Option Token
  | _, [] => none
  | depth, t :: ts =>
      match t.kind with
      | .leftBrace => closing? (depth + 1) ts
      | .rightBrace => if depth = 1 then some t else closing? (depth - 1) ts
      | _ => closing? depth ts

theorem closing?_unbraced {t : Token} (h : t.kind.unbraced = true) (depth : Nat)
    (ts : List Token) : closing? depth (t :: ts) = closing? depth ts := by
  rw [closing?]
  split
  · rename_i hkind
    rw [hkind] at h
    cases h
  · rename_i hkind
    rw [hkind] at h
    cases h
  · rfl

theorem closing?_left {t : Token} (h : t.kind = .leftBrace) (depth : Nat) (ts : List Token) :
    closing? depth (t :: ts) = closing? (depth + 1) ts := by
  rw [closing?, h]

theorem closing?_right {t : Token} (h : t.kind = .rightBrace) (depth : Nat) (ts : List Token) :
    closing? depth (t :: ts) = if depth = 1 then some t else closing? (depth - 1) ts := by
  rw [closing?, h]

theorem Balanced.closing?_append {ts : List Token} (h : Balanced ts) {depth : Nat}
    (hdepth : 1 ≤ depth) (us : List Token) : closing? depth (ts ++ us) = closing? depth us := by
  induction h generalizing depth us with
  | nil => rfl
  | token ht _ ih => rw [List.cons_append, closing?_unbraced ht, ih hdepth]
  | braces hleft hright _ _ ih ih' =>
      rw [List.cons_append, closing?_left hleft, List.append_assoc, List.cons_append,
        ih (by omega), closing?_right hright, if_neg (by omega), Nat.add_sub_cancel, ih' hdepth]

theorem mem_of_closing? {depth : Nat} {ts : List Token} {right : Token}
    (h : closing? depth ts = some right) : right ∈ ts := by
  induction ts generalizing depth with
  | nil => cases h
  | cons t ts ih =>
      rw [closing?] at h
      split at h
      · exact List.mem_cons_of_mem t (ih h)
      · split at h
        · cases h
          exact List.mem_cons_self
        · exact List.mem_cons_of_mem t (ih h)
      · exact List.mem_cons_of_mem t (ih h)

theorem closing?_filter (depth : Nat) (ts : List Token) :
    closing? depth (ts.filter isSignificant) = closing? depth ts := by
  induction ts generalizing depth with
  | nil => rfl
  | cons t ts ih =>
      by_cases hcomment : t.kind = .comment
      · have hpass : t.kind.unbraced = true := by
          rw [hcomment]
          rfl
        rw [List.filter_cons_of_neg (by simp [isSignificant, hcomment]),
          closing?_unbraced hpass, ih]
      · rw [List.filter_cons_of_pos (by simpa [isSignificant] using hcomment), closing?, closing?]
        split <;> simp only [ih]

end Token

open Token

theorem Passes.balanced {ts us : List Token} (h : Passes TokenKind.unbraced ts us) :
    ∃ front, ts = front ++ us ∧ Balanced front := by
  obtain ⟨front, hfront, hall⟩ := h
  exact ⟨front, hfront, balanced_of_unbraced hall⟩

namespace Grammar

/-! ## Readers of clauses -/

theorem unbraced_phrase {α : Type} {x : Read α} (h : TidyPhrase x) : Takes TokenKind.unbraced x :=
  h.takes.mono fun _ => TokenKind.unbraced_of_inPhrase

section Clauses

variable {x : Read Expr} (h : TidyPhrase x)

include h

theorem unbraced_declaration : Takes TokenKind.unbraced (declaration x) :=
  Tidy.peek.takes.bind fun _ =>
    (Tidy.typeSpecifier.takes.mono fun _ => TokenKind.unbraced_of_beginsType).bind fun _ =>
      (Tidy.expect rfl (by decide)).takes.bind fun _ =>
        (unbraced_phrase (tidy_initialValue h)).bind fun _ =>
          (Tidy.expect rfl (by decide)).takes.bind fun _ => .pure _

theorem unbraced_effect : Takes TokenKind.unbraced (effect x) :=
  Tidy.peek.takes.bind fun _ => (unbraced_phrase h).bind fun _ =>
    (Tidy.expect rfl (by decide)).takes.bind fun _ => .pure _

theorem unbraced_exit : TakesAt TokenKind.unbraced .returnWord (exit x) :=
  (TakesAt.advance fun _ => rfl).bind fun _ =>
    (unbraced_phrase (tidy_unlessAt h _)).bind fun _ =>
      (Tidy.expect rfl (by decide)).takes.bind fun _ => .pure _

theorem unbraced_condition {opening closing : String}
    (hopening : opening ≠ "'\x7d' before end of input")
    (hclosing : closing ≠ "'\x7d' before end of input") :
    Takes TokenKind.unbraced (condition x opening closing) :=
  (Tidy.expect rfl hopening).takes.bind fun _ => (unbraced_phrase h).bind fun _ =>
    (Tidy.expect rfl hclosing).takes.bind fun _ => .pure _

theorem unbraced_loopInit : Takes TokenKind.unbraced (loopInit x) := by
  refine Tidy.atType.takes.bind fun found => ?_
  split
  · exact unbraced_declaration h
  · exact (unbraced_phrase (tidy_bareInit h)).bind fun _ =>
      (Tidy.expect rfl (by decide)).takes.bind fun _ => .pure _

theorem unbraced_loopHeader : Takes TokenKind.unbraced (loopHeader x) :=
  (Tidy.expect rfl (by decide)).takes.bind fun _ => (unbraced_loopInit h).bind fun _ =>
    (unbraced_phrase (tidy_unlessAt h _)).bind fun _ =>
      (Tidy.expect rfl (by decide)).takes.bind fun _ =>
        (unbraced_phrase (tidy_unlessAt h _)).bind fun _ =>
          (Tidy.expect rfl (by decide)).takes.bind fun _ => .pure _

end Clauses

/-! ## Statements -/

/-- In a run without findings, a step takes balanced tokens. -/
def BalancesFrom {α : Type} (ts : List Token) (x : Recover α) : Prop :=
  ∀ a us r f, x ⟨ts, r, f⟩ = .ok a ⟨us, r, f⟩ → ∃ front, ts = front ++ us ∧ Balanced front

/-- A step that goes on, and that takes balanced tokens in every run without findings. -/
structure Balances {α : Type} (x : Recover α) : Prop where
  onward : ∀ s, Onward s (leftBy (x s))
  balanced : ∀ ts, BalancesFrom ts x

namespace Balances

variable {α β : Type}

theorem pure (a : α) : Balances (Pure.pure a) := by
  refine ⟨fun s => .refl s, fun ts b us r f hrun => ⟨[], ?_, .nil⟩⟩
  injection hrun with _ hstate
  injection hstate with htokens

theorem bindFrom {ts : List Token} {x : Recover α} {g : α → Recover β}
    (honward : ∀ s, Onward s (leftBy (x s))) (hx : BalancesFrom ts x) (hg : ∀ a, Balances (g a)) :
    BalancesFrom ts (x >>= g) := by
  intro b us r f hrun
  obtain ⟨a, s', hs', hrest⟩ := bind_eq_ok hrun
  have hfirst := honward ⟨ts, r, f⟩
  have hlater := (hg a).onward s'
  rw [hs'] at hfirst
  rw [hrest] at hlater
  obtain ⟨mid, rfl⟩ := Onward.between ⟨rfl, rfl⟩ hfirst hlater
  obtain ⟨front, rfl, hfront⟩ := hx a _ r f hs'
  obtain ⟨more, hmore, hbalanced⟩ := (hg a).balanced _ b us r f hrest
  exact ⟨front ++ more, by rw [hmore, List.append_assoc], hfront.append hbalanced⟩

theorem bind {x : Recover α} {g : α → Recover β} (hx : Balances x) (hg : ∀ a, Balances (g a)) :
    Balances (x >>= g) :=
  ⟨onward_bind hx.onward fun a => (hg a).onward, fun ts => bindFrom hx.onward (hx.balanced ts) hg⟩

theorem readingFrom {ts : List Token} {x : Read α}
    (h : TakesAt TokenKind.unbraced (kindAt 0 ts) x) : BalancesFrom ts (reading x) := by
  intro a us r f hrun
  obtain ⟨us', hx, hstate⟩ := reading_eq_ok hrun
  injection hstate with htokens
  have hpass := (h ts rfl).1
  rw [hx] at hpass
  exact htokens ▸ hpass.balanced

theorem ite {p : Prop} [Decidable p] {x y : Recover α} (hx : Balances x) (hy : Balances y) :
    Balances (if p then x else y) := by
  split
  · exact hx
  · exact hy

theorem reading {x : Read α} (h : Takes TokenKind.unbraced x) : Balances (reading x) :=
  ⟨(Advances.reading (h.mono fun _ => TokenKind.isWord_of_unbraced) : Advances 0 0 _).onward,
    fun _ => readingFrom (h _)⟩

theorem recovering {limit : Nat} {x : Recover α} (h : Balances x) :
    Balances (recovering limit x) := by
  refine ⟨onward_recovering limit h.onward, fun ts found us r f hrun => ?_⟩
  obtain ⟨a, -, hx⟩ := recovering_eq_ok (h.onward _) hrun rfl
  exact h.balanced ts a us r f hx

end Balances

/-- A first token that is no brace, and what is read behind it. -/
theorem balancesFrom_advance {α : Type} {t : Token} {ts : List Token}
    (ht : t.kind.unbraced = true) {g : Token → Recover α} (hg : ∀ t, Balances (g t)) :
    BalancesFrom (t :: ts) (reading advance >>= g) :=
  Balances.bindFrom (Advances.reading Tidy.advance.takes : Advances 0 0 _).onward
    (Balances.readingFrom (.advance fun _ => ht)) hg

section Parts

variable {parts : Parts} (hexpression : TidyPhrase parts.expression)
  (hstatement : Balances parts.statement)

include hstatement

theorem balances_substatement : Balances (substatement parts) :=
  hstatement.bind fun _ => .pure _

theorem balances_alternative : Balances (alternative parts) := by
  refine (Balances.reading (Tidy.acceptKind rfl).takes).bind fun found => ?_
  cases found with
  | none => exact .pure _
  | some _ => exact balances_substatement hstatement

include hexpression

theorem balancesFrom_branch {t : Token} (ht : t.kind = .ifWord) (ts : List Token) :
    BalancesFrom (t :: ts) (branch parts) :=
  balancesFrom_advance (by rw [ht]; rfl) fun _ =>
    (Balances.reading (unbraced_condition hexpression (by decide) (by decide))).bind fun _ =>
      (balances_substatement hstatement).bind fun _ =>
        (balances_alternative hstatement).bind fun _ => .pure _

theorem balancesFrom_forLoop {t : Token} (ht : t.kind = .forWord) (ts : List Token) :
    BalancesFrom (t :: ts) (forLoop parts) :=
  balancesFrom_advance (by rw [ht]; rfl) fun _ =>
    (Balances.reading (unbraced_loopHeader hexpression)).bind fun _ =>
      (balances_substatement hstatement).bind fun _ => .pure _

theorem balancesFrom_whileLoop {t : Token} (ht : t.kind = .whileWord) (ts : List Token) :
    BalancesFrom (t :: ts) (whileLoop parts) :=
  balancesFrom_advance (by rw [ht]; rfl) fun _ =>
    (Balances.reading (unbraced_condition hexpression (by decide) (by decide))).bind fun _ =>
      (balances_substatement hstatement).bind fun _ => .pure _

end Parts

/-! ## Blocks -/

/-- Statements are read up to a closing brace or the end of the input. -/
theorem statements_stopAt {limit levelsLeft depth fuel : Nat} {s s' : ReadState} {body : List Node}
    (hfuel : s.tokens.length ≤ fuel)
    (hrun : statements (statement limit levelsLeft depth) fuel s = .ok body s') :
    kindAt 0 s'.tokens = .rightBrace ∨ kindAt 0 s'.tokens = .endOfInput := by
  induction fuel generalizing s body with
  | zero =>
      cases hrun
      rw [List.length_eq_zero_iff.mp (Nat.le_zero.mp hfuel)]
      exact Or.inr rfl
  | succ fuel ih =>
      by_cases hkind : kindAt 0 s.tokens = .rightBrace ∨ kindAt 0 s.tokens = .endOfInput
      · rw [statements_stop _ _ hkind] at hrun
        cases hrun
        exact hkind
      · obtain ⟨hbrace, hend⟩ := not_or.mp hkind
        obtain ⟨found, s₁, ns, hs, hns, -⟩ := statements_eq_ok hrun hbrace hend
        have hshort := statement_shortens limit levelsLeft depth hbrace hend hs
        exact ih (by omega) hns

theorem balances_statements {statement : Recover (Option Node)} (h : Balances statement)
    (fuel : Nat) : Balances (statements statement fuel) := by
  induction fuel with
  | zero => exact .pure _
  | succ fuel ih =>
      exact (Balances.reading (.still fun _ => ⟨_, rfl⟩)).bind fun _ => .ite (.pure _)
        (h.bind fun _ => ih.bind fun _ => .pure _)

/-- A block that is read without findings ends at the brace that closes its own. -/
theorem block_encloses {limit levelsLeft depth : Nat}
    (h : Balances (statement limit levelsLeft depth)) {ts us : List Token} {b : Node} {r : Nat}
    {f : Findings}
    (hrun : block (statement limit levelsLeft depth) ⟨ts, r, f⟩ = .ok b ⟨us, r, f⟩) :
    ∃ left inner right, ts = left :: (inner ++ right :: us) ∧ left.kind = .leftBrace ∧
      right.kind = .rightBrace ∧ Balanced inner := by
  rcases block_cases (statement limit levelsLeft depth) ⟨ts, r, f⟩ with
    ⟨stop, s', -, heq⟩ | ⟨left, ts', hts, hleft, heq⟩ <;> rw [heq] at hrun
  · cases hrun
  · obtain rfl : ts = left :: ts' := hts
    obtain ⟨body, s, hbody, hclose⟩ := bind_eq_ok hrun
    have honward := (balances_statements h ts'.length).onward ⟨ts', r, f⟩
    rw [hbody] at honward
    by_cases hend : AtEnd s
    · -- a block that is cut off is reported
      obtain ⟨place, hcut⟩ := closeBlock_atEnd hend left.location body
      rw [hcut] at hclose
      injection hclose with _ hstate
      have hlonger := honward.findings.length_le
      have hds := congrArg (fun s => s.findings.diagnostics.length) hstate
      simp only [cutShort, Findings.record, List.length_append, List.length_singleton] at hds
      change f.diagnostics.length ≤ s.findings.diagnostics.length at hlonger
      omega
    · obtain ⟨tokens, r', f'⟩ := s
      obtain ⟨right, us', rfl⟩ := exists_cons_of_kindAt hend
      rw [closeBlock_cons hend] at hclose
      injection hclose with _ hstate
      injection hstate with htokens hr hf
      subst htokens hr hf
      obtain ⟨inner, hinner, hbalanced⟩ :=
        (balances_statements h ts'.length).balanced ts' _ _ _ _ hbody
      have hstop := statements_stopAt (s := ⟨ts', r', f'⟩) (Nat.le_refl _) hbody
      exact ⟨left, inner, right, by rw [hinner], hleft, hstop.resolve_right hend, hbalanced⟩

/-! ## Statements of any kind -/

theorem balances_block {limit levelsLeft depth : Nat}
    (h : Balances (statement limit levelsLeft depth)) :
    Balances (block (statement limit levelsLeft depth)) := by
  refine ⟨(advances_block (advances_statement limit levelsLeft depth)).onward, ?_⟩
  intro ts b us r f hrun
  obtain ⟨left, inner, right, hts, hleft, hright, hinner⟩ := block_encloses h hrun
  have hbraces := Balanced.braces hleft hright hinner .nil
  exact ⟨left :: (inner ++ [right]), by rw [hts]; simp, hbraces⟩

theorem balancesFrom_statementBy {limit levelsLeft depth : Nat}
    {expression : Read Expr} (hexpression : TidyPhrase expression)
    (h : Balances (statement limit levelsLeft depth)) (t : Token) (ts : List Token) :
    BalancesFrom (t :: ts)
      (statementBy ⟨expression, statement limit levelsLeft depth⟩ t.kind) := by
  unfold statementBy
  split
  · exact balancesFrom_branch hexpression h ‹_› ts
  · exact balancesFrom_forLoop hexpression h ‹_› ts
  · exact balancesFrom_whileLoop hexpression h ‹_› ts
  · rename_i hkind
    refine Balances.readingFrom ?_
    rw [kindAt_cons, hkind]
    exact unbraced_exit hexpression
  · exact (balances_block h).balanced _
  · split
    · exact (Balances.reading (unbraced_declaration hexpression)).balanced _
    · exact (Balances.reading (unbraced_effect hexpression)).balanced _

/-- Every brace that is opened in a statement without findings is closed in it. -/
theorem balances_statement (limit levelsLeft depth : Nat) :
    Balances (statement limit levelsLeft depth) := by
  have hdeep : ∀ l, Balances (reading (tooDeep l) : Recover Node) := fun l =>
    ⟨fun s => .refl s, fun ts a us r f hrun => by cases hrun⟩
  induction levelsLeft generalizing depth with
  | zero => exact (hdeep maxNesting).recovering
  | succ n ih =>
      have hexpression := tidy_expression n (depth + 1)
      have hadvances := advances_statement limit n (depth + 1)
      rw [statement]
      refine Balances.recovering (.ite (hdeep maxTreeDepth) ?_)
      refine ⟨(advances_statementOf hexpression hadvances).onward, ?_⟩
      intro ts a us r f hrun
      cases ts with
      | nil =>
          -- a statement takes a token
          have hlt := consumes_statementOf hexpression hadvances _ _ _ hrun
          exact absurd hlt (Nat.not_lt_zero _)
      | cons t ts =>
          rw [statementOf_eq] at hrun
          exact balancesFrom_statementBy hexpression (ih (depth + 1)) t ts a us r f hrun

/-! ## Functions of a sketch without findings -/

/-- Where nothing was found, no fault was recovered from. -/
theorem Sound.recoveries_eq {limit : Nat} {s : ReadState} (hs : Sound limit s)
    (h : s.findings.diagnostics = []) : s.recoveries = 0 := by
  rw [← hs.counted, h]
  rfl

/-- Where nothing is found later, nothing was found before. -/
theorem Onward.findings_eq {s s' : ReadState} (h : Onward s s')
    (h' : s'.findings.diagnostics = []) : s.findings = s'.findings := by
  have hbefore : s.findings.diagnostics = [] := List.prefix_nil.mp (h' ▸ h.findings)
  obtain ⟨tokens, r, stage, ds⟩ := s
  obtain ⟨tokens', r', stage', ds'⟩ := s'
  obtain rfl : ds = [] := hbefore
  obtain rfl : ds' = [] := h'
  obtain rfl : stage' = stage := h.stage
  rfl

/-- A function among the top-level declarations is read where the semicolons end. -/
theorem function_of_topLevel {limit : Nat} {s s' : ReadState} {l : Location}
    {name type : String} {ps : List Parameter} {body : Node}
    (h : topLevel limit s = .ok (some (.function l name type ps body)) s') :
    function limit { s with tokens := skipSemicolons s.tokens } =
      .ok (.function l name type ps body) s' := by
  rw [topLevel_apply] at h
  split at h
  · cases h
  · split at h
    · split at h
      · obtain ⟨n, s₁, hfunction, hpure⟩ := bind_eq_ok h
        cases hpure
        exact hfunction
      · -- what a declaration reads is no function
        obtain ⟨n, s₁, hreading, hpure⟩ := bind_eq_ok h
        cases hpure
        obtain ⟨ts, hdeclaration, -⟩ := reading_eq_ok hreading
        obtain ⟨_, _, _, hdeclaration⟩ := bind_eq_ok hdeclaration
        obtain ⟨_, _, _, hdeclaration⟩ := bind_eq_ok hdeclaration
        obtain ⟨_, _, _, hdeclaration⟩ := bind_eq_ok hdeclaration
        obtain ⟨_, _, _, hdeclaration⟩ := bind_eq_ok hdeclaration
        obtain ⟨_, _, _, hdeclaration⟩ := bind_eq_ok hdeclaration
        cases hdeclaration
    · obtain ⟨_, _, _, hpure⟩ := bind_eq_ok h
      cases hpure

/-- A function that is the next declaration, without findings up to its end, is read without
findings from some token on. -/
theorem exists_function_of_recovering {limit : Nat} {s s' : ReadState} {l : Location}
    {name type : String} {ps : List Parameter} {body : Node} (hs : Sound limit s)
    (hs' : Sound limit s') (hclean : s'.findings.diagnostics = [])
    (hrun : recovering limit (topLevel limit) s =
      .ok (some (some (.function l name type ps body))) s') :
    ∃ us rest, us <:+ s.tokens ∧ function limit ⟨us, 0, s.findings⟩ =
      .ok (.function l name type ps body) ⟨rest, 0, s.findings⟩ := by
  have honward := (advances_topLevel limit).recovering.onward s
  rw [hrun] at honward
  have hfindings : s.findings = s'.findings := honward.findings_eq hclean
  have hfunction := function_of_topLevel (recovering_eq_some hrun)
  have hstart : s.recoveries = 0 := hs.recoveries_eq (hfindings ▸ hclean)
  have hstop : s'.recoveries = 0 := hs'.recoveries_eq hclean
  obtain ⟨tokens, r, f⟩ := s
  obtain ⟨tokens', r', f'⟩ := s'
  obtain rfl : r = 0 := hstart
  obtain rfl : r' = 0 := hstop
  obtain rfl : f = f' := hfindings
  exact ⟨_, tokens', (passes_skipSemicolons tokens).suffix, hfunction⟩

/-- A function among declarations without findings is read without findings from some token on. -/
theorem exists_function_of_mem {limit fuel : Nat} {s : ReadState} {l : Location}
    {name type : String} {ps : List Parameter} {body : Node} (hs : Sound limit s)
    (hfuel : s.tokens.length ≤ fuel)
    (hclean : (declarations limit fuel s).2.1.findings.diagnostics = [])
    (hmem : .function l name type ps body ∈ (declarations limit fuel s).1) :
    ∃ us rest, us <:+ s.tokens ∧ function limit ⟨us, 0, s.findings⟩ =
      .ok (.function l name type ps body) ⟨rest, 0, s.findings⟩ := by
  induction fuel generalizing s with
  | zero => cases hmem
  | succ fuel ih =>
      rw [declarations] at hclean hmem
      by_cases hend : (kindAt 0 s.tokens == .endOfInput) = true
      · rw [if_pos hend] at hmem
        cases hmem
      · have hleft : ¬ AtEnd s := fun hatEnd => hend (beq_iff_eq.mpr hatEnd)
        rw [if_neg hend] at hclean hmem
        have hstep := (advances_topLevel limit).recovering
        have honward := hstep.onward s
        have hsound := hstep.sound s hs
        cases hrun : recovering limit (topLevel limit) s with
        | error stop s' =>
            rw [hrun] at hmem
            cases hmem
        | ok found s' =>
            rw [hrun] at honward hsound hclean hmem
            have hshort := recovering_topLevel_shortens limit hleft hrun
            have hlater := (declarations_finish limit fuel (s := s') hsound (by omega)).1
            have hnone : s'.findings.diagnostics = [] :=
              List.prefix_nil.mp (hclean ▸ hlater.findings)
            rcases List.mem_append.mp hmem with hhere | hbehind
            · obtain rfl : found = some (some _) :=
                Option.join_eq_some_iff.mp (Option.mem_toList.mp hhere)
              exact exists_function_of_recovering hs hsound hnone hrun
            · obtain ⟨us, rest, hsuffix, hfunction⟩ := ih hsound (by omega) hclean hbehind
              have hfindings : s.findings = s'.findings := honward.findings_eq hnone
              rw [← hfindings] at hfunction
              exact ⟨us, rest, hsuffix.trans honward.passes.suffix, hfunction⟩

/-- A function of a sketch without findings is read without findings from some token on. -/
theorem exists_function_of_mem_body {source file : String} {limit : Nat} {l : Location}
    {name type : String} {ps : List Parameter} {body : Node}
    (hclean : (parse source file limit).diagnostics = [])
    (hmem : .function l name type ps body ∈ (parse source file limit).program.body) :
    ∃ us rest, us <:+ Token.significant source file ∧ function limit ⟨us, 0, .empty "parser"⟩ =
      .ok (.function l name type ps body) ⟨rest, 0, .empty "parser"⟩ := by
  have hstart : Sound limit ⟨Token.significant source file, 0, .empty "parser"⟩ :=
    ⟨prepare_tokenize source file ▸ spelled_prepare (spelled_tokenize source file) file,
      by simp [Findings.empty], by simp [Findings.empty], Nat.zero_le _⟩
  rw [parse, parseTokens, prepare_tokenize] at hclean hmem
  refine exists_function_of_mem hstart (Nat.le_refl _) ?_ hmem
  -- the report that reading was abandoned is a finding too
  have hkept : ∀ (s : ReadState) stop, (closingFindings s stop).diagnostics = [] →
      s.findings.diagnostics = [] := by
    intro s stop h
    unfold closingFindings at h
    split at h
    · exact absurd h (List.append_ne_nil_of_right_ne_nil _ (List.cons_ne_nil _ _))
    · exact h
  exact hkept _ _ hclean

/-- A function begins at its place, and its name is among its tokens. -/
theorem function_eq_ok {limit : Nat} {s s' : ReadState} {l : Location} {name type : String}
    {ps : List Parameter} {body : Node}
    (h : function limit s = .ok (.function l name type ps body) s') :
    ∃ t ts, s.tokens = t :: ts ∧ t.location = l ∧
      ∃ n ∈ s.tokens, n.word = ⟨.identifier, name⟩ := by
  obtain ⟨tokens, r, f⟩ := s
  have hpeek : peek tokens = .ok (tokens.headD default) tokens := rfl
  rw [function, bind_ok (reading_ok hpeek)] at h
  obtain ⟨type', s₁, htype, h⟩ := bind_eq_ok h
  obtain ⟨n, s₂, hname, h⟩ := bind_eq_ok h
  obtain ⟨ps', s₃, -, h⟩ := bind_eq_ok h
  obtain ⟨body', s₄, -, hpure⟩ := bind_eq_ok h
  cases hpure
  obtain ⟨ts₁, htypeRead, rfl⟩ := reading_eq_ok htype
  obtain ⟨ts₂, hnameRead, -⟩ := reading_eq_ok hname
  obtain ⟨rfl, hn⟩ := expect_eq_ok (by decide) hnameRead
  have hmem : n ∈ tokens :=
    (Tidy.typeSpecifier.takes.passes_ok htypeRead).suffix.subset List.mem_cons_self
  cases tokens with
  | nil => cases hmem
  | cons t ts => exact ⟨t, ts, rfl, rfl, n, hmem, congrArg (Word.mk · n.text) hn⟩

/-- The braces around the body of a function, in a reading of the function without findings. -/
def BodyBraces (source file : String) (limit : Nat) (l : Location) (name : String) (body : Node)
    (left right : Token) : Prop :=
  left.kind = .leftBrace ∧ right.kind = .rightBrace ∧
    ∃ header inner rest,
      header ++ left :: (inner ++ right :: rest) <:+ Token.significant source file ∧
      function limit ⟨header ++ left :: (inner ++ right :: rest), 0, .empty "parser"⟩ =
        .ok (.function l name "void" [] body) ⟨rest, 0, .empty "parser"⟩ ∧
      block (statement limit maxNesting 0)
          ⟨left :: (inner ++ right :: rest), 0, .empty "parser"⟩ =
        .ok body ⟨rest, 0, .empty "parser"⟩

/-- Behind the header of a function without parameters, its body is read up to the brace that
closes it. -/
theorem exists_bodyBraces {source file : String} {limit : Nat} {l : Location} {name : String}
    {body : Node} {header ts rest : List Token} {left : Token}
    (hsuffix : header ++ left :: ts <:+ Token.significant source file)
    (hheader : header.map Token.word = headerWords ⟨.voidType, "void"⟩ name)
    (hrun : function limit ⟨header ++ left :: ts, 0, .empty "parser"⟩ =
      .ok (.function l name "void" [] body) ⟨rest, 0, .empty "parser"⟩) :
    ∃ right, BodyBraces source file limit l name body left right ∧
      Token.closing? 1 ts = some right := by
  have hfunction := hrun
  obtain ⟨l', heq⟩ := function_eq hheader (left :: ts) 0 (.empty "parser")
  rw [heq] at hrun
  obtain ⟨body', s, hblock, hpure⟩ := bind_eq_ok hrun
  cases hpure
  obtain ⟨left', inner, right, hts, hleft, hright, hinner⟩ :=
    block_encloses (balances_statement limit maxNesting 0) hblock
  obtain ⟨rfl, rfl⟩ := List.cons.inj hts
  refine ⟨right, ⟨hleft, hright, header, inner, rest, hsuffix, hfunction, hblock⟩, ?_⟩
  rw [hinner.closing?_append (Nat.le_refl 1), closing?_right hright, if_pos rfl]

end Grammar

end InoBlocks
