import InoBlocks.Proofs.Sketch.StatementSteps
import InoBlocks.Proofs.Sketch.TidyClause

/-!
# Reading goes on

A step of reading statements takes tokens from the front and adds to what was found; it never
gives anything back.  The faults it recovers from are counted one by one, up to the limit.  A
block is reported as cut off only at the end of the input, where every block around it ends too;
so the number of these reports is bounded by the levels of nesting.
-/

namespace InoBlocks

open Read ExprGrammar

/-! ## Kinds of findings -/

namespace Diagnostic

/-- Whether a finding is the error that the end of the input cuts a block off. -/
def isCutOff (d : Diagnostic) : Bool :=
  d.message == "expected '\x7d' before end of input" && d.isError

def IsFault (d : Diagnostic) : Prop :=
  d.severity = .error ∧ ∃ cause : Cause, cause.IsSyntax ∧ d.message = cause.message

/-- A fault of the grammar is not taken for a block that is cut off. -/
theorem IsFault.not_isCutOff {d : Diagnostic} (h : d.IsFault) : d.isCutOff = false := by
  obtain ⟨-, cause, hcause, hmessage⟩ := h
  have hunexpected : ∀ text rest : String,
      "unexpected token '" ++ text ++ rest ≠ "expected '\x7d' before end of input" := by
    intro text rest heq
    have hfirst := congrArg (fun message => message.toList.head?) heq
    simp at hfirst
  have hnesting : ∀ text rest : String,
      "nesting deeper than " ++ text ++ rest ≠ "expected '\x7d' before end of input" := by
    intro text rest heq
    have hfirst := congrArg (fun message => message.toList.head?) heq
    simp at hfirst
  rw [isCutOff, Bool.and_eq_false_iff, hmessage]
  refine Or.inl (beq_false_of_ne ?_)
  cases cause with
  | unexpectedToken found expected => exact hunexpected found "'"
  | missingToken expected found =>
      intro heq
      have hsplit : "expected '\x7d' before end of input" =
          "expected " ++ "'\x7d' before end of input" := by decide
      exact hcause ((String.append_right_inj "expected ").mp (heq.trans hsplit))
  | nestedTooDeep limit => exact hnesting (Number.signedDecimal limit) " levels"
  | _ => exact hcause.elim

end Diagnostic

namespace Grammar

/-! ## States -/

/-- A later state of reading: tokens are taken from the front, and faults and findings are only
added. -/
structure Onward (s s' : ReadState) : Prop where
  passes : Passes TokenKind.isWord s.tokens s'.tokens
  recoveries : s.recoveries ≤ s'.recoveries
  findings : s.findings.diagnostics <+: s'.findings.diagnostics
  stage : s'.findings.stage = s.findings.stage

theorem Onward.refl (s : ReadState) : Onward s s :=
  ⟨.refl _, Nat.le_refl _, List.prefix_refl _, rfl⟩

theorem Onward.trans {s s' s'' : ReadState} (h : Onward s s') (h' : Onward s' s'') :
    Onward s s'' :=
  ⟨h.passes.trans h'.passes, Nat.le_trans h.recoveries h'.recoveries,
    h.findings.trans h'.findings, h'.stage.trans h.stage⟩

theorem Onward.of_passes {s : ReadState} {ts : List Token}
    (h : Passes TokenKind.isWord s.tokens ts) : Onward s { s with tokens := ts } :=
  ⟨h, Nat.le_refl _, List.prefix_refl _, rfl⟩

def AtEnd (s : ReadState) : Prop :=
  kindAt 0 s.tokens = .endOfInput

theorem Passes.eq_of_atEnd {ts us : List Token} (h : Passes TokenKind.isWord ts us)
    (hend : kindAt 0 ts = .endOfInput) : us = ts := by
  obtain ⟨front, rfl, hfront⟩ := h
  cases front with
  | nil => rfl
  | cons t front =>
      have ht := hfront t List.mem_cons_self
      rw [List.cons_append, kindAt_cons] at hend
      rw [hend] at ht
      cases ht

theorem Onward.atEnd {s s' : ReadState} (h : Onward s s') (hend : AtEnd s) : AtEnd s' := by
  rw [AtEnd, Passes.eq_of_atEnd h.passes hend]
  exact hend

def cutOffs (s : ReadState) : Nat :=
  s.findings.diagnostics.countP Diagnostic.isCutOff

/-- From one state to another at most a number of blocks are cut off, and only where the end is
reached. -/
structure CutsAtEnd (n : Nat) (s s' : ReadState) : Prop where
  le : cutOffs s' ≤ cutOffs s + n
  atEnd : cutOffs s' ≠ cutOffs s → AtEnd s'

/-- From one state to another at most a number of blocks are cut off, only where the end is
reached, and none where it was reached before. -/
structure CutsOff (n : Nat) (s s' : ReadState) : Prop extends CutsAtEnd n s s' where
  still : AtEnd s → cutOffs s' = cutOffs s

namespace CutsOff

variable {n m : Nat} {s s' s'' : ReadState}

theorem of_eq (h : cutOffs s' = cutOffs s) : CutsOff n s s' :=
  ⟨⟨by omega, fun hne => absurd h hne⟩, fun _ => h⟩

theorem mono (h : CutsOff n s s') (hle : n ≤ m) : CutsOff m s s' :=
  ⟨⟨by have := h.le; omega, h.atEnd⟩, h.still⟩

/-- What is cut off in two steps is cut off in one of them. -/
theorem trans (h : CutsOff n s s') (honward : Onward s s') (h' : CutsOff n s' s'')
    (honward' : Onward s' s'') : CutsOff n s s'' := by
  by_cases heq : cutOffs s' = cutOffs s
  · refine ⟨⟨by have := h'.le; omega, fun hne => h'.atEnd (by omega)⟩, fun hend => ?_⟩
    rw [h'.still (honward.atEnd hend), heq]
  · have hend := h.atEnd heq
    have heq' := h'.still hend
    exact ⟨⟨by have := h.le; omega, fun _ => honward'.atEnd hend⟩,
      fun hstart => absurd (h.still hstart) heq⟩

/-- What is cut off in a block, and then the block itself. -/
theorem add (h : CutsOff n s s') (h' : CutsAtEnd m s' s'') (honward' : Onward s' s'') :
    CutsAtEnd (n + m) s s'' := by
  refine ⟨by have := h.le; have := h'.le; omega, fun hne => ?_⟩
  by_cases heq : cutOffs s' = cutOffs s
  · exact h'.atEnd (by omega)
  · exact honward'.atEnd (h.atEnd heq)

end CutsOff

/-- A state in which every finding is accounted for: the faults are as many as the recoveries,
and these are within the limit. -/
structure Sound (limit : Nat) (s : ReadState) : Prop where
  spelled : Token.Spelled s.tokens
  reported : ∀ d ∈ s.findings.diagnostics, d.isCutOff = true ∨ d.IsFault
  counted : s.findings.diagnostics.countP (fun d => !d.isCutOff) = s.recoveries
  bounded : s.recoveries ≤ limit

/-- The state in which reading is abandoned: one fault more than the limit, which is not
reported. -/
structure Overrun (limit : Nat) (s : ReadState) : Prop where
  reported : ∀ d ∈ s.findings.diagnostics, d.isCutOff = true ∨ d.IsFault
  counted : s.findings.diagnostics.countP (fun d => !d.isCutOff) = limit
  passed : s.recoveries = limit + 1

def EndsSound {α : Type} (limit : Nat) : EStateM.Result Stop ReadState α → Prop
  | .ok _ s => Sound limit s
  | .error (.misread fault) s => fault.cause.IsSyntax ∧ Sound limit s
  | .error .exhausted s => Overrun limit s
  | .error (.unreadable _) _ => False

theorem Sound.passes {limit : Nat} {s : ReadState} (h : Sound limit s) {ts : List Token}
    (hpass : Passes TokenKind.isWord s.tokens ts) : Sound limit { s with tokens := ts } :=
  ⟨hpass.spelled h.spelled, h.reported, h.counted, h.bounded⟩

/-! ## Steps -/

/-- Two steps in a row: the second goes on from where the first led, or the first failed. -/
theorem bind_cases {σ α β : Type} (x : EStateM Stop σ α) (f : α → EStateM Stop σ β) (s : σ) :
    (∃ a s', x s = .ok a s' ∧ (x >>= f) s = f a s') ∨
    (∃ stop s', x s = .error stop s' ∧ (x >>= f) s = .error stop s') := by
  cases hrun : x s with
  | ok a s' => exact Or.inl ⟨a, s', rfl, bind_ok hrun⟩
  | error stop s' => exact Or.inr ⟨stop, s', rfl, bind_error hrun⟩

theorem onward_bind {α β : Type} {x : Recover α} {f : α → Recover β}
    (hx : ∀ s, Onward s (leftBy (x s))) (hf : ∀ a s, Onward s (leftBy (f a s))) (s : ReadState) :
    Onward s (leftBy ((x >>= f) s)) := by
  have honward := hx s
  rcases bind_cases x f s with ⟨a, s', hrun, heq⟩ | ⟨stop, s', hrun, heq⟩
  · rw [hrun] at honward
    rw [heq]
    exact honward.trans (hf a s')
  · rw [hrun] at honward
    rw [heq]
    exact honward

/-- A step goes on, accounts for its findings, and cuts off at most a number of blocks. -/
structure Advances {α : Type} (limit n : Nat) (x : Recover α) : Prop where
  onward : ∀ s, Onward s (leftBy (x s))
  sound : ∀ s, Sound limit s → EndsSound limit (x s)
  cutsOff : ∀ s, Sound limit s → CutsOff n s (leftBy (x s))

namespace Advances

variable {α β : Type} {limit n m : Nat}

theorem mono {x : Recover α} (h : Advances limit n x) (hle : n ≤ m) : Advances limit m x :=
  ⟨h.onward, h.sound, fun s hs => (h.cutsOff s hs).mono hle⟩

theorem pure (a : α) : Advances limit n (Pure.pure a) :=
  ⟨fun s => .refl s, fun _ hs => hs, fun _ _ => .of_eq rfl⟩

theorem bind {x : Recover α} {f : α → Recover β} (hx : Advances limit n x)
    (hf : ∀ a, Advances limit n (f a)) : Advances limit n (x >>= f) := by
  refine ⟨onward_bind hx.onward fun a => (hf a).onward, fun s hs => ?_, fun s hs => ?_⟩
  · have hsound := hx.sound s hs
    rcases bind_cases x f s with ⟨a, s', hrun, heq⟩ | ⟨stop, s', hrun, heq⟩
    · rw [hrun] at hsound
      rw [heq]
      exact (hf a).sound s' hsound
    · rw [hrun] at hsound
      rw [heq]
      cases stop <;> exact hsound
  · have hcuts := hx.cutsOff s hs
    rcases bind_cases x f s with ⟨a, s', hrun, heq⟩ | ⟨stop, s', hrun, heq⟩
    · have honward := hx.onward s
      have hsound := hx.sound s hs
      rw [hrun] at hcuts honward hsound
      rw [heq]
      exact hcuts.trans honward ((hf a).cutsOff s' hsound) ((hf a).onward s')
    · rw [hrun] at hcuts
      rw [heq]
      exact hcuts

theorem ite {p : Prop} [Decidable p] {x y : Recover α} (hx : Advances limit n x)
    (hy : Advances limit n y) : Advances limit n (if p then x else y) := by
  by_cases hp : p
  · rw [if_pos hp]
    exact hx
  · rw [if_neg hp]
    exact hy

theorem reading {x : Read α} (h : Takes TokenKind.isWord x) : Advances limit n (reading x) := by
  have hstate : ∀ s, leftBy (Grammar.reading x s) = { s with tokens := leftBy (x s.tokens) } := by
    intro s
    rw [Grammar.reading]
    cases x s.tokens <;> rfl
  refine ⟨fun s => ?_, fun s hs => ?_, fun s _ => ?_⟩
  · rw [hstate]
    exact .of_passes (h.passes s.tokens)
  · have hpass := h.passes s.tokens
    obtain ⟨front, hfront, -⟩ := h.passes s.tokens
    have hspelled : Token.Spelled front := fun t ht =>
      hs.spelled t (by rw [hfront]; exact List.mem_append_left _ ht)
    rw [Grammar.reading]
    cases hrun : x s.tokens with
    | ok a ts =>
        rw [hrun] at hpass
        exact hs.passes hpass
    | error stop ts =>
        rw [hrun] at hpass hfront
        have hstop := (h _ s.tokens rfl).2 front ts stop hfront hspelled hrun
        cases stop with
        | misread fault => exact ⟨hstop, hs.passes hpass⟩
        | unreadable text => exact hstop
        | exhausted => exact hstop.elim
  · rw [hstate]
    exact .of_eq rfl

theorem still {x : Recover α} (h : ∀ s, ∃ a, x s = .ok a s) : Advances limit n x := by
  have hstate : ∀ s, leftBy (x s) = s := fun s => by
    obtain ⟨a, ha⟩ := h s
    rw [ha]
    rfl
  refine ⟨fun s => ?_, fun s hs => ?_, fun s _ => ?_⟩
  · rw [hstate]
    exact .refl s
  · obtain ⟨a, ha⟩ := h s
    rw [ha]
    exact hs
  · rw [hstate]
    exact .of_eq rfl

end Advances

/-! ## Recovery -/

def pastFault (fault : Fault) (s : ReadState) : ReadState :=
  ⟨skipToBoundary s.tokens, s.recoveries + 1, s.findings.recordFault fault⟩

/-- How a step with recovery ends: as the step does, or past a fault, or beyond the limit. -/
theorem recovering_cases {α : Type} (limit : Nat) (x : Recover α) (s : ReadState) :
    (∃ a s', x s = .ok a s' ∧ recovering limit x s = .ok (some a) s') ∨
    (∃ fault s', x s = .error (.misread fault) s' ∧ s'.recoveries < limit ∧
      recovering limit x s = .ok none (pastFault fault s')) ∨
    (∃ fault s', x s = .error (.misread fault) s' ∧ limit ≤ s'.recoveries ∧
      recovering limit x s = .error .exhausted { s' with recoveries := s'.recoveries + 1 }) ∨
    (∃ stop s', x s = .error stop s' ∧ (∀ fault, stop ≠ .misread fault) ∧
      recovering limit x s = .error stop s') := by
  rw [recovering]
  cases hrun : x s with
  | ok a s' => exact Or.inl ⟨a, s', rfl, rfl⟩
  | error stop s' =>
      cases stop with
      | misread fault =>
          rcases Nat.lt_or_ge s'.recoveries limit with hlt | hge
          · refine Or.inr (Or.inl ⟨fault, s', rfl, hlt, ?_⟩)
            dsimp only
            rw [recover, if_neg (by omega)]
            rfl
          · refine Or.inr (Or.inr (Or.inl ⟨fault, s', rfl, hge, ?_⟩))
            dsimp only
            rw [recover, if_pos (by omega)]
      | unreadable text => exact Or.inr (Or.inr (Or.inr ⟨_, s', rfl, by simp, rfl⟩))
      | exhausted => exact Or.inr (Or.inr (Or.inr ⟨_, s', rfl, by simp, rfl⟩))

/-- What a step with recovery gives, the step gives. -/
theorem recovering_eq_some {α : Type} {limit : Nat} {x : Recover α} {a : α} {s s' : ReadState}
    (h : recovering limit x s = .ok (some a) s') : x s = .ok a s' := by
  rcases recovering_cases limit x s with ⟨b, s₁, hrun, heq⟩ | ⟨fault, s₁, -, -, heq⟩ |
    ⟨fault, s₁, -, -, heq⟩ | ⟨stop, s₁, -, -, heq⟩ <;> rw [heq] at h <;> cases h
  exact hrun

theorem onward_pastFault (fault : Fault) (s : ReadState) : Onward s (pastFault fault s) :=
  ⟨passes_skipToBoundary s.tokens, Nat.le_succ _, List.prefix_append _ _, rfl⟩

theorem isFault_recorded {fault : Fault} (h : fault.cause.IsSyntax) (stage : String) :
    Diagnostic.IsFault ⟨.error, fault.message, fault.location, stage⟩ :=
  ⟨rfl, fault.cause, h, rfl⟩

theorem cutOffs_pastFault {fault : Fault} (h : fault.cause.IsSyntax) (s : ReadState) :
    cutOffs (pastFault fault s) = cutOffs s := by
  have hnot := (isFault_recorded h s.findings.stage).not_isCutOff
  simp [cutOffs, pastFault, Findings.recordFault, Findings.record, hnot]

theorem Sound.pastFault {limit : Nat} {s : ReadState} (hs : Sound limit s) {fault : Fault}
    (h : fault.cause.IsSyntax) (hlt : s.recoveries < limit) : Sound limit (pastFault fault s) := by
  have hfault := isFault_recorded h s.findings.stage
  refine ⟨(passes_skipToBoundary s.tokens).spelled hs.spelled, fun d hd => ?_, ?_, hlt⟩
  · rcases List.mem_append.mp hd with hd | hd
    · exact hs.reported d hd
    · rw [List.mem_singleton.mp hd]
      exact Or.inr hfault
  · have hcounted := hs.counted
    simp [Grammar.pastFault, Findings.recordFault, Findings.record, hfault.not_isCutOff] at *
    exact hcounted

theorem onward_recovering {α : Type} (limit : Nat) {x : Recover α}
    (hx : ∀ s, Onward s (leftBy (x s))) (s : ReadState) :
    Onward s (leftBy (recovering limit x s)) := by
  have honward := hx s
  rcases recovering_cases limit x s with ⟨a, s', hrun, heq⟩ | ⟨fault, s', hrun, -, heq⟩ |
    ⟨fault, s', hrun, -, heq⟩ | ⟨stop, s', hrun, -, heq⟩ <;>
    rw [hrun] at honward <;> rw [heq]
  · exact honward
  · exact honward.trans (onward_pastFault fault s')
  · exact honward.trans ⟨.refl _, Nat.le_succ _, List.prefix_refl _, rfl⟩
  · exact honward

/-- A step with recovery that comes past no fault is the step itself. -/
theorem recovering_eq_ok {α : Type} {limit : Nat} {x : Recover α} {found : Option α}
    {s s' : ReadState} (hx : Onward s (leftBy (x s)))
    (h : recovering limit x s = .ok found s') (hcalm : s'.recoveries = s.recoveries) :
    ∃ a, found = some a ∧ x s = .ok a s' := by
  rcases recovering_cases limit x s with ⟨a, s₁, hrun, heq⟩ | ⟨fault, s₁, hrun, -, heq⟩ |
    ⟨fault, s₁, -, -, heq⟩ | ⟨stop, s₁, -, -, heq⟩ <;> rw [heq] at h <;> cases h
  · exact ⟨a, rfl, hrun⟩
  · rw [hrun] at hx
    have hpast : s₁.recoveries + 1 = s.recoveries := hcalm
    have hle : s.recoveries ≤ s₁.recoveries := hx.recoveries
    omega

theorem Advances.recovering {α : Type} {limit n : Nat} {x : Recover α}
    (h : Advances limit n x) : Advances limit n (recovering limit x) := by
  refine ⟨onward_recovering limit h.onward, fun s hs => ?_, fun s hs => ?_⟩
  · have hsound := h.sound s hs
    rcases recovering_cases limit x s with ⟨a, s', hrun, heq⟩ | ⟨fault, s', hrun, hlt, heq⟩ |
      ⟨fault, s', hrun, hge, heq⟩ | ⟨stop, s', hrun, hstop, heq⟩ <;>
      rw [hrun] at hsound <;> rw [heq]
    · exact hsound
    · exact hsound.2.pastFault hsound.1 hlt
    · obtain ⟨-, hs'⟩ := hsound
      have heq' := Nat.le_antisymm hs'.bounded hge
      exact ⟨hs'.reported, hs'.counted.trans heq', congrArg (· + 1) heq'⟩
    · cases stop with
      | misread fault => exact absurd rfl (hstop fault)
      | unreadable text => exact hsound
      | exhausted => exact hsound
  · have hcuts := h.cutsOff s hs
    have hsound := h.sound s hs
    have honward := h.onward s
    rcases recovering_cases limit x s with ⟨a, s', hrun, heq⟩ | ⟨fault, s', hrun, -, heq⟩ |
      ⟨fault, s', hrun, -, heq⟩ | ⟨stop, s', hrun, -, heq⟩ <;>
      rw [hrun] at hcuts hsound honward <;> rw [heq]
    · exact hcuts
    · exact hcuts.trans honward (.of_eq (cutOffs_pastFault hsound.1 s')) (onward_pastFault fault s')
    · exact ⟨⟨hcuts.le, hcuts.atEnd⟩, hcuts.still⟩
    · exact hcuts

/-! ## Blocks -/

section Blocks

variable {limit n : Nat} {statement : Recover (Option Node)}

theorem advances_statements (h : Advances limit n statement) (fuel : Nat) :
    Advances limit n (statements statement fuel) := by
  induction fuel with
  | zero => exact .pure _
  | succ fuel ih =>
      exact (Advances.reading (.still fun _ => ⟨_, rfl⟩)).bind fun _ => .ite (.pure _)
        (h.bind fun _ => ih.bind fun _ => .pure _)

/-- The end of a block: its closing brace, or the end of the input. -/
def closeBlock (location : Location) (body : List Node) : Recover Node := do
  let t ← reading peek
  if t.kind == .endOfInput then
    note "expected '\x7d' before end of input" t.location
  else
    let _ ← reading advance
  return .block location body

theorem block_open {t : Token} (ht : t.kind = .leftBrace) (ts : List Token) (r : Nat)
    (f : Findings) :
    block statement ⟨t :: ts, r, f⟩ =
      (statements statement ts.length >>= closeBlock t.location) ⟨ts, r, f⟩ := by
  rw [block, bind_ok (reading_ok (peek_cons t ts)),
    bind_ok (reading_ok (expect_of_kind ht (by decide) _)), bind_ok (reading_ok (remaining_apply _))]
  rfl

/-- A block begins with its brace, or asking for that fails. -/
theorem block_cases (statement : Recover (Option Node)) (s : ReadState) :
    (∃ stop s', reading (expect .leftBrace "'\x7b'") s = .error stop s' ∧
      block statement s = .error stop s') ∨
    (∃ t ts, s.tokens = t :: ts ∧ t.kind = .leftBrace ∧ block statement s =
      (statements statement ts.length >>= closeBlock t.location) { s with tokens := ts }) := by
  have hpeek : peek s.tokens = .ok (s.tokens.headD default) s.tokens := rfl
  cases hrun : expect .leftBrace "'\x7b'" s.tokens with
  | ok t ts =>
      obtain ⟨hts, ht⟩ := expect_eq_ok (by decide) hrun
      obtain ⟨tokens, r, f⟩ := s
      obtain rfl : tokens = t :: ts := hts
      exact Or.inr ⟨t, ts, rfl, ht, block_open ht ts r f⟩
  | error stop ts =>
      refine Or.inl ⟨stop, _, reading_error hrun, ?_⟩
      rw [block, bind_ok (reading_ok hpeek), bind_error (reading_error hrun)]

theorem closeBlock_cons {t : Token} (h : t.kind ≠ .endOfInput) (ts : List Token) (r : Nat)
    (f : Findings) (location : Location) (body : List Node) :
    closeBlock location body ⟨t :: ts, r, f⟩ = .ok (.block location body) ⟨ts, r, f⟩ := by
  rw [closeBlock, bind_ok (reading_ok (peek_cons t ts)), if_neg (by simpa using h),
    bind_ok (reading_ok (advance_cons h))]
  rfl

/-- The state after a block that the end of the input cuts off. -/
def cutShort (place : Location) (s : ReadState) : ReadState :=
  { s with
    findings := s.findings.record .error "expected '\x7d' before end of input" (some place) }

theorem closeBlock_atEnd {s : ReadState} (h : AtEnd s) (location : Location) (body : List Node) :
    ∃ place, closeBlock location body s = .ok (.block location body) (cutShort place s) := by
  have hpeek : peek s.tokens = .ok (s.tokens.headD default) s.tokens := rfl
  have hkind : (s.tokens.headD default).kind = .endOfInput := by
    rw [← h]
    cases s.tokens <;> rfl
  refine ⟨(s.tokens.headD default).location, ?_⟩
  rw [closeBlock, bind_ok (reading_ok hpeek), if_pos (by rw [hkind]; rfl)]
  rfl

theorem onward_cutShort (place : Location) (s : ReadState) : Onward s (cutShort place s) :=
  ⟨.refl _, Nat.le_refl _, List.prefix_append _ _, rfl⟩

theorem cutOffs_cutShort (place : Location) (s : ReadState) :
    cutOffs (cutShort place s) = cutOffs s + 1 := by
  simp [cutOffs, cutShort, Findings.record, Diagnostic.isCutOff, Diagnostic.isError]

theorem Sound.cutShort {s : ReadState} (hs : Sound limit s) (place : Location) :
    Sound limit (cutShort place s) := by
  refine ⟨hs.spelled, fun d hd => ?_, ?_, hs.bounded⟩
  · rcases List.mem_append.mp hd with hd | hd
    · exact hs.reported d hd
    · rw [List.mem_singleton.mp hd]
      exact Or.inl (by simp [Diagnostic.isCutOff, Diagnostic.isError])
  · have hcounted := hs.counted
    simp [Grammar.cutShort, Findings.record, Diagnostic.isCutOff, Diagnostic.isError] at *
    exact hcounted

/-- What the end of a block does: at most one block is cut off, and only at the end. -/
theorem closeBlock_advances (limit : Nat) (location : Location) (body : List Node) (s : ReadState) :
    Onward s (leftBy (closeBlock location body s)) ∧
    (Sound limit s → EndsSound limit (closeBlock location body s)) ∧
    CutsAtEnd 1 s (leftBy (closeBlock location body s)) := by
  by_cases hend : AtEnd s
  · obtain ⟨place, heq⟩ := closeBlock_atEnd hend location body
    rw [heq]
    exact ⟨onward_cutShort place s, fun hs => hs.cutShort place,
      Nat.le_of_eq (cutOffs_cutShort place s), fun _ => hend⟩
  · obtain ⟨ts, r, f⟩ := s
    obtain ⟨t, ts, rfl⟩ := exists_cons_of_kindAt hend
    have hkind : t.kind ≠ .endOfInput := hend
    have hpass : Passes TokenKind.isWord (t :: ts) ts :=
      .cons (by simpa [TokenKind.isWord] using hkind)
    rw [closeBlock_cons hkind ts r f location body]
    exact ⟨.of_passes hpass, fun hs => hs.passes hpass, Nat.le_succ _, fun hne => absurd rfl hne⟩

/-- What statements do, and the end of their block after them. -/
theorem body_advances (h : Advances limit n statement) (fuel : Nat) (location : Location)
    (s : ReadState) :
    Onward s (leftBy ((statements statement fuel >>= closeBlock location) s)) ∧
    (Sound limit s →
      EndsSound limit ((statements statement fuel >>= closeBlock location) s) ∧
      CutsAtEnd (n + 1) s (leftBy ((statements statement fuel >>= closeBlock location) s))) := by
  have hstatements := advances_statements h fuel
  have honward := hstatements.onward s
  rcases bind_cases (statements statement fuel) (closeBlock location) s with
    ⟨body, s', hrun, heq⟩ | ⟨stop, s', hrun, heq⟩ <;> rw [hrun] at honward <;> rw [heq]
  · obtain ⟨honward', hsound', hcuts'⟩ := closeBlock_advances limit location body s'
    refine ⟨honward.trans honward', fun hs => ?_⟩
    have hsound := hstatements.sound s hs
    have hcuts := hstatements.cutsOff s hs
    rw [hrun] at hsound hcuts
    exact ⟨hsound' hsound, hcuts.add hcuts' honward'⟩
  · refine ⟨honward, fun hs => ?_⟩
    have hsound := hstatements.sound s hs
    have hcuts := hstatements.cutsOff s hs
    rw [hrun] at hsound hcuts
    exact ⟨by cases stop <;> exact hsound, (hcuts.mono (Nat.le_succ n)).toCutsAtEnd⟩

theorem advances_block (h : Advances limit n statement) :
    Advances limit (n + 1) (block statement) := by
  have hexpect : Advances limit (n + 1) (reading (expect .leftBrace "'\x7b'")) :=
    .reading (Tidy.expect rfl (by decide)).takes
  have passes_brace : ∀ {t : Token} {ts us : List Token}, us = t :: ts → t.kind = .leftBrace →
      Passes TokenKind.isWord us ts := by
    rintro t ts us rfl ht
    exact .cons (by rw [ht]; rfl)
  refine ⟨fun s => ?_, fun s hs => ?_, fun s hs => ?_⟩
  all_goals
    rcases block_cases statement s with ⟨stop, s', hrun, heq⟩ | ⟨t, ts, hts, ht, heq⟩
  · have honward := hexpect.onward s
    rw [hrun] at honward
    rw [heq]
    exact honward
  · rw [heq]
    exact (Onward.of_passes (passes_brace hts ht)).trans (body_advances h ts.length t.location _).1
  · have hsound := hexpect.sound s hs
    rw [hrun] at hsound
    rw [heq]
    cases stop <;> exact hsound
  · rw [heq]
    exact ((body_advances h ts.length t.location _).2 (hs.passes (passes_brace hts ht))).1
  · have hcuts := hexpect.cutsOff s hs
    rw [hrun] at hcuts
    rw [heq]
    exact hcuts
  · have hcuts :=
      ((body_advances h ts.length t.location _).2 (hs.passes (passes_brace hts ht))).2
    rw [heq]
    refine ⟨⟨hcuts.le, hcuts.atEnd⟩, fun hend => ?_⟩
    rw [AtEnd, hts, kindAt_cons, ht] at hend
    cases hend

end Blocks

/-! ## Statements -/

section Statements

variable {limit n : Nat} {parts : Parts}

theorem advances_substatement (h : Advances limit n parts.statement) :
    Advances limit n (substatement parts) :=
  h.bind fun _ => .pure _

theorem advances_alternative (h : Advances limit n parts.statement) :
    Advances limit n (alternative parts) := by
  refine (Advances.reading (Tidy.acceptKind rfl).takes).bind fun found => ?_
  cases found with
  | none => exact .pure _
  | some _ => exact advances_substatement h

theorem advances_branch (hexpression : TidyPhrase parts.expression)
    (h : Advances limit n parts.statement) : Advances limit n (branch parts) :=
  (Advances.reading Tidy.advance.takes).bind fun _ =>
    (Advances.reading (closed_condition hexpression (by decide) (by decide)).takes).bind fun _ =>
      (advances_substatement h).bind fun _ => (advances_alternative h).bind fun _ => .pure _

theorem advances_forLoop (hexpression : TidyPhrase parts.expression)
    (h : Advances limit n parts.statement) : Advances limit n (forLoop parts) :=
  (Advances.reading Tidy.advance.takes).bind fun _ =>
    (Advances.reading (closed_loopHeader hexpression).takes).bind fun _ =>
      (advances_substatement h).bind fun _ => .pure _

theorem advances_whileLoop (hexpression : TidyPhrase parts.expression)
    (h : Advances limit n parts.statement) : Advances limit n (whileLoop parts) :=
  (Advances.reading Tidy.advance.takes).bind fun _ =>
    (Advances.reading (closed_condition hexpression (by decide) (by decide)).takes).bind fun _ =>
      (advances_substatement h).bind fun _ => .pure _

theorem advances_statementOf (hexpression : TidyPhrase parts.expression)
    (h : Advances limit n parts.statement) : Advances limit (n + 1) (statementOf parts) := by
  refine (Advances.reading (.still fun _ => ⟨_, rfl⟩)).bind fun kind => ?_
  split
  · exact (advances_branch hexpression h).mono (Nat.le_succ n)
  · exact (advances_forLoop hexpression h).mono (Nat.le_succ n)
  · exact (advances_whileLoop hexpression h).mono (Nat.le_succ n)
  · exact .reading (closed_exit hexpression).takes
  · exact advances_block h
  · exact .ite (.reading (closed_declaration hexpression).takes)
      (.reading (closed_effect hexpression).takes)

/-- In a statement at most as many blocks are cut off as there are levels of nesting. -/
theorem advances_statement (limit levelsLeft depth : Nat) :
    Advances limit levelsLeft (statement limit levelsLeft depth) := by
  have hdeep : ∀ {n limit' : Nat}, Advances limit n (reading (tooDeep limit') : Recover Node) :=
    .reading (Tidy.tooDeep _).takes
  induction levelsLeft generalizing depth with
  | zero => exact hdeep.recovering
  | succ n ih =>
      exact Advances.recovering (.ite hdeep (advances_statementOf (tidy_expression n (depth + 1))
        (ih (depth + 1))))

theorem advances_function (limit : Nat) : Advances limit (maxNesting + 1) (function limit) :=
  (Advances.reading (.still fun _ => ⟨_, rfl⟩)).bind fun _ =>
    (Advances.reading (Tidy.typeSpecifier.takes.mono fun _ =>
      TokenKind.isWord_of_beginsType)).bind fun _ =>
    (Advances.reading (Tidy.expect rfl (by decide)).takes).bind fun _ =>
    (Advances.reading takes_parameterList).bind fun _ =>
    (advances_block (advances_statement limit maxNesting 0)).bind fun _ => .pure _

theorem advances_topLevel (limit : Nat) : Advances limit (maxNesting + 1) (topLevel limit) := by
  have hskip : Advances limit (maxNesting + 1)
      (modify fun s => { s with tokens := skipSemicolons s.tokens } : Recover Unit) :=
    ⟨fun s => .of_passes (passes_skipSemicolons s.tokens),
      fun s hs => hs.passes (passes_skipSemicolons s.tokens), fun _ _ => .of_eq rfl⟩
  have hget : Advances limit (maxNesting + 1) (get : Recover ReadState) :=
    .still fun s => ⟨s, rfl⟩
  refine hskip.bind fun _ => hget.bind fun _ => .ite (.pure _) (.ite (.ite ?_ ?_) ?_)
  · exact (advances_function limit).bind fun _ => .pure _
  · exact (Advances.reading (closed_declaration (tidy_expression _ _)).takes).bind fun _ => .pure _
  · exact (Advances.reading Tidy.advance.takes).bind fun _ => .pure _

end Statements

end Grammar

end InoBlocks
