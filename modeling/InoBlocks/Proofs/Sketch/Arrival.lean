import InoBlocks.Proofs.Sketch.Yields
import InoBlocks.Proofs.Sketch.StatementSteps

/-!
# Arriving or hitting a limit

A step of reading either arrives: it returns what it should and leaves the tokens behind it, with
nothing recovered from; or it hits a limit of nesting.  A finding about such a limit is never
taken back, so once it is there it does not matter what else is read.
-/

namespace InoBlocks

namespace Grammar

open Read ExprGrammar

/-! ## Steps over tokens -/

/-- A step over tokens arrives in front of `rest`, or stops for a limit of nesting. -/
def Gets {α : Type} (P : α → Prop) (rest : List Token) :
    EStateM.Result Stop (List Token) α → Prop
  | .ok a ts => P a ∧ ts = rest
  | .error stop _ => ∃ fault : Fault, stop = .misread fault ∧ fault.IsNesting

namespace Gets

variable {α β : Type} {P : α → Prop} {Q : β → Prop} {mid rest ts : List Token}

theorem of_ok {x : Read α} {a : α} (h : x ts = .ok a rest) (ha : P a) : Gets P rest (x ts) := by
  rw [h]
  exact ⟨ha, rfl⟩

theorem of_reads {x : Read Expr} {us : List Token} {e : Expr} (h : Reads x us rest e) :
    Gets (fun e' => e'.forget = e.forget) rest (x (us ++ rest)) := by
  rcases h with ⟨fault, vs, hfault, -, h⟩ | ⟨e', he', h⟩
  · rw [h]
    exact ⟨fault, rfl, hfault⟩
  · rw [h]
    exact ⟨he', rfl⟩

theorem bind {x : Read α} {f : α → Read β} (h : Gets P mid (x ts))
    (h' : ∀ a, P a → Gets Q rest (f a mid)) : Gets Q rest ((x >>= f) ts) := by
  cases hx : x ts with
  | ok a us =>
      rw [hx] at h
      obtain ⟨ha, rfl⟩ := h
      rw [bind_ok hx]
      exact h' a ha
  | error stop us =>
      rw [hx] at h
      rw [bind_error hx]
      exact h

end Gets

/-! ## Steps that recover -/

def Heard (s : ReadState) : Prop :=
  ∃ d ∈ s.findings.diagnostics, d.IsNesting

abbrev Hears {α : Type} (x : Recover α) : Prop :=
  Yields Heard x fun _ => True

theorem heard_record {s : ReadState} (h : Heard s) (ts : List Token) (recoveries : Nat)
    (severity : Severity) (message : String) (l : Option Location) :
    Heard ⟨ts, recoveries, s.findings.record severity message l⟩ := by
  obtain ⟨d, hd, hnesting⟩ := h
  exact ⟨d, List.mem_append_left _ hd, hnesting⟩

theorem heard_recordFault {fault : Fault} (h : fault.IsNesting) (ts : List Token)
    (recoveries : Nat) (findings : Findings) :
    Heard ⟨ts, recoveries, findings.recordFault fault⟩ := by
  obtain ⟨limit, hcause⟩ := h
  refine ⟨_, List.mem_append_right _ (List.mem_singleton_self _), rfl, limit, ?_⟩
  rw [Fault.message, hcause]

namespace Hears

variable {α : Type}

theorem reading (x : Read α) : Hears (reading x) := by
  intro s hs
  rw [Grammar.reading]
  cases x s.tokens with
  | ok a ts => exact ⟨trivial, hs⟩
  | error stop ts => exact hs

theorem recovering (limit : Nat) {x : Recover α} (h : Hears x) : Hears (recovering limit x) := by
  intro s hs
  have hrun := h s hs
  rw [Grammar.recovering]
  cases hx : x s with
  | ok a s' =>
      rw [hx] at hrun
      exact ⟨trivial, hrun.2⟩
  | error stop s' =>
      rw [hx] at hrun
      cases stop with
      | misread fault =>
          dsimp only
          rw [recover]
          by_cases hlimit : limit < s'.recoveries + 1
          · rw [if_pos hlimit]
            exact hrun
          · rw [if_neg hlimit]
            exact ⟨trivial, heard_record hrun _ _ _ _ _⟩
      | unreadable text => exact hrun
      | exhausted => exact hrun

theorem bind {β : Type} {x : Recover α} {f : α → Recover β} (hx : Hears x)
    (hf : ∀ a, Hears (f a)) : Hears (x >>= f) :=
  Yields.bind hx fun a _ => hf a

theorem pure (a : α) : Hears (Pure.pure a) :=
  Yields.pure trivial

theorem note (message : String) (l : Location) : Hears (note message l) :=
  fun _ hs => ⟨trivial, heard_record hs _ _ _ _ _⟩

theorem statements {statement : Recover (Option Node)} (h : Hears statement) (fuel : Nat) :
    Hears (statements statement fuel) := by
  induction fuel with
  | zero => exact .pure _
  | succ fuel ih =>
      refine (reading _).bind fun _ => .ite (Hears.pure _) ?_
      exact h.bind fun _ => ih.bind fun _ => .pure _

theorem block {statement : Recover (Option Node)} (h : Hears statement) :
    Hears (block statement) := by
  refine (reading _).bind fun _ => (reading _).bind fun _ => (reading _).bind fun _ => ?_
  refine (h.statements _).bind fun _ => (reading _).bind fun _ => .ite ?_ ?_
  · exact (note _ _).bind fun _ => .pure _
  · exact (reading _).bind fun _ => .pure _

section Parts

variable {parts : Parts} (h : Hears parts.statement)

include h

theorem substatement : Hears (substatement parts) :=
  h.bind fun _ => .pure _

theorem alternative : Hears (alternative parts) := by
  refine (reading _).bind fun found => ?_
  cases found with
  | none => exact .pure _
  | some _ => exact substatement h

theorem branch : Hears (branch parts) :=
  (reading _).bind fun _ => (reading _).bind fun _ => (substatement h).bind fun _ =>
    (alternative h).bind fun _ => .pure _

theorem forLoop : Hears (forLoop parts) :=
  (reading _).bind fun _ => (reading _).bind fun _ => (substatement h).bind fun _ => .pure _

theorem whileLoop : Hears (whileLoop parts) :=
  (reading _).bind fun _ => (reading _).bind fun _ => (substatement h).bind fun _ => .pure _

theorem statementOf : Hears (statementOf parts) := by
  refine (reading _).bind fun kind => ?_
  split
  · exact branch h
  · exact forLoop h
  · exact whileLoop h
  · exact reading _
  · exact block h
  · exact .ite (reading _) (reading _)

end Parts

theorem statement (limit levelsLeft depth : Nat) : Hears (statement limit levelsLeft depth) := by
  induction levelsLeft generalizing depth with
  | zero => exact recovering limit (reading _)
  | succ n ih => exact recovering limit (.ite (reading _) (statementOf (ih _)))

theorem topLevel (limit : Nat) : Hears (topLevel limit) := by
  have hfunction : Hears (function limit) :=
    (reading _).bind fun _ => (reading _).bind fun _ => (reading _).bind fun _ =>
      (reading _).bind fun _ => (block (statement limit _ _)).bind fun _ => .pure _
  have hskip : Hears (modify fun s => { s with tokens := skipSemicolons s.tokens }) :=
    fun s hs => ⟨trivial, hs⟩
  have hget : Hears (get : Recover ReadState) := fun s hs => ⟨trivial, hs⟩
  refine hskip.bind fun _ => hget.bind fun s => ?_
  dsimp only
  refine .ite (Hears.pure _) (.ite (.ite ?_ ?_) ?_)
  · exact hfunction.bind fun _ => .pure _
  · exact (reading _).bind fun _ => .pure _
  · exact (reading _).bind fun _ => .pure _

theorem declarations (limit fuel : Nat) (s : ReadState) (hs : Heard s) :
    Heard (declarations limit fuel s).2.1 := by
  induction fuel generalizing s with
  | zero => exact hs
  | succ fuel ih =>
      rw [Grammar.declarations]
      split
      · exact hs
      · have hrun := recovering limit (topLevel limit) s hs
        split
        · rename_i h
          rw [h] at hrun
          exact ih _ hrun.2
        · rename_i h
          rw [h] at hrun
          exact hrun

end Hears

/-- A step arrives in front of `rest` with nothing recovered from and nothing reported, or a limit
of nesting was hit: it was reported before, or is what the step stops for. -/
def Arrives {α : Type} (P : α → Prop) (rest : List Token) (findings : Findings) :
    EStateM.Result Stop ReadState α → Prop
  | .ok a s => (P a ∧ s = ⟨rest, 0, findings⟩) ∨ Heard s
  | .error stop s =>
      Heard s ∨ (s.recoveries = 0 ∧ ∃ fault : Fault, stop = .misread fault ∧ fault.IsNesting)

namespace Arrives

variable {α β : Type} {P : α → Prop} {Q : β → Prop} {mid rest ts : List Token}
  {findings : Findings}

theorem of_ok {x : Recover α} {s : ReadState} {a : α} (h : x s = .ok a ⟨rest, 0, findings⟩)
    (ha : P a) : Arrives P rest findings (x s) := by
  rw [h]
  exact Or.inl ⟨ha, rfl⟩

theorem reading {x : Read α} (h : Gets P rest (x ts)) :
    Arrives P rest findings (reading x ⟨ts, 0, findings⟩) := by
  rw [Grammar.reading]
  cases hx : x ts with
  | ok a us =>
      rw [hx] at h
      obtain ⟨ha, rfl⟩ := h
      exact Or.inl ⟨ha, rfl⟩
  | error stop us =>
      rw [hx] at h
      exact Or.inr ⟨rfl, h⟩

theorem bind {x : Recover α} {f : α → Recover β} {s : ReadState}
    (h : Arrives P mid findings (x s)) (hf : ∀ a, Hears (f a))
    (h' : ∀ a, P a → Arrives Q rest findings (f a ⟨mid, 0, findings⟩)) :
    Arrives Q rest findings ((x >>= f) s) := by
  cases hx : x s with
  | error stop s' =>
      rw [hx] at h
      rw [bind_error hx]
      exact h
  | ok a s' =>
      rw [hx] at h
      rw [bind_ok hx]
      rcases h with ⟨ha, rfl⟩ | hheard
      · exact h' a ha
      · have hrun := hf a s' hheard
        cases hf' : f a s' with
        | ok b s'' =>
            rw [hf'] at hrun
            exact Or.inr hrun.2
        | error stop s'' =>
            rw [hf'] at hrun
            exact Or.inl hrun

/-- A limit of nesting is reported where it is recovered from. -/
theorem recovering {limit : Nat} (hlimit : 1 ≤ limit) {x : Recover α} {s : ReadState}
    (h : Arrives P rest findings (x s)) :
    Arrives (fun found => ∃ a, found = some a ∧ P a) rest findings (recovering limit x s) := by
  rw [Grammar.recovering]
  cases hx : x s with
  | ok a s' =>
      rw [hx] at h
      exact h.imp (fun h => ⟨⟨a, rfl, h.1⟩, h.2⟩) id
  | error stop s' =>
      rw [hx] at h
      cases stop with
      | unreadable text =>
          rcases h with h | ⟨-, fault, hstop, -⟩
          · exact Or.inl h
          · cases hstop
      | exhausted =>
          rcases h with h | ⟨-, fault, hstop, -⟩
          · exact Or.inl h
          · cases hstop
      | misread fault =>
          dsimp only
          rw [recover]
          by_cases hover : limit < s'.recoveries + 1
          · rw [if_pos hover]
            rcases h with h | ⟨hfirst, -⟩
            · exact Or.inl h
            · omega
          · rw [if_neg hover]
            refine Or.inr ?_
            rcases h with h | ⟨-, fault', hstop, hnesting⟩
            · exact heard_record h _ _ _ _ _
            · cases hstop
              exact heard_recordFault hnesting _ _ _

end Arrives

end Grammar

end InoBlocks
