import InoBlocks.Proofs.Sketch.Proper
import InoBlocks.Proofs.Sketch.TidyClause

/-!
# What readers yield

`Yields I x P` says that a step keeps an invariant of its state whether it succeeds or not, and
that what it returns has a property.  The invariant of readers that take tokens from the front of a
list is that the tokens left are an end of it.
-/

namespace InoBlocks

/-- A step keeps an invariant, and what it returns has a property. -/
def Yields {σ α : Type} (I : σ → Prop) (x : EStateM Stop σ α) (P : α → Prop) : Prop :=
  ∀ s, I s → match x s with
    | .ok a s' => P a ∧ I s'
    | .error _ s' => I s'

namespace Yields

variable {σ α β : Type} {I : σ → Prop} {P : α → Prop} {Q : β → Prop}

theorem pure {a : α} (h : P a) : Yields I (Pure.pure a) P :=
  fun _ hs => ⟨h, hs⟩

theorem bind {x : EStateM Stop σ α} {f : α → EStateM Stop σ β} (hx : Yields I x P)
    (hf : ∀ a, P a → Yields I (f a) Q) : Yields I (x >>= f) Q := by
  intro s hs
  have hfirst := hx s hs
  cases hrun : x s with
  | ok a s' =>
      rw [hrun] at hfirst
      rw [Read.bind_ok hrun]
      exact hf a hfirst.1 s' hfirst.2
  | error stop s' =>
      rw [hrun] at hfirst
      rw [Read.bind_error hrun]
      exact hfirst

theorem mono {x : EStateM Stop σ α} {P' : α → Prop} (h : Yields I x P) (hle : ∀ a, P a → P' a) :
    Yields I x P' := by
  intro s hs
  have hrun := h s hs
  cases hx : x s with
  | ok a s' =>
      rw [hx] at hrun
      exact ⟨hle a hrun.1, hrun.2⟩
  | error stop s' =>
      rw [hx] at hrun
      exact hrun

theorem ite {p : Prop} [Decidable p] {x y : EStateM Stop σ α} (hx : Yields I x P)
    (hy : Yields I y P) : Yields I (if p then x else y) P := by
  by_cases hp : p
  · rw [if_pos hp]
    exact hx
  · rw [if_neg hp]
    exact hy

theorem still {x : EStateM Stop σ α} (h : ∀ s, ∃ a, x s = .ok a s) :
    Yields I x fun _ => True := by
  intro s hs
  obtain ⟨a, ha⟩ := h s
  rw [ha]
  exact ⟨trivial, hs⟩

end Yields

/-- A reader leaves the end of a list of tokens where it found one. -/
theorem Takes.yields {α : Type} {allowed : TokenKind → Bool} {x : Read α} (h : Takes allowed x)
    (ts : List Token) : Yields (· <:+ ts) x fun _ => True := by
  intro us hus
  have hpass := h.passes us
  cases hx : x us with
  | ok a vs =>
      rw [hx] at hpass
      exact ⟨trivial, hpass.suffix.trans hus⟩
  | error stop vs =>
      rw [hx] at hpass
      exact hpass.suffix.trans hus

/-- Asking for a token leaves the end of a list, whatever the token is called in the message, and
the token is one of the list. -/
theorem yields_expect {kind : TokenKind} (hkind : kind ≠ .endOfInput) (what : String)
    (ts : List Token) :
    Yields (· <:+ ts) (Read.expect kind what) fun t => t ∈ ts ∧ t.kind = kind := by
  intro us hus
  cases hx : Read.expect kind what us with
  | ok t vs =>
      obtain ⟨rfl, ht⟩ := Read.expect_eq_ok hkind hx
      exact ⟨⟨hus.subset List.mem_cons_self, ht⟩, (List.suffix_cons t vs).trans hus⟩
  | error stop vs =>
      rw [Read.expect, Read.bind_ok (Read.peekKind_apply 0 us)] at hx
      by_cases hat : (Read.kindAt 0 us == kind) = true
      · rw [if_pos hat] at hx
        have hadvance := Tidy.advance.takes.yields ts us hus
        rw [hx] at hadvance
        exact hadvance
      · rw [if_neg hat] at hx
        cases hx
        exact hus

end InoBlocks
