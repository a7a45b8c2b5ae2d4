import InoBlocks.Sketch.Grammar

/-!
# Steps of reading

What the small steps over tokens do at the front of a list, and how a step and what comes after
it go together.  The token in front is never the end mark where something is consumed.
-/

namespace InoBlocks

namespace Read

section Bind

variable {σ α β : Type} {x : EStateM Stop σ α} {f : α → EStateM Stop σ β} {s s' : σ}

theorem bind_ok {a : α} (h : x s = .ok a s') : (x >>= f) s = f a s' := by
  change EStateM.bind x f s = _
  rw [EStateM.bind, h]

theorem bind_error {stop : Stop} (h : x s = .error stop s') : (x >>= f) s = .error stop s' := by
  change EStateM.bind x f s = _
  rw [EStateM.bind, h]

/-- What two steps in a row give was given by each of them. -/
theorem bind_eq_ok {b : β} (h : (x >>= f) s = .ok b s') :
    ∃ a s₁, x s = .ok a s₁ ∧ f a s₁ = .ok b s' := by
  change EStateM.bind x f s = _ at h
  rw [EStateM.bind] at h
  cases hx : x s with
  | ok a s₁ =>
      rw [hx] at h
      exact ⟨a, s₁, rfl, h⟩
  | error stop s₁ =>
      rw [hx] at h
      cases h

end Bind

variable {α : Type} {kind : TokenKind} {wanted : TokenKind → Bool} {t : Token} {ts : List Token}

@[simp] theorem kindAt_cons (t : Token) (ts : List Token) : kindAt 0 (t :: ts) = t.kind := rfl

@[simp] theorem kindAt_nil : kindAt 0 [] = .endOfInput := rfl

theorem exists_cons_of_kindAt (h : kindAt 0 ts ≠ .endOfInput) : ∃ t us, ts = t :: us := by
  cases ts with
  | nil => exact absurd rfl h
  | cons t us => exact ⟨t, us, rfl⟩

theorem peek_cons (t : Token) (ts : List Token) : peek (t :: ts) = .ok t (t :: ts) := rfl

theorem peekKind_apply (ahead : Nat) (ts : List Token) :
    peekKind ahead ts = .ok (kindAt ahead ts) ts := rfl

theorem remaining_apply (ts : List Token) : remaining ts = .ok ts.length ts := rfl

theorem advance_cons (h : t.kind ≠ .endOfInput) : advance (t :: ts) = .ok t ts := by
  rw [advance, if_neg h]

theorem accept_of_kind (h : wanted t.kind = true) (hend : t.kind ≠ .endOfInput) :
    accept wanted (t :: ts) = .ok (some t) ts := by
  rw [accept, bind_ok (peekKind_apply 0 _), kindAt_cons, if_pos h, bind_ok (advance_cons hend)]
  rfl

theorem accept_none (h : wanted (kindAt 0 ts) = false) : accept wanted ts = .ok none ts := by
  rw [accept, bind_ok (peekKind_apply 0 _), if_neg (by simp [h])]
  rfl

theorem acceptKind_of_kind (h : t.kind = kind) (hend : kind ≠ .endOfInput) :
    acceptKind kind (t :: ts) = .ok (some t) ts :=
  accept_of_kind (by simp [h]) (h ▸ hend)

theorem acceptKind_none (h : kindAt 0 ts ≠ kind) : acceptKind kind ts = .ok none ts :=
  accept_none (by simpa using h)

theorem expect_of_kind (h : t.kind = kind) (hend : kind ≠ .endOfInput) (what : String) :
    expect kind what (t :: ts) = .ok t ts := by
  rw [expect, bind_ok (peekKind_apply 0 _), kindAt_cons, if_pos (by simp [h]),
    advance_cons (h ▸ hend)]

/-! ## What a step that succeeds has consumed -/

theorem accept_eq_ok {found : Option Token} {us : List Token}
    (h : accept wanted ts = .ok found us) :
    (found = none ∧ us = ts ∧ wanted (kindAt 0 ts) = false) ∨
    (∃ t, found = some t ∧ ts = t :: us ∧ wanted t.kind = true ∧ t.kind ≠ .endOfInput) ∨
    wanted .endOfInput = true := by
  cases hw : wanted (kindAt 0 ts) with
  | false =>
      rw [accept_none hw] at h
      cases h
      exact Or.inl ⟨rfl, rfl, rfl⟩
  | true =>
      cases ts with
      | nil => exact Or.inr (Or.inr hw)
      | cons t ts =>
          by_cases hend : t.kind = .endOfInput
          · rw [kindAt_cons, hend] at hw
            exact Or.inr (Or.inr hw)
          · rw [accept_of_kind hw hend] at h
            cases h
            exact Or.inr (Or.inl ⟨t, rfl, rfl, hw, hend⟩)

theorem expect_eq_ok {what : String} {us : List Token} (hend : kind ≠ .endOfInput)
    (h : expect kind what ts = .ok t us) : ts = t :: us ∧ t.kind = kind := by
  rw [expect, bind_ok (peekKind_apply 0 _)] at h
  by_cases hk : kindAt 0 ts = kind
  · cases ts with
    | nil => exact absurd hk.symm hend
    | cons u ts =>
        rw [if_pos (by simpa using hk), advance_cons (by rw [← kindAt_cons u ts, hk]; exact hend)]
          at h
        cases h
        exact ⟨rfl, hk⟩
  · rw [if_neg (by simpa using hk)] at h
    cases h

end Read

end InoBlocks
