import InoBlocks.Proofs.Sketch.Phrase
import InoBlocks.Proofs.Token.Firm
import InoBlocks.Sketch.Source

/-!
# The strength of a phrase, seen from its words

How tightly the expression of a phrase binds shows in its words: an operator that binds looser than
a leading one stands in no parentheses, or else these stand around all of it.
-/

namespace InoBlocks

namespace TokenKind

/-- Whether a token is spelled in its own way, or is a point. -/
def isPlain (kind : TokenKind) : Bool :=
  kind.symbol?.isNone || kind == dot

theorem isPlain_of_isLeading {kind : TokenKind} (h : ExprGrammar.isLeading kind = true) :
    kind.isPlain = false := by
  cases kind <;> first | rfl | exact absurd h (by decide)

theorem isPlain_of_isTrailing {kind : TokenKind} (h : ExprGrammar.isTrailing kind = true) :
    kind.isPlain = false := by
  cases kind <;> first | rfl | exact absurd h (by decide)

theorem isPlain_of_joins {kind : TokenKind} (hlow : 1 ≤ kind.joins) (hhigh : kind.joins ≤ 7) :
    kind.isPlain = false := by
  cases kind <;> first | rfl | exact absurd hlow (by decide) | exact absurd hhigh (by decide)

end TokenKind

namespace Word

/-! ## Parentheses -/

/-- How much deeper in parentheses one is behind a word. -/
def turn (w : Word) : Int :=
  if w.kind = .leftParen then 1 else if w.kind = .rightParen then -1 else 0

/-- How much deeper in parentheses one is behind some words. -/
def balance : List Word → Int
  | [] => 0
  | w :: ws => w.turn + balance ws

theorem balance_nil : balance [] = 0 := rfl

theorem balance_cons (w : Word) (ws : List Word) : balance (w :: ws) = w.turn + balance ws := rfl

theorem balance_append (us vs : List Word) : balance (us ++ vs) = balance us + balance vs := by
  induction us with
  | nil => rw [List.nil_append, balance_nil, Int.zero_add]
  | cons u us ih => rw [List.cons_append, balance_cons, balance_cons, ih, Int.add_assoc]

theorem turn_of_ne {w : Word} (hleft : w.kind ≠ .leftParen) (hright : w.kind ≠ .rightParen) :
    w.turn = 0 := by
  rw [turn, if_neg hleft, if_neg hright]

theorem turn_leftParen {w : Word} (h : w.kind = .leftParen) : w.turn = 1 :=
  if_pos h

theorem turn_rightParen {w : Word} (h : w.kind = .rightParen) : w.turn = -1 := by
  rw [turn, if_neg (by rw [h]; decide), if_pos h]

/-- Words that stand within some parentheses, the outermost of which closes with the last word at
the earliest. -/
def Within : Int → List Word → Prop
  | _, [] => True
  | depth, w :: ws => 0 < depth ∧ Within (depth + w.turn) ws

theorem Within.pos {depth : Int} {us vs : List Word} {v : Word}
    (h : Within depth (us ++ v :: vs)) : 0 < depth + balance us := by
  induction us generalizing depth with
  | nil => simpa [balance_nil] using h.1
  | cons u us ih =>
      have hpos := ih h.2
      rw [balance_cons]
      omega

/-- An operator between two operands stands in some words outside of parentheses. -/
def Exposed (ws : List Word) : Prop :=
  ∃ us op vs, ws = us ++ op :: vs ∧ us ≠ [] ∧ balance us = 0 ∧
    1 ≤ op.kind.joins ∧ op.kind.joins ≤ 7

end Word

open Word

namespace Phrase

variable {n : Nat} {ws : List Word} {e : Expr}

/-- A list of phrases closes the parentheses that it opens, if the phrases do. -/
theorem balance_listed {items : List (List Word × Expr)} (h : Listed items ws)
    (hitems : ∀ a ∈ items, balance a.1 = 0) : balance ws = 0 := by
  induction h with
  | none => rfl
  | one a => exact hitems a List.mem_cons_self
  | @more a b rest comma ws hcomma _ ih =>
      rw [balance_append, balance_cons, hitems a List.mem_cons_self,
        turn_of_ne (by simp [hcomma]) (by simp [hcomma]),
        ih fun c hc => hitems c (List.mem_cons_of_mem a hc)]
      rfl

theorem balance_eq (h : Phrase n ws e) : balance ws = 0 := by
  have hother : ∀ {w : Word} {holds : TokenKind → Bool}, holds w.kind = true →
      holds .leftParen = false → holds .rightParen = false → w.turn = 0 := by
    intro w holds hw hleft hright
    refine turn_of_ne ?_ ?_ <;> intro hkind <;> rw [hkind] at hw
    · exact Bool.false_ne_true (hleft.symm.trans hw)
    · exact Bool.false_ne_true (hright.symm.trans hw)
  induction h with
  | name | pin | number | string => rfl
  | constant l text hkind => rw [balance_cons, hother hkind rfl rfl, balance_nil, Int.add_zero]
  | group hleft hright _ ih =>
      rw [List.cons_append, balance_cons, balance_append, balance_cons, ih, turn_leftParen hleft,
        turn_rightParen hright, balance_nil]
      rfl
  | member l hdot hproperty _ ih =>
      rw [balance_append, balance_cons, balance_cons, ih,
        turn_of_ne (by simp [hdot]) (by simp [hdot]),
        turn_of_ne (by simp [hproperty]) (by simp [hproperty]), balance_nil]
      rfl
  | call l hleft hright _ hlist _ ih ihs =>
      rw [balance_append, balance_append, balance_cons, balance_cons, ih, turn_leftParen hleft,
        turn_rightParen hright, balance_listed hlist ihs, balance_nil]
      rfl
  | step l hop _ ih => rw [balance_append, balance_cons, ih, hother hop rfl rfl, balance_nil]; rfl
  | leading l hop _ ih => rw [balance_cons, ih, hother hop rfl rfl]; rfl
  | @binary l n op us vs a b hlow hhigh hop _ _ iha ihb =>
      have hturn : op.turn = 0 := by
        refine turn_of_ne ?_ ?_ <;> intro hkind <;> rw [hkind] at hop <;> subst hop
        · exact absurd hhigh (by decide)
        · exact absurd hlow (by decide)
      rw [balance_append, balance_cons, iha, ihb, hturn]
      rfl
  | assign l hop _ _ iha ihb =>
      rw [balance_append, balance_cons, iha, ihb, hother hop rfl rfl]
      rfl
  | loosen _ _ ih => exact ih

/-- What a phrase is, as far as its strength goes: an operator between operands, something in
parentheses, an operand behind an operator, or an operand without one. -/
theorem strength_cases (h : Phrase n ws e) :
    Exposed ws ∨
      ∃ w us, ws = w :: us ∧ (w.kind = .leftParen ∨
        (ExprGrammar.isLeading w.kind = true ∧ Binding.leading ≤ e.binding) ∨
        Binding.trailing ≤ e.binding) := by
  have htight : ∀ {n : Nat} {ws : List Word} {e : Expr}, Phrase n ws e →
      Binding.trailing ≤ e.binding → ∃ w us, ws = w :: us ∧ (w.kind = .leftParen ∨
        (ExprGrammar.isLeading w.kind = true ∧ Binding.leading ≤ e.binding) ∨
        Binding.trailing ≤ e.binding) := by
    intro n ws e h hle
    obtain ⟨w, us, hws, -⟩ := h.exists_head
    exact ⟨w, us, hws, Or.inr (Or.inr hle)⟩
  have hne : ∀ {n : Nat} {ws : List Word} {e : Expr}, Phrase n ws e → ws ≠ [] := by
    intro n ws e h
    obtain ⟨w, us, rfl, -⟩ := h.exists_head
    exact List.cons_ne_nil w us
  induction h with
  | name | pin | number | string | constant =>
      exact Or.inr ⟨_, _, rfl, Or.inr (Or.inr (Nat.le_succ 9))⟩
  | group hleft => exact Or.inr ⟨_, _, rfl, Or.inl hleft⟩
  | member l hdot hproperty h => exact Or.inr (htight (.member l hdot hproperty h) (Nat.le_refl _))
  | call l hleft hright h hlist hitems =>
      exact Or.inr (htight (.call l hleft hright h hlist hitems) (Nat.le_refl _))
  | step l hop h => exact Or.inr (htight (.step l hop h) (Nat.le_refl _))
  | leading l hop h => exact Or.inr ⟨_, _, rfl, Or.inr (Or.inl ⟨hop, Nat.le_refl _⟩)⟩
  | binary l hlow hhigh hop ha =>
      exact Or.inl ⟨_, _, _, rfl, hne ha, ha.balance_eq, by omega, by omega⟩
  | assign l hop ha =>
      have hjoins := TokenKind.joins_of_isAssignment hop
      exact Or.inl ⟨_, _, _, rfl, hne ha, ha.balance_eq, by omega, by omega⟩
  | loosen _ _ ih => exact ih

/-- A phrase of plain words in which no name stands behind a point is one word. -/
theorem primary_of_plain (h : Phrase n ws e) (hplain : ∀ w ∈ ws, w.kind.isPlain = true)
    (hpoint : (∀ w ∈ ws, w.kind ≠ .dot) ∨ ∀ w ∈ ws, w.kind ≠ .identifier) :
    Binding.primary ≤ e.binding := by
  have hnot : ∀ {ws : List Word} {w : Word}, (∀ w ∈ ws, w.kind.isPlain = true) → w ∈ ws →
      w.kind.isPlain = false → False := fun hplain hw hnot =>
    Bool.false_ne_true (hnot.symm.trans (hplain _ hw))
  induction h with
  | name | pin | number | string | constant => exact Nat.le_refl _
  | @group left right ws e hleft =>
      exact (hnot (w := left) hplain (by simp) (by rw [hleft]; rfl)).elim
  | @member l dot property ws e hdot hproperty =>
      rcases hpoint with hpoint | hpoint
      · exact (hpoint dot (by simp) hdot).elim
      · exact (hpoint property (by simp) hproperty).elim
  | @call l left right us vs e arguments hleft =>
      exact (hnot (w := left) hplain (by simp) (by rw [hleft]; rfl)).elim
  | @step l op ws e hop =>
      exact (hnot (w := op) hplain (by simp) (TokenKind.isPlain_of_isTrailing hop)).elim
  | leading l hop => exact (hnot hplain (by simp) (TokenKind.isPlain_of_isLeading hop)).elim
  | @binary l n op us vs a b hlow hhigh hop =>
      have hop' := TokenKind.isPlain_of_joins (hop ▸ Nat.le_of_succ_le hlow) (hop ▸ hhigh)
      exact (hnot (w := op) hplain (by simp) hop').elim
  | @assign l op us vs a b hop =>
      have hjoins := TokenKind.joins_of_isAssignment hop
      have hop' := TokenKind.isPlain_of_joins (Nat.le_of_eq hjoins.symm) (by rw [hjoins]; decide)
      exact (hnot (w := op) hplain (by simp) hop').elim
  | loosen _ _ ih => exact ih hplain hpoint

end Phrase

/-! ## Words that hold together -/

namespace Word

/-- Words in which every operator between operands stands in parentheses, and that begin with
neither a parenthesis nor an operator. -/
structure Tight (ws : List Word) : Prop where
  inside : ∀ us op vs, ws = us ++ op :: vs → balance us = 0 → 1 ≤ op.kind.joins →
    ¬ op.kind.joins ≤ 7
  front : ∀ w us, ws = w :: us → w.kind ≠ .leftParen ∧ ExprGrammar.isLeading w.kind = false

namespace Tight

variable {ws : List Word}

theorem not_exposed (h : Tight ws) : ¬ Exposed ws := by
  rintro ⟨us, op, vs, hws, -, hbalance, hlow, hhigh⟩
  exact h.inside us op vs hws hbalance hlow hhigh

theorem not_exposed_cons (h : Tight ws) {op : Word} (hop : ExprGrammar.isLeading op.kind = true) :
    ¬ Exposed (op :: ws) := by
  have hturn : op.turn = 0 := by
    refine turn_of_ne ?_ ?_ <;> intro hkind <;> rw [hkind] at hop <;> cases hop
  rintro ⟨us, op', vs, hws, hne, hbalance, hlow, hhigh⟩
  cases us with
  | nil => exact hne rfl
  | cons u us =>
      rw [List.cons_append] at hws
      obtain ⟨rfl, hrest⟩ := List.cons.inj hws
      rw [balance_cons, hturn, Int.zero_add] at hbalance
      exact h.inside us op' vs hrest hbalance hlow hhigh

/-- An expression of such words binds as tightly as a call. -/
theorem trailing_le (h : Tight ws) {n : Nat} {e : Expr} (hphrase : Phrase n ws e) :
    Binding.trailing ≤ e.binding := by
  rcases hphrase.strength_cases with hexposed | ⟨w, us, rfl, hparen | ⟨hleading, -⟩ | hle⟩
  · exact (h.not_exposed hexposed).elim
  · exact ((h.front w us rfl).1 hparen).elim
  · exact (Bool.false_ne_true ((h.front w us rfl).2.symm.trans hleading)).elim
  · exact hle

/-- With an operator in front of them, the operator is the outermost one. -/
theorem leading_le (h : Tight ws) {n : Nat} {op : Word} {e : Expr}
    (hop : ExprGrammar.isLeading op.kind = true) (hphrase : Phrase n (op :: ws) e) :
    Binding.leading ≤ e.binding := by
  rcases hphrase.strength_cases with hexposed | ⟨w, us, hws, hparen | ⟨-, hle⟩ | hle⟩
  · exact (h.not_exposed_cons hop hexposed).elim
  · obtain ⟨rfl, -⟩ := List.cons.inj hws
    rw [hparen] at hop
    cases hop
  · exact hle
  · exact Nat.le_of_succ_le hle

theorem front_of_plain {w : Word} (h : w.kind.isPlain = true) :
    w.kind ≠ .leftParen ∧ ExprGrammar.isLeading w.kind = false := by
  constructor
  · intro hparen
    rw [hparen] at h
    cases h
  · cases hleading : ExprGrammar.isLeading w.kind with
    | false => rfl
    | true =>
      rw [TokenKind.isPlain_of_isLeading hleading] at h
      cases h

theorem balance_plain (h : ∀ w ∈ ws, w.kind.isPlain = true) : balance ws = 0 := by
  induction ws with
  | nil => rfl
  | cons w ws ih =>
      have hright : w.kind ≠ .rightParen := by
        intro hparen
        have hw := h w List.mem_cons_self
        rw [hparen] at hw
        cases hw
      rw [balance_cons, turn_of_ne (front_of_plain (h w List.mem_cons_self)).1 hright,
        ih fun v hv => h v (List.mem_cons_of_mem w hv)]
      rfl

/-- Plain words in front of others hold those together, if they have no operator between operands
outside of parentheses either. -/
theorem append {us : List Word} (hus : ∀ w ∈ us, w.kind.isPlain = true) (hne : us ≠ [])
    (hws : ∀ vs op rest, ws = vs ++ op :: rest → balance vs = 0 → 1 ≤ op.kind.joins →
      ¬ op.kind.joins ≤ 7) : Tight (us ++ ws) := by
  constructor
  · intro front op rest heq hbalance hlow hhigh
    rcases List.append_eq_append_iff.mp heq with ⟨vs, rfl, hsplit⟩ | ⟨vs, rfl, hsplit⟩
    · rw [balance_append, balance_plain hus, Int.zero_add] at hbalance
      exact hws vs op rest hsplit hbalance hlow hhigh
    · cases vs with
      | nil => exact hws [] op rest hsplit.symm rfl hlow hhigh
      | cons v vs =>
          obtain ⟨rfl, -⟩ := List.cons.inj hsplit
          have hop := hus op (by simp)
          rw [TokenKind.isPlain_of_joins hlow hhigh] at hop
          cases hop
  · intro w rest heq
    cases us with
    | nil => exact (hne rfl).elim
    | cons u us =>
        obtain ⟨rfl, -⟩ := List.cons.inj heq
        exact front_of_plain (hus u List.mem_cons_self)

theorem of_plain (h : ∀ w ∈ ws, w.kind.isPlain = true) : Tight ws := by
  cases ws with
  | nil => exact ⟨by simp, by simp⟩
  | cons w ws =>
      have happend : Tight (w :: ws ++ []) := append h (List.cons_ne_nil w ws) (by simp)
      rwa [List.append_nil] at happend

theorem step (h : ∀ w ∈ ws, w.kind.isPlain = true) (hne : ws ≠ []) {op : Word}
    (hop : ExprGrammar.isTrailing op.kind = true) : Tight (ws ++ [op]) := by
  have hjoins := TokenKind.joins_of_isTrailing hop
  refine append h hne fun vs op' rest heq _ _ hhigh => ?_
  obtain ⟨-, heq⟩ : vs = [] ∧ op = op' := by
    cases vs with
    | nil => exact ⟨rfl, (List.cons.inj heq).1⟩
    | cons v vs => simp at heq
  rw [← heq, hjoins] at hhigh
  exact absurd hhigh (by decide)

/-- Plain words with parentheses behind them that close nowhere before the last word. -/
theorem call (h : ∀ w ∈ ws, w.kind.isPlain = true) (hne : ws ≠ []) {left : Word}
    (hleft : left.kind = .leftParen) {inside : List Word} (hinside : Within 1 inside) :
    Tight (ws ++ left :: inside) := by
  refine append h hne fun vs op rest heq hbalance _ hhigh => ?_
  cases vs with
  | nil =>
      obtain ⟨rfl, -⟩ := List.cons.inj heq
      rw [hleft] at hhigh
      exact absurd hhigh (by decide)
  | cons v vs =>
      rw [List.cons_append] at heq
      obtain ⟨rfl, hrest⟩ := List.cons.inj heq
      have hdeep := (hrest ▸ hinside).pos
      rw [balance_cons, turn_leftParen hleft] at hbalance
      omega

end Tight

end Word

end InoBlocks
