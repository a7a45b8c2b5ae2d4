import InoBlocks.Proofs.Sketch.Phrase

/-!
# Phrases are unambiguous

At the front of any words there is at most one phrase of a strength that what stands behind it does
not go on with, and it is the phrase of one expression, places aside.

A phrase that goes on from an operand on its left is taken apart from the left: it is a phrase of
the next strength with some steps behind it, each of which begins with an operator of the strength.
-/

namespace InoBlocks

/-- Words that do not go on with a phrase of some strength in front of them. -/
def Behind (n : Nat) (r : List Word) : Prop :=
  ∀ w, r.head? = some w → w.kind.joins < n

theorem Behind.mono {n m : Nat} {r : List Word} (h : Behind n r) (hle : n ≤ m) : Behind m r :=
  fun w hw => Nat.lt_of_lt_of_le (h w hw) hle

theorem behind_cons {n : Nat} {w : Word} (r : List Word) (h : w.kind.joins < n) :
    Behind n (w :: r) := by
  intro v hv
  rw [List.head?_cons, Option.some.injEq] at hv
  exact hv ▸ h

namespace Phrase

variable {n m : Nat} {us vs r s : List Word} {e e' a a' : Expr}

/-! ## Primaries -/

/-- A word that is an expression by itself. -/
inductive Leaf : Word → Expr → Prop where
  | name (l : Location) {id : String} : isAnalogPin id = false →
      Leaf ⟨.identifier, id⟩ (.name l id)
  | pin (l : Location) {id : String} : isAnalogPin id = true →
      Leaf ⟨.identifier, id⟩ (.pin l id true)
  | number (l : Location) {raw : String} {value : Binary64} : Number.double? raw = some value →
      Leaf ⟨.number, raw⟩ (.literal l (.number value) raw)
  | string (l : Location) (raw : String) :
      Leaf ⟨.string, raw⟩ (.literal l (.text (ExprGrammar.unquote raw)) raw)
  | constant (l : Location) {kind : TokenKind} (text : String) : kind.namesValue = true →
      Leaf ⟨kind, text⟩ (.literal l (.text text) text)

theorem Leaf.kind_ne {w : Word} (h : Leaf w e) : w.kind ≠ .leftParen := by
  cases h with
  | constant l text hkind =>
      rintro rfl
      cases hkind
  | _ => exact nofun

theorem Leaf.unique {w : Word} (h : Leaf w e) (h' : Leaf w e') : e.forget = e'.forget := by
  cases h <;> cases h' <;> simp_all [Expr.forget, TokenKind.namesValue, TokenKind.isConstant]

theorem primary_cases (h : Phrase 10 us e) :
    (∃ w, us = [w] ∧ Leaf w e) ∨
    ∃ left right ws, left.kind = .leftParen ∧ right.kind = .rightParen ∧
      us = left :: ws ++ [right] ∧ Phrase 1 ws e := by
  cases h with
  | name l hid => exact Or.inl ⟨_, rfl, .name l hid⟩
  | pin l hid => exact Or.inl ⟨_, rfl, .pin l hid⟩
  | number l hvalue => exact Or.inl ⟨_, rfl, .number l hvalue⟩
  | string l raw => exact Or.inl ⟨_, rfl, .string l raw⟩
  | constant l text hkind => exact Or.inl ⟨_, rfl, .constant l text hkind⟩
  | group hleft hright h => exact Or.inr ⟨_, _, _, hleft, hright, rfl, h⟩
  | binary _ _ hhigh => omega
  | loosen _ h => exact absurd h.le_ten (by decide)

/-! ## Steps -/

/-- What an operator and some words behind it make of an operand in front of it. -/
inductive Step (op : Word) : Nat → Expr → List Word → Expr → Prop where
  | member (l : Location) {property : Word} {e : Expr} : op.kind = .dot →
      property.kind = .identifier → Step op 9 e [property] (.member l e property.text)
  | call (l : Location) {right : Word} {vs : List Word} {e : Expr}
      {arguments : List (List Word × Expr)} : op.kind = .leftParen → right.kind = .rightParen →
      Listed arguments vs → (∀ a ∈ arguments, Phrase 1 a.1 a.2) →
      Step op 9 e (vs ++ [right]) (.call l e (arguments.map Prod.snd))
  | step (l : Location) {e : Expr} : ExprGrammar.isTrailing op.kind = true →
      Step op 9 e [] (.unary l op.text e false)
  | binary (l : Location) {n : Nat} {vs : List Word} {e b : Expr} : 2 ≤ n → n ≤ 7 →
      op.kind.joins = n → Phrase (n + 1) vs b → Step op n e vs (.binary l op.text e b)

/-- Steps one behind the other. -/
inductive Steps (n : Nat) : Expr → List Word → Expr → Prop where
  | refl (e : Expr) : Steps n e [] e
  | cons {e a e' : Expr} {op : Word} {us vs : List Word} : Step op n e us a → Steps n a vs e' →
      Steps n e (op :: us ++ vs) e'

theorem Steps.snoc {op : Word} (h : Steps n e us a) (hstep : Step op n a vs e') :
    Steps n e (us ++ op :: vs) e' := by
  induction h with
  | refl e => simpa using Steps.cons hstep (.refl e')
  | cons hfirst _ ih =>
      rw [List.append_assoc]
      exact .cons hfirst (ih hstep)

theorem Step.joins_eq {op : Word} (h : Step op n e us e') : op.kind.joins = n := by
  cases h with
  | member l hdot => rw [hdot]; rfl
  | call l hleft => rw [hleft]; rfl
  | step l hop => exact TokenKind.joins_of_isTrailing hop
  | binary l _ _ hop => exact hop

/-- Steps may stand behind an operand of the next strength. -/
theorem Steps.behind (h : Steps n e us e') (hr : Behind n r) : Behind (n + 1) (us ++ r) := by
  cases h with
  | refl => exact hr.mono (Nat.le_succ n)
  | cons hstep _ => exact behind_cons _ (Nat.lt_succ_of_le (Nat.le_of_eq hstep.joins_eq))

/-- A phrase that may go on from its left is one of the next strength with steps behind it. -/
theorem exists_steps (h : Phrase n us e) (hn : 2 ≤ n) (hn' : n ≠ 8) (hlast : n ≠ 10) :
    ∃ front back a, us = front ++ back ∧ Phrase (n + 1) front a ∧ Steps n a back e := by
  have hsnoc : ∀ {us vs : List Word} {op : Word} {e e' : Expr},
      (∃ front back a, us = front ++ back ∧ Phrase (n + 1) front a ∧ Steps n a back e) →
      Step op n e vs e' →
      ∃ front back a, us ++ op :: vs = front ++ back ∧ Phrase (n + 1) front a ∧
        Steps n a back e' := by
    rintro us vs op e e' ⟨front, back, a, rfl, hfront, hback⟩ hstep
    exact ⟨front, back ++ op :: vs, a, List.append_assoc .., hfront, hback.snoc hstep⟩
  induction h with
  | name | pin | number | string | constant | group => exact absurd rfl hlast
  | member l hdot hproperty _ ih => exact hsnoc (ih hn hn' hlast hsnoc) (.member l hdot hproperty)
  | call l hleft hright _ hlist hitems ih =>
      rw [List.append_assoc]
      exact hsnoc (ih hn hn' hlast hsnoc) (.call l hleft hright hlist hitems)
  | step l hop _ ih => exact hsnoc (ih hn hn' hlast hsnoc) (.step l hop)
  | leading => exact absurd rfl hn'
  | binary l hlow hhigh hop _ hb iha =>
      exact hsnoc (iha hn hn' hlast hsnoc) (.binary l hlow hhigh hop hb)
  | assign => omega
  | @loosen _ ws e _ h => exact ⟨ws, [], e, by simp, h, .refl e⟩

/-! ## One phrase at the front -/

/-- Phrases of a strength and of no more words than `length` are determined by the words at whose
front they stand. -/
def UniqueTo (length n : Nat) : Prop :=
  ∀ us vs r s e e', us.length ≤ length → Phrase n us e → Phrase n vs e' → us ++ r = vs ++ s →
    Behind n r → Behind n s → us = vs ∧ e.forget = e'.forget

theorem rightParen_ne {right : Word} (hright : right.kind = .rightParen) (h : Phrase n us e)
    (r s : List Word) : right :: r ≠ us ++ s := by
  intro heq
  obtain ⟨w, ws, hws, hw, -⟩ := h.exists_head
  rw [hws, List.cons_append, List.cons.injEq] at heq
  rw [← heq.1, hright] at hw
  cases hw

theorem behind_argument {w : Word} (h : w.kind = .rightParen ∨ w.kind = .comma) (r : List Word) :
    Behind 1 (w :: r) := by
  rcases h with h | h <;> exact behind_cons r (by rw [h]; decide)

/-- Arguments in front of a closing parenthesis are determined by the words at whose front they
stand. -/
theorem listed_unique {length : Nat} (hunique : UniqueTo length 1)
    {items items' : List (List Word × Expr)} (h : Listed items us) (h' : Listed items' vs)
    (hitems : ∀ a ∈ items, Phrase 1 a.1 a.2) (hitems' : ∀ a ∈ items', Phrase 1 a.1 a.2)
    (hlength : us.length ≤ length) {right right' : Word} (hright : right.kind = .rightParen)
    (hright' : right'.kind = .rightParen) (heq : us ++ right :: r = vs ++ right' :: s) :
    us = vs ∧ Expr.forgetList (items.map Prod.snd) = Expr.forgetList (items'.map Prod.snd) := by
  induction h generalizing items' vs with
  | none =>
      cases h' with
      | none => exact ⟨rfl, rfl⟩
      | one a => exact absurd heq (rightParen_ne hright (hitems' a (by simp)) _ _)
      | more a b _ _ =>
          rw [List.append_assoc] at heq
          exact absurd heq (rightParen_ne hright (hitems' a (by simp)) _ _)
  | one a =>
      have ha := hitems a (by simp)
      cases h' with
      | none => exact absurd heq.symm (rightParen_ne hright' ha _ _)
      | one b =>
          obtain ⟨hwords, hforget⟩ := hunique _ _ _ _ _ _ hlength ha (hitems' b (by simp)) heq
            (behind_argument (Or.inl hright) r) (behind_argument (Or.inl hright') s)
          exact ⟨hwords, by simp [Expr.forgetList, hforget]⟩
      | more b c hcomma _ =>
          rw [List.append_assoc, List.cons_append] at heq
          obtain ⟨hwords, -⟩ := hunique _ _ _ _ _ _ hlength ha (hitems' b (by simp)) heq
            (behind_argument (Or.inl hright) r) (behind_argument (Or.inr hcomma) _)
          rw [hwords, List.append_cancel_left_eq, List.cons.injEq] at heq
          rw [heq.1, hcomma] at hright
          cases hright
  | @more a b rest comma ws hcomma hlist ih =>
      have ha := hitems a (by simp)
      rw [List.length_append, List.length_cons] at hlength
      rw [List.append_assoc, List.cons_append] at heq
      cases h' with
      | none => exact absurd heq.symm (rightParen_ne hright' ha _ _)
      | one c =>
          obtain ⟨hwords, -⟩ := hunique _ _ _ _ _ _ (by omega) ha (hitems' c (by simp)) heq
            (behind_argument (Or.inr hcomma) _) (behind_argument (Or.inl hright') s)
          rw [hwords, List.append_cancel_left_eq, List.cons.injEq] at heq
          rw [← heq.1, hcomma] at hright'
          cases hright'
      | more c d hcomma' hlist' =>
          rw [List.append_assoc, List.cons_append] at heq
          obtain ⟨hwords, hforget⟩ := hunique _ _ _ _ _ _ (by omega) ha (hitems' c (by simp)) heq
            (behind_argument (Or.inr hcomma) _) (behind_argument (Or.inr hcomma') _)
          rw [hwords, List.append_cancel_left_eq, List.cons.injEq] at heq
          obtain ⟨hwords', hforget'⟩ := ih hlist' (fun a ha => hitems a (List.mem_cons_of_mem _ ha))
            (fun a ha => hitems' a (List.mem_cons_of_mem _ ha)) (by omega) heq.2
          refine ⟨by rw [hwords, heq.1, hwords'], ?_⟩
          simp only [List.map_cons, Expr.forgetList, hforget] at hforget' ⊢
          rw [hforget']

/-- What an operator makes of an operand is determined by the words behind it. -/
theorem Step.unique {length : Nat} (hunique : ∀ m, UniqueTo length m) {op : Word}
    (h : Step op n e us a) (h' : Step op n e' vs a') (hforget : e.forget = e'.forget)
    (hlength : us.length ≤ length) (heq : us ++ r = vs ++ s) (hr : Behind (n + 1) r)
    (hs : Behind (n + 1) s) : us = vs ∧ a.forget = a'.forget := by
  cases h with
  | member l hdot hproperty =>
      cases h' with
      | member =>
          obtain ⟨rfl, -⟩ := List.cons.inj heq
          exact ⟨rfl, by rw [Expr.forget, Expr.forget, hforget]⟩
      | call _ hleft => rw [hdot] at hleft; cases hleft
      | step _ hop => rw [hdot] at hop; cases hop
      | binary _ _ hhigh => omega
  | call l hleft hright hlist hitems =>
      cases h' with
      | member _ hdot => rw [hdot] at hleft; cases hleft
      | call _ _ hright' hlist' hitems' =>
          rw [List.length_append] at hlength
          rw [List.append_assoc, List.append_assoc] at heq
          obtain ⟨rfl, harguments⟩ := listed_unique (hunique 1) hlist hlist' hitems hitems'
            (by omega) hright hright' heq
          obtain ⟨rfl, -⟩ := List.cons.inj (List.append_cancel_left heq)
          exact ⟨rfl, by rw [Expr.forget, Expr.forget, hforget, harguments]⟩
      | step _ hop => rw [hleft] at hop; cases hop
      | binary _ _ hhigh => omega
  | step l hop =>
      cases h' with
      | member _ hdot => rw [hdot] at hop; cases hop
      | call _ hleft => rw [hleft] at hop; cases hop
      | step => exact ⟨rfl, by rw [Expr.forget, Expr.forget, hforget]⟩
      | binary _ _ hhigh => omega
  | binary l hlow hhigh hop hb =>
      cases h' with
      | binary _ _ _ _ hb' =>
          obtain ⟨rfl, hright⟩ := hunique _ _ _ _ _ _ _ hlength hb hb' heq hr hs
          exact ⟨rfl, by rw [Expr.forget, Expr.forget, hforget, hright]⟩
      | _ => omega

/-- Steps are determined by the words at whose front they stand. -/
theorem Steps.unique {length : Nat} (hunique : ∀ m, UniqueTo length m) (h : Steps n e us a)
    (h' : Steps n e' vs a') (hforget : e.forget = e'.forget) (hlength : us.length ≤ length + 1)
    (heq : us ++ r = vs ++ s) (hr : Behind n r) (hs : Behind n s) :
    us = vs ∧ a.forget = a'.forget := by
  induction h generalizing e' vs with
  | refl =>
      cases h' with
      | refl => exact ⟨rfl, hforget⟩
      | cons hstep _ =>
          rw [List.nil_append] at heq
          exact absurd hstep.joins_eq (Nat.ne_of_lt (hr _ (by rw [heq]; rfl)))
  | cons hstep hsteps ih =>
      cases h' with
      | refl =>
          rw [List.nil_append] at heq
          exact absurd hstep.joins_eq (Nat.ne_of_lt (hs _ (by rw [← heq]; rfl)))
      | cons hstep' hsteps' =>
          rw [List.length_append, List.length_cons] at hlength
          rw [List.append_assoc, List.append_assoc] at heq
          obtain ⟨rfl, hback⟩ := List.cons.inj heq
          obtain ⟨rfl, hfirst⟩ := hstep.unique hunique hstep' hforget (by omega) hback
            (hsteps.behind hr) (hsteps'.behind hs)
          obtain ⟨rfl, hrest⟩ := ih hsteps' hfirst (by omega) (List.append_cancel_left hback)
          exact ⟨rfl, hrest⟩

section Length

variable {length : Nat}

theorem primary_unique (hunique : ∀ m, UniqueTo length m) : UniqueTo (length + 1) 10 := by
  intro us vs r s e e' hlength h h' heq _ _
  rcases h.primary_cases with ⟨w, rfl, hleaf⟩ | ⟨left, right, ws, hleft, hright, rfl, hgroup⟩
  · rcases h'.primary_cases with ⟨w', rfl, hleaf'⟩ | ⟨left', _, _, hleft', -, rfl, -⟩
    · obtain ⟨rfl, -⟩ := List.cons.inj heq
      exact ⟨rfl, hleaf.unique hleaf'⟩
    · obtain ⟨rfl, -⟩ := List.cons.inj heq
      exact absurd hleft' hleaf.kind_ne
  · rcases h'.primary_cases with ⟨w', rfl, hleaf'⟩ |
      ⟨left', right', ws', hleft', hright', rfl, hgroup'⟩
    · obtain ⟨rfl, -⟩ := List.cons.inj heq
      exact absurd hleft hleaf'.kind_ne
    · have hstop : ∀ {w : Word} (r : List Word), w.kind = .rightParen → Behind 1 (w :: r) :=
        fun r hw => behind_cons r (by rw [hw]; decide)
      rw [List.length_append, List.length_cons] at hlength
      rw [List.append_assoc, List.append_assoc] at heq
      obtain ⟨rfl, hback⟩ := List.cons.inj heq
      obtain ⟨rfl, hforget⟩ := hunique 1 _ _ _ _ _ _ (by omega) hgroup hgroup' hback
        (hstop r hright) (hstop s hright')
      obtain ⟨rfl, -⟩ := List.cons.inj (List.append_cancel_left hback)
      exact ⟨rfl, hforget⟩

/-- A strength whose phrases may go on from their left. -/
theorem chain_unique (hunique : ∀ m, UniqueTo length m) (hn : 2 ≤ n) (hn' : n ≠ 8)
    (hlast : n ≠ 10) (hnext : UniqueTo (length + 1) (n + 1)) : UniqueTo (length + 1) n := by
  intro us vs r s e e' hlength h h' heq hr hs
  obtain ⟨front, back, a, rfl, hfront, hback⟩ := h.exists_steps hn hn' hlast
  obtain ⟨front', back', a', rfl, hfront', hback'⟩ := h'.exists_steps hn hn' hlast
  rw [List.length_append] at hlength
  rw [List.append_assoc, List.append_assoc] at heq
  obtain ⟨rfl, hforget⟩ := hnext _ _ _ _ _ _ (by omega) hfront hfront' heq (hback.behind hr)
    (hback'.behind hs)
  obtain ⟨rfl, hresult⟩ := hback.unique hunique hback' hforget (by omega)
    (List.append_cancel_left heq) hr hs
  exact ⟨rfl, hresult⟩

theorem leading_unique (hunique : ∀ m, UniqueTo length m) (hnext : UniqueTo (length + 1) 9) :
    UniqueTo (length + 1) 8 := by
  have hother : ∀ {op : Word} {us vs r s : List Word} {e : Expr}, Phrase 9 us e →
      ExprGrammar.isLeading op.kind = true → op :: vs ++ r ≠ us ++ s := by
    intro op us vs r s e h hop heq
    obtain ⟨w, ws, rfl, -, hleading⟩ := h.exists_head
    obtain ⟨rfl, -⟩ := List.cons.inj heq
    rw [hleading (Nat.le_refl 9)] at hop
    cases hop
  intro us vs r s e e' hlength h h' heq hr hs
  cases h with
  | leading l hop hoperand =>
      cases h' with
      | leading _ _ hoperand' =>
          obtain ⟨rfl, hback⟩ := List.cons.inj heq
          obtain ⟨rfl, hforget⟩ := hunique 8 _ _ _ _ _ _ (Nat.le_of_succ_le_succ hlength) hoperand
            hoperand' hback hr hs
          exact ⟨rfl, by rw [Expr.forget, Expr.forget, hforget]⟩
      | binary _ _ hhigh => omega
      | loosen _ h' => exact absurd heq (hother h' hop)
  | binary _ _ hhigh => omega
  | loosen _ h =>
      cases h' with
      | leading _ hop => exact absurd heq.symm (hother h hop)
      | binary _ _ hhigh => omega
      | loosen _ h' =>
          exact hnext _ _ _ _ _ _ hlength h h' heq (hr.mono (by decide)) (hs.mono (by decide))

theorem assign_unique (hunique : ∀ m, UniqueTo length m) (hnext : UniqueTo (length + 1) 2) :
    UniqueTo (length + 1) 1 := by
  have hstop : ∀ {op : Word} (r : List Word), ExprGrammar.isAssignment op.kind = true →
      Behind 2 (op :: r) :=
    fun r hop => behind_cons r (by rw [TokenKind.joins_of_isAssignment hop]; decide)
  have hother : ∀ {op : Word} {us : List Word}, ExprGrammar.isAssignment op.kind = true →
      ¬ Behind 1 (op :: us) := by
    intro op us hop hr
    have hlt := hr op rfl
    rw [TokenKind.joins_of_isAssignment hop] at hlt
    omega
  intro us vs r s e e' hlength h h' heq hr hs
  cases h with
  | assign l hop ha hb =>
      rw [List.length_append, List.length_cons] at hlength
      rw [List.append_assoc] at heq
      cases h' with
      | assign _ hop' ha' hb' =>
          rw [List.append_assoc] at heq
          obtain ⟨rfl, hleft⟩ := hnext _ _ _ _ _ _ (by omega) ha ha' heq (hstop _ hop)
            (hstop _ hop')
          obtain ⟨rfl, hback⟩ := List.cons.inj (List.append_cancel_left heq)
          obtain ⟨rfl, hright⟩ := hunique 1 _ _ _ _ _ _ (by omega) hb hb' hback hr hs
          exact ⟨rfl, by rw [Expr.forget, Expr.forget, hleft, hright]⟩
      | binary _ hlow => omega
      | loosen _ h' =>
          obtain ⟨rfl, -⟩ := hnext _ _ _ _ _ _ (by omega) ha h' heq (hstop _ hop)
            (hs.mono (by decide))
          exact absurd (List.append_cancel_left heq ▸ hs) (hother hop)
  | binary _ hlow => omega
  | loosen _ h =>
      cases h' with
      | assign _ hop' ha' hb' =>
          rw [List.append_assoc] at heq
          obtain ⟨rfl, -⟩ := hnext _ _ _ _ _ _ hlength h ha' heq (hr.mono (by decide))
            (hstop _ hop')
          exact absurd (List.append_cancel_left heq ▸ hr) (hother hop')
      | binary _ hlow => omega
      | loosen _ h' =>
          exact hnext _ _ _ _ _ _ hlength h h' heq (hr.mono (by decide)) (hs.mono (by decide))

end Length

/-- The strengths are gone through from that of a primary down, for longer and longer phrases. -/
theorem uniqueTo (length n : Nat) : UniqueTo length n := by
  induction length generalizing n with
  | zero =>
      intro us vs r s e e' hlength h
      obtain ⟨w, ws, rfl, -⟩ := h.exists_head
      exact absurd hlength (Nat.not_succ_le_zero _)
  | succ length ih =>
      have hfrom : ∀ k, k ≤ 9 → UniqueTo (length + 1) (10 - k) := by
        intro k hk
        induction k with
        | zero => exact primary_unique ih
        | succ k ihk =>
            have hnext := ihk (by omega)
            rw [show 10 - k = 10 - (k + 1) + 1 by omega] at hnext
            by_cases hleading : 10 - (k + 1) = 8
            · rw [hleading] at hnext ⊢
              exact leading_unique ih hnext
            · by_cases hassign : 10 - (k + 1) = 1
              · rw [hassign] at hnext ⊢
                exact assign_unique ih hnext
              · exact chain_unique ih (by omega) hleading (by omega) hnext
      intro us vs r s e e' hlength h
      have hlow := h.one_le
      have hhigh := h.le_ten
      have hall := hfrom (10 - n) (by omega)
      rw [show 10 - (10 - n) = n by omega] at hall
      exact hall us vs r s e e' hlength h

/-- Two phrases of a strength at the front of the same words, of which nothing goes on with either,
are one phrase, and of one expression, places aside. -/
theorem unique (h : Phrase n us e) (h' : Phrase n vs e') (heq : us ++ r = vs ++ s)
    (hr : Behind n r) (hs : Behind n s) : us = vs ∧ e.forget = e'.forget :=
  uniqueTo us.length n us vs r s e e' (Nat.le_refl _) h h' heq hr hs

/-- Words are a phrase of at most one expression, places aside. -/
theorem forget_eq (h : Phrase n us e) (h' : Phrase m us e') : e.forget = e'.forget := by
  have hnil : Behind 1 ([] : List Word) := fun _ hw => nomatch hw
  exact (unique (h.loosenTo (Nat.le_refl 1) h.one_le) (h'.loosenTo (Nat.le_refl 1) h'.one_le) rfl
    hnil hnil).2

end Phrase

end InoBlocks
