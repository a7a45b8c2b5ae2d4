import InoBlocks.Proofs.Sketch.Steps
import InoBlocks.Proofs.Token.Word

/-!
# Two runs over the same words

Where a token stands is not looked at when it is decided what to read.  Two runs over tokens that
say the same words therefore end alike: both with a result or both with a stop for the same cause,
and in front of the same words.  Results are compared without the places in them.

`RunsAlike` is the relation between two runs; it is closed under sequencing, so that it goes from the
small steps over tokens up to expressions.
-/

namespace InoBlocks

/-! ## Ends of two runs -/

/-- Two stops for the same cause. -/
inductive Stop.Like : Stop → Stop → Prop
  | misread {fault fault' : Fault} (h : fault.cause = fault'.cause) :
      Stop.Like (.misread fault) (.misread fault')
  | unreadable (text : String) : Stop.Like (.unreadable text) (.unreadable text)
  | exhausted : Stop.Like .exhausted .exhausted

/-- Two runs end alike: with results in a relation or with stops for the same cause, and in
related states. -/
inductive EndsAlike {σ α : Type} (S : σ → σ → Prop) (R : α → α → Prop) :
    EStateM.Result Stop σ α → EStateM.Result Stop σ α → Prop
  | ok {a a' : α} {s s' : σ} (ha : R a a') (hs : S s s') : EndsAlike S R (.ok a s) (.ok a' s')
  | error {stop stop' : Stop} {s s' : σ} (hstop : stop.Like stop') (hs : S s s') :
      EndsAlike S R (.error stop s) (.error stop' s')

def RunsAlike {σ α : Type} (S : σ → σ → Prop) (R : α → α → Prop) (x y : EStateM Stop σ α) : Prop :=
  ∀ s s', S s s' → EndsAlike S R (x s) (y s')

namespace RunsAlike

variable {σ α β : Type} {S : σ → σ → Prop} {R : α → α → Prop} {Q : β → β → Prop}

theorem pure {a a' : α} (h : R a a') : RunsAlike S R (Pure.pure a) (Pure.pure a') :=
  fun _ _ hs => .ok h hs

theorem stop {stop stop' : Stop} (h : stop.Like stop') :
    RunsAlike S R (throw stop : EStateM Stop σ α) (throw stop') :=
  fun _ _ hs => .error h hs

theorem bind {x y : EStateM Stop σ α} {f g : α → EStateM Stop σ β} (hx : RunsAlike S R x y)
    (hf : ∀ a a', R a a' → RunsAlike S Q (f a) (g a')) : RunsAlike S Q (x >>= f) (y >>= g) := by
  intro s s' hs
  have hxy := hx s s' hs
  change EndsAlike S Q (EStateM.bind x f s) (EStateM.bind y g s')
  unfold EStateM.bind
  generalize x s = r at hxy
  generalize y s' = r' at hxy
  cases hxy with
  | ok ha hs₁ => exact hf _ _ ha _ _ hs₁
  | error hstop hs₁ => exact .error hstop hs₁

/-- A step with or without a result: without one both runs go on the same way. -/
theorem bindOption {x y : EStateM Stop σ (Option α)} {f g : Option α → EStateM Stop σ β}
    (hx : RunsAlike S (Option.Rel R) x y) (hnone : RunsAlike S Q (f none) (g none))
    (hsome : ∀ a a', R a a' → RunsAlike S Q (f (some a)) (g (some a'))) :
    RunsAlike S Q (x >>= f) (y >>= g) := by
  apply hx.bind
  intro found found' hfound
  cases hfound with
  | none => exact hnone
  | some h => exact hsome _ _ h

/-- One test decides between two steps in both runs. -/
theorem ite {p : Prop} [Decidable p] {x y x' y' : EStateM Stop σ α} (h : RunsAlike S R x y)
    (h' : RunsAlike S R x' y') : RunsAlike S R (if p then x else x') (if p then y else y') := by
  split
  · exact h
  · exact h'

end RunsAlike

namespace Read

/-! ## Steps over tokens -/

def SameWords (ts ts' : List Token) : Prop :=
  ts.map Token.word = ts'.map Token.word

def SameWord (t t' : Token) : Prop :=
  t.word = t'.word

abbrev Alike {α : Type} (R : α → α → Prop) (x y : Read α) : Prop :=
  RunsAlike SameWords R x y

theorem SameWord.kind {t t' : Token} (h : SameWord t t') : t.kind = t'.kind :=
  congrArg Word.kind h

theorem SameWord.text {t t' : Token} (h : SameWord t t') : t.text = t'.text :=
  congrArg Word.text h

namespace SameWords

variable {ts ts' : List Token}

theorem length (h : SameWords ts ts') : ts.length = ts'.length := by
  simpa using congrArg List.length h

theorem kindAt (h : SameWords ts ts') (ahead : Nat) : kindAt ahead ts = kindAt ahead ts' := by
  have hget : ts[ahead]?.map Token.word = ts'[ahead]?.map Token.word := by
    rw [← List.getElem?_map, ← List.getElem?_map, h]
  unfold Read.kindAt
  cases hts : ts[ahead]? <;> cases hts' : ts'[ahead]? <;> simp_all [Token.word]

theorem head (h : SameWords ts ts') : SameWord (ts.headD default) (ts'.headD default) := by
  cases ts with
  | nil =>
      obtain rfl := List.map_eq_nil_iff.mp h.symm
      rfl
  | cons t ts =>
      cases ts' with
      | nil => cases h
      | cons t' ts' => exact (List.cons.inj h).1

theorem typeLength (h : SameWords ts ts') (ahead : Nat) :
    typeLength ahead ts = typeLength ahead ts' := by
  rw [Read.typeLength, Read.typeLength, h.kindAt, h.kindAt]

end SameWords

variable {α : Type} {R : α → α → Prop}

theorem alike_peek : Alike SameWord peek peek :=
  fun _ _ hs => .ok hs.head hs

theorem alike_peekKind (ahead : Nat) : Alike Eq (peekKind ahead) (peekKind ahead) :=
  fun _ _ hs => .ok (hs.kindAt ahead) hs

theorem alike_remaining : Alike Eq remaining remaining :=
  fun _ _ hs => .ok hs.length hs

theorem alike_get : Alike SameWords get get :=
  fun _ _ hs => .ok hs hs

theorem alike_advance : Alike SameWord advance advance := by
  intro ts ts' hs
  cases ts with
  | nil =>
      obtain rfl := List.map_eq_nil_iff.mp hs.symm
      exact .ok rfl rfl
  | cons t ts =>
      cases ts' with
      | nil => cases hs
      | cons t' ts' =>
          obtain ⟨ht, hts⟩ := List.cons.inj hs
          have hkind : t.kind = t'.kind := SameWord.kind ht
          simp only [advance]
          by_cases hend : t'.kind = .endOfInput
          · rw [if_pos hend, if_pos (hkind.trans hend)]
            exact .ok ht hs
          · rw [if_neg hend, if_neg (hkind ▸ hend)]
            exact .ok ht hts

theorem alike_accept (wanted : TokenKind → Bool) :
    Alike (Option.Rel SameWord) (accept wanted) (accept wanted) := by
  apply (alike_peekKind 0).bind
  rintro kind _ rfl
  apply RunsAlike.ite
  · exact alike_advance.bind fun t t' ht => .pure (.some ht)
  · exact .pure .none

theorem alike_acceptKind (kind : TokenKind) :
    Alike (Option.Rel SameWord) (acceptKind kind) (acceptKind kind) :=
  alike_accept _

/-- A stop whose cause depends on what the next token says. -/
theorem alike_stopAt {cause : Token → Cause} (h : ∀ t t', SameWord t t' → cause t = cause t') :
    Alike R (stopAt cause) (stopAt cause) :=
  alike_peek.bind fun t t' ht => .stop (.misread (h t t' ht))

theorem alike_expect (kind : TokenKind) (what : String) :
    Alike SameWord (expect kind what) (expect kind what) := by
  apply (alike_peekKind 0).bind
  rintro next _ rfl
  apply RunsAlike.ite alike_advance
  apply alike_stopAt
  intro t t' ht
  rw [describe, describe, ht.kind, ht.text]

theorem alike_unexpected (expected : String) :
    Alike R (unexpected expected) (unexpected expected) := by
  apply alike_stopAt
  intro t t' ht
  rw [spelling, spelling, ht.kind, ht.text]

theorem alike_advanceMany (n : Nat) : Alike SameWords (advanceMany n) (advanceMany n) := by
  induction n with
  | zero => exact .pure rfl
  | succ n ih =>
      exact alike_advance.bind fun t t' ht => ih.bind fun ts ts' hts =>
        .pure (by simpa [SameWords] using ⟨ht, hts⟩)

theorem alike_atType : Alike Eq atType atType :=
  fun ts ts' hs => .ok (by rw [hs.typeLength]) hs

theorem alike_typeSpecifier : Alike Eq typeSpecifier typeSpecifier := by
  apply alike_get.bind
  intro ts ts' hts
  rw [hts.typeLength]
  apply RunsAlike.ite (alike_unexpected _)
  apply (alike_advanceMany _).bind
  intro us us' hus
  have htexts : us.map Token.text = us'.map Token.text := by
    simpa [Function.comp_def] using congrArg (List.map Word.text) hus
  rw [htexts]
  exact .pure rfl

end Read

/-! ## Expressions -/

def Expr.Like (e e' : Expr) : Prop :=
  e'.forget = e.forget

/-- Two lists of expressions are the same, places aside. -/
def Expr.AllLike (es es' : List Expr) : Prop :=
  Expr.forgetList es' = Expr.forgetList es

namespace Expr.Like

variable {l l' : Location} {e e' f f' : Expr} {es es' : List Expr}

theorem cons (h : e.Like e') (hs : Expr.AllLike es es') : Expr.AllLike (e :: es) (e' :: es') := by
  simp_all [Expr.Like, Expr.AllLike, forgetList]

theorem call (h : e.Like e') (hs : Expr.AllLike es es') : (call l e es).Like (call l' e' es') := by
  simp_all [Expr.Like, Expr.AllLike, forget]

theorem member (h : e.Like e') (name : String) : (member l e name).Like (member l' e' name) := by
  simp_all [Expr.Like, forget]

theorem unary (h : e.Like e') (operator : String) (before : Bool) :
    (unary l operator e before).Like (unary l' operator e' before) := by
  simp_all [Expr.Like, forget]

theorem binary (h : e.Like e') (operator : String) (h' : f.Like f') :
    (binary l operator e f).Like (binary l' operator e' f') := by
  simp_all [Expr.Like, forget]

theorem assign (h : e.Like e') (operator : String) (h' : f.Like f') :
    (assign l operator e f).Like (assign l' operator e' f') := by
  simp_all [Expr.Like, forget]

end Expr.Like

namespace ExprGrammar

open Read

/-- What can be read one level further down ends alike over the same words. -/
structure Inner.Even (i : Inner) : Prop where
  expression : ∀ depth, Alike Expr.Like (i.expression depth) (i.expression depth)
  leading : ∀ depth, Alike Expr.Like (i.leading depth) (i.leading depth)

section Levels

variable {α : Type} {R : α → α → Prop} {inner : Option Inner}

theorem alike_tooDeep (limit : Nat) : Alike R (tooDeep limit) (tooDeep limit) :=
  alike_stopAt fun _ _ _ => rfl

theorem alike_descend (h : ∀ i ∈ inner, i.Even) (depth : Nat) {body : Inner → Nat → Read α}
    (hbody : ∀ i d, i.Even → Alike R (body i d) (body i d)) :
    Alike R (descend inner depth body) (descend inner depth body) := by
  cases inner with
  | none => exact alike_tooDeep maxNesting
  | some i => exact RunsAlike.ite (alike_tooDeep maxTreeDepth) (hbody i _ (h i rfl))

theorem alike_number {t t' : Token} (h : SameWord t t') :
    Alike Expr.Like (number t) (number t') := by
  rw [number, number, h.text]
  split
  · exact .pure rfl
  · exact .stop (.unreadable _)

theorem nameOrPin_like {t t' : Token} (h : SameWord t t') :
    (nameOrPin t).Like (nameOrPin t') := by
  rw [nameOrPin, nameOrPin, h.text]
  split <;> rfl

theorem alike_primary (h : ∀ i ∈ inner, i.Even) (depth : Nat) :
    Alike Expr.Like (primary inner depth) (primary inner depth) := by
  apply alike_peek.bind
  intro t t' ht
  rw [ht.kind]
  have hword : ∀ f : Token → Expr, (∀ t t', SameWord t t' → (f t).Like (f t')) →
      Alike Expr.Like (advance >>= fun t => pure (f t)) (advance >>= fun t => pure (f t)) :=
    fun f hf => alike_advance.bind fun t t' ht => .pure (hf t t' ht)
  split
  · exact alike_advance.bind fun t t' ht => alike_number ht
  · apply hword
    intro t t' ht
    simp [Expr.Like, Expr.forget, ht.text]
  iterate 6
    · apply hword
      intro t t' ht
      simp [Expr.Like, Expr.forget, ht.text]
  · exact hword nameOrPin fun t t' ht => nameOrPin_like ht
  · apply alike_advance.bind
    intro _ _ _
    apply (alike_descend h depth fun i d hi => hi.expression d).bind
    intro e e' he
    exact (alike_expect _ _).bind fun _ _ _ => .pure he
  · exact alike_unexpected _

theorem alike_moreArguments {argument : Read Expr} (h : Alike Expr.Like argument argument)
    (fuel : Nat) :
    Alike Expr.AllLike (moreArguments argument fuel) (moreArguments argument fuel) := by
  induction fuel with
  | zero => exact .pure rfl
  | succ fuel ih =>
      apply (alike_acceptKind _).bindOption
      · exact .pure rfl
      · intro _ _ _
        exact h.bind fun e e' he => ih.bind fun es es' hes => .pure (he.cons hes)

theorem alike_arguments {argument : Read Expr} (h : Alike Expr.Like argument argument) :
    Alike Expr.AllLike (arguments argument) (arguments argument) := by
  apply (alike_peekKind 0).bind
  rintro kind _ rfl
  apply RunsAlike.ite
  · exact .pure rfl
  · apply h.bind
    intro e e' he
    apply alike_remaining.bind
    rintro fuel _ rfl
    exact (alike_moreArguments h fuel).bind fun es es' hes => .pure (he.cons hes)

theorem alike_trailers (h : ∀ i ∈ inner, i.Even) (depth fuel : Nat) {e e' : Expr}
    (he : e.Like e') :
    Alike Expr.Like (trailers inner depth fuel e) (trailers inner depth fuel e') := by
  induction fuel generalizing e e' with
  | zero => exact .pure he
  | succ fuel ih =>
      apply (alike_peekKind 0).bind
      rintro kind _ rfl
      apply RunsAlike.ite
      · apply alike_advance.bind
        intro _ _ _
        apply (alike_descend h depth fun i d hi => alike_arguments (hi.expression d)).bind
        intro es es' hes
        exact (alike_expect _ _).bind fun _ _ _ => ih (he.call hes)
      apply RunsAlike.ite
      · apply alike_advance.bind
        intro _ _ _
        apply (alike_expect _ _).bind
        intro t t' ht
        rw [ht.text]
        exact ih (he.member _)
      apply RunsAlike.ite
      · apply alike_advance.bind
        intro t t' ht
        rw [ht.text]
        exact ih (he.unary _ false)
      · exact .pure he

theorem alike_trailing (h : ∀ i ∈ inner, i.Even) (depth : Nat) :
    Alike Expr.Like (trailing inner depth) (trailing inner depth) := by
  apply (alike_primary h depth).bind
  intro e e' he
  apply alike_remaining.bind
  rintro fuel _ rfl
  exact alike_trailers h depth fuel he

theorem alike_leading (h : ∀ i ∈ inner, i.Even) (depth : Nat) :
    Alike Expr.Like (leading inner depth) (leading inner depth) := by
  apply (alike_accept _).bindOption
  · exact alike_trailing h depth
  · intro t t' ht
    apply (alike_descend h depth fun i d hi => hi.leading d).bind
    intro e e' he
    rw [ht.text]
    exact .pure (he.unary _ true)

theorem alike_chainRest {operand : Nat → Read Expr}
    (h : ∀ depth, Alike Expr.Like (operand depth) (operand depth)) (operators : TokenKind → Bool)
    (fuel depth : Nat) {e e' : Expr} (he : e.Like e') :
    Alike Expr.Like (chainRest operand operators fuel depth e)
      (chainRest operand operators fuel depth e') := by
  induction fuel generalizing depth e e' with
  | zero => exact .pure he
  | succ fuel ih =>
      apply (alike_accept _).bindOption
      · exact .pure he
      · intro t t' ht
        apply RunsAlike.ite
        · exact .stop (.misread rfl)
        · apply (h _).bind
          intro right right' hright
          rw [ht.text]
          exact ih _ (he.binary _ hright)

theorem alike_chains {operand : Nat → Read Expr}
    (h : ∀ depth, Alike Expr.Like (operand depth) (operand depth)) (levels : List (List TokenKind))
    (depth : Nat) : Alike Expr.Like (chains operand levels depth) (chains operand levels depth) := by
  induction levels generalizing depth with
  | nil => exact h depth
  | cons operators tighter ih =>
      apply (ih depth).bind
      intro e e' he
      apply alike_remaining.bind
      rintro fuel _ rfl
      exact alike_chainRest ih _ fuel depth he

theorem alike_assignment (h : ∀ i ∈ inner, i.Even) (depth : Nat) :
    Alike Expr.Like (assignment inner depth) (assignment inner depth) := by
  apply (alike_chains (alike_leading h) levels depth).bind
  intro e e' he
  apply (alike_accept _).bindOption
  · exact .pure he
  · intro t t' ht
    apply (alike_descend h depth fun i d hi => hi.expression d).bind
    intro value value' hvalue
    rw [ht.text]
    exact .pure (he.assign _ hvalue)

end Levels

/-- By induction on the levels of nesting that are left. -/
theorem even_inner? (levelsLeft : Nat) : ∀ i ∈ inner? levelsLeft, i.Even := by
  induction levelsLeft with
  | zero => exact nofun
  | succ n ih =>
      intro i hi
      obtain rfl := Option.some.inj hi
      exact ⟨alike_assignment ih, alike_leading ih⟩

theorem alike_expression (levelsLeft depth : Nat) :
    Alike Expr.Like (expression levelsLeft depth) (expression levelsLeft depth) :=
  alike_assignment (even_inner? levelsLeft) depth

end ExprGrammar

end InoBlocks
