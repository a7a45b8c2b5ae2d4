import InoBlocks.Proofs.Sketch.PhraseReading
import InoBlocks.Proofs.Sketch.Tidy

/-!
# Short expressions reach no limit

The readers of expressions go down a level only behind a token that makes them, and each operator
of a chain is a token.  So a limit of nesting is reached only behind as many tokens as there were
levels left, and a phrase with fewer words than that is read.
-/

namespace InoBlocks

namespace ExprGrammar

open Read

/-! ## Reaching a limit -/

/-- If a run stops for a limit of nesting, at least `n` of `length` tokens are taken. -/
def Digs {α : Type} (n length : Nat) (r : EStateM.Result Stop (List Token) α) : Prop :=
  ∀ fault us, r = .error (.misread fault) us → fault.IsNesting → us.length + n ≤ length

namespace Digs

variable {α β : Type} {n m length length' : Nat} {ts : List Token}

theorem of_ok {a : α} {us : List Token} : Digs n length (.ok a us) := by
  intro fault vs h
  cases h

theorem weaken {r : EStateM.Result Stop (List Token) α} (h : Digs m length' r)
    (hle : n + length' ≤ m + length) : Digs n length r := by
  intro fault us hr hnesting
  have := h fault us hr hnesting
  omega

theorem bind {x : Read α} {f : α → Read β} (hx : Digs n length (x ts))
    (hf : ∀ a us, x ts = .ok a us → Digs n length (f a us)) : Digs n length ((x >>= f) ts) := by
  cases hrun : x ts with
  | ok a us =>
      rw [bind_ok hrun]
      exact hf a us hrun
  | error stop us =>
      rw [bind_error hrun]
      rw [hrun] at hx
      intro fault vs h
      cases h
      exact hx fault us rfl

theorem stopAt {cause : Token → Cause} (h : ∀ t limit, cause t ≠ .nestedTooDeep limit) :
    Digs n length ((Read.stopAt cause : Read α) ts) := by
  intro fault us hr hnesting
  obtain ⟨limit, hlimit⟩ := hnesting
  cases hr
  exact absurd hlimit (h _ limit)

theorem accept {wanted : TokenKind → Bool} : Digs n length (accept wanted ts) := by
  unfold Read.accept
  refine bind of_ok fun kind us hus => ?_
  split
  · refine bind ?_ fun _ _ _ => of_ok
    cases us with
    | nil => exact of_ok
    | cons t us =>
        rw [advance]
        split <;> exact of_ok
  · exact of_ok

theorem expect {kind : TokenKind} {what : String} : Digs n length (expect kind what ts) := by
  unfold Read.expect
  refine bind of_ok fun found us hus => ?_
  split
  · cases us with
    | nil => exact of_ok
    | cons t us =>
        rw [advance]
        split <;> exact of_ok
  · refine stopAt fun t limit h => ?_
    cases h

end Digs

/-! ## Levels that are left -/

/-- How many levels can be gone down, with so many left, at a depth. -/
def levelsTo (levelsLeft depth : Nat) : Nat :=
  min (levelsLeft + 1) (maxTreeDepth - depth)

/-- A reader reaches a limit only behind as many tokens as there are levels at its depth. -/
def DigsAll {α : Type} (levelsLeft : Nat) (x : Nat → Read α) : Prop :=
  ∀ depth ts, Digs (levelsTo levelsLeft depth) ts.length (x depth ts)

/-- What is read below reaches a limit only behind as many tokens as there are levels. -/
def DigsBelow (levelsLeft : Nat) (inner : Option Inner) : Prop :=
  (levelsLeft = 0 ∧ inner = none) ∨
    ∃ k i, levelsLeft = k + 1 ∧ inner = some i ∧ DigsAll k i.expression ∧ DigsAll k i.leading

/-! ## The readers of expressions -/

section Below

variable {k : Nat} {inner : Option Inner}

theorem digs_descend {α : Type} (h : DigsBelow k inner) (depth : Nat) {body : Inner → Nat → Read α}
    (ts : List Token)
    (hbody : ∀ k' i, inner = some i → DigsAll k' i.expression → DigsAll k' i.leading →
      DigsAll k' (body i)) :
    Digs (levelsTo k depth) (ts.length + 1) (descend inner depth body ts) := by
  have hstop : ∀ limit, levelsTo k depth ≤ 1 →
      Digs (levelsTo k depth) (ts.length + 1) ((tooDeep limit : Read α) ts) := by
    intro limit hle fault us hr _
    cases hr
    omega
  rcases h with ⟨rfl, rfl⟩ | ⟨k', i, rfl, rfl, hexpression, hleading⟩
  · exact hstop _ (Nat.min_le_left _ _)
  · rw [descend]
    split
    · exact hstop _ (by rw [levelsTo]; omega)
    · refine (hbody k' i rfl hexpression hleading (depth + 1) ts).weaken ?_
      simp only [levelsTo]
      omega

theorem digs_moreArguments {n length : Nat} {argument : Read Expr}
    (htidy : TidyPhrase argument)
    (h : ∀ ts, ts.length ≤ length → Digs n length (argument ts)) (fuel : Nat) (ts : List Token)
    (hts : ts.length ≤ length) : Digs n length (moreArguments argument fuel ts) := by
  induction fuel generalizing ts with
  | zero => exact .of_ok
  | succ fuel ih =>
      refine Digs.bind .accept fun found us hus => ?_
      have hle := ((Tidy.acceptKind (by rfl) : TidyPhrase _).takes.passes_ok hus).length_le
      cases found with
      | none => exact .of_ok
      | some _ =>
          refine Digs.bind (h us (by omega)) fun e vs hvs => ?_
          have hle' := (htidy.takes.passes_ok hvs).length_le
          exact Digs.bind (ih vs (by omega)) fun _ _ _ => .of_ok

theorem digs_arguments {argument : Nat → Read Expr} (htidy : ∀ depth, TidyPhrase (argument depth))
    (h : DigsAll k argument) : DigsAll k fun depth => arguments (argument depth) := by
  intro depth ts
  have hshort : ∀ us : List Token, us.length ≤ ts.length →
      Digs (levelsTo k depth) ts.length (argument depth us) :=
    fun us hus => (h depth us).weaken (by omega)
  unfold arguments
  refine Digs.bind .of_ok fun kind us hus => ?_
  cases hus
  split
  · exact .of_ok
  · refine Digs.bind (h depth ts) fun e us hus => ?_
    have hle := ((htidy depth).takes.passes_ok hus).length_le
    refine Digs.bind .of_ok fun n vs hvs => ?_
    cases hvs
    exact Digs.bind (digs_moreArguments (htidy depth) hshort _ us hle) fun _ _ _ => .of_ok

theorem digs_primary (h : DigsBelow k inner) : DigsAll k (primary inner) := by
  intro depth ts
  cases ts with
  | nil =>
      have hstop : ∀ (t : Token) limit, Cause.unexpectedToken (spelling t) (some "expression") ≠
          .nestedTooDeep limit := fun _ _ => nofun
      exact Digs.stopAt hstop
  | cons t ts =>
      by_cases hparen : t.kind = .leftParen
      · rw [primary_group inner depth ts hparen]
        refine Digs.bind (digs_descend h depth ts fun _ _ _ he _ => he) fun _ _ _ => ?_
        exact Digs.bind .expect fun _ _ _ => .of_ok
      · rw [primary, bind_ok (peek_cons t ts)]
        have hadvance : ∀ {f : Token → Read Expr}, (∀ us, Digs (levelsTo k depth)
            (t :: ts).length (f t us)) →
            Digs (levelsTo k depth) (t :: ts).length ((advance >>= f) (t :: ts)) := by
          intro f hf
          refine Digs.bind ?_ fun u us hus => ?_
          · rw [advance]
            split <;> exact .of_ok
          · rw [advance] at hus
            split at hus <;> cases hus <;> exact hf _
        have hnumber : ∀ us, Digs (levelsTo k depth) (t :: ts).length (number t us) := by
          intro us
          unfold number
          cases Number.double? t.text with
          | some value => exact .of_ok
          | none =>
              intro fault vs hr
              cases hr
        cases hkind : t.kind <;>
          first
          | exact hadvance fun _ => .of_ok
          | exact hadvance hnumber
          | exact absurd hkind hparen
          | exact Digs.stopAt fun _ _ => nofun

theorem digs_trailers (htidy : TidyWithin inner) (h : DigsBelow k inner) (depth fuel : Nat)
    (e : Expr) (ts : List Token) :
    Digs (levelsTo k depth) ts.length (trailers inner depth fuel e ts) := by
  induction fuel generalizing e ts with
  | zero => exact .of_ok
  | succ fuel ih =>
      cases ts with
      | nil => exact .of_ok
      | cons t ts =>
          -- A step that takes the token and goes on behind it.
          have hrest : ∀ {us : List Token} (e : Expr), us.length ≤ ts.length →
              Digs (levelsTo k depth) (t :: ts).length (trailers inner depth fuel e us) :=
            fun e hus => (ih e _).weaken (by simp only [List.length_cons]; omega)
          by_cases hparen : t.kind = .leftParen
          · rw [trailers_call hparen]
            have htidy' : TidyPhrase (descend inner depth fun i d => arguments (i.expression d)) :=
              tidy_descend htidy depth fun _ _ he _ => tidy_arguments he
            refine Digs.bind (digs_descend h depth ts fun k' i hi he _ =>
              digs_arguments (fun d => (htidy i hi d).1) he) fun es us hus => ?_
            have hle := (htidy'.takes.passes_ok hus).length_le
            refine Digs.bind .expect fun _ vs hvs => hrest _ ?_
            have hle' := ((Tidy.expect (by rfl) (by decide) : TidyPhrase _).takes.passes_ok hvs).length_le
            omega
          · by_cases hdot : t.kind = .dot
            · rw [trailers, bind_ok (peekKind_apply 0 _), kindAt_cons, hdot, if_neg (by decide),
                if_pos (by decide), bind_ok (advance_cons (by rw [hdot]; decide))]
              refine Digs.bind .expect fun _ vs hvs => hrest _ ?_
              exact ((Tidy.expect (by rfl) (by decide) : TidyPhrase _).takes.passes_ok hvs).length_le
            · by_cases htrailing : isTrailing t.kind = true
              · rw [trailers_step htrailing]
                exact hrest _ (Nat.le_refl _)
              · rw [trailers, bind_ok (peekKind_apply 0 _), kindAt_cons,
                  if_neg (by simpa using hparen), if_neg (by simpa using hdot), if_neg htrailing]
                exact .of_ok

theorem digs_trailing (htidy : TidyWithin inner) (h : DigsBelow k inner) :
    DigsAll k (trailing inner) := by
  intro depth ts
  refine Digs.bind (digs_primary h depth ts) fun e us hus => ?_
  have hle := ((tidy_primary htidy depth).takes.passes_ok hus).length_le
  refine Digs.bind .of_ok fun n vs hvs => ?_
  cases hvs
  exact (digs_trailers htidy h depth _ e us).weaken (by omega)

theorem digs_leading (htidy : TidyWithin inner) (h : DigsBelow k inner) :
    DigsAll k (leading inner) := by
  intro depth ts
  refine Digs.bind .accept fun found us hus => ?_
  have hshort : us.length ≤ ts.length ∧ (found.isSome → us.length + 1 ≤ ts.length) := by
    rcases accept_eq_ok hus with ⟨rfl, rfl, -⟩ | ⟨t, rfl, rfl, -⟩ | hend
    · exact ⟨Nat.le_refl _, nofun⟩
    · simp
    · cases hend
  cases found with
  | none => exact (digs_trailing htidy h depth us).weaken (by omega)
  | some t =>
      have hle := hshort.2 rfl
      exact Digs.bind ((digs_descend h depth us fun _ _ _ _ hl => hl).weaken (by omega))
        fun _ _ _ => .of_ok

theorem digs_chainRest {operand : Nat → Read Expr} {operators : TokenKind → Bool}
    (htidy : ∀ depth, TidyPhrase (operand depth)) (h : DigsAll k operand)
    (hend : operators .endOfInput = false) (fuel depth : Nat) (e : Expr) (ts : List Token) :
    Digs (levelsTo k depth) ts.length (chainRest operand operators fuel depth e ts) := by
  induction fuel generalizing depth e ts with
  | zero => exact .of_ok
  | succ fuel ih =>
      refine Digs.bind .accept fun found us hus => ?_
      rcases accept_eq_ok hus with ⟨rfl, rfl, -⟩ | ⟨t, rfl, rfl, -⟩ | hwanted
      · exact .of_ok
      · dsimp only
        split
        · intro fault vs hr _
          cases hr
          simp only [levelsTo, List.length_cons]
          omega
        · refine Digs.bind ((h (depth + 1) us).weaken ?_) fun right vs hvs => ?_
          · simp only [levelsTo, List.length_cons]
            omega
          · have hle := ((htidy _).takes.passes_ok hvs).length_le
            refine (ih (depth + 1) _ vs).weaken ?_
            simp only [levelsTo, List.length_cons]
            omega
      · rw [hend] at hwanted
        cases hwanted

theorem digs_chains {operand : Nat → Read Expr} (htidy : ∀ depth, TidyPhrase (operand depth))
    (h : DigsAll k operand) {levels : List (List TokenKind)}
    (hlevels : ∀ operators ∈ levels, ∀ kind ∈ operators, kind.inPhrase = true) :
    DigsAll k (chains operand levels) := by
  induction levels with
  | nil => exact h
  | cons operators tighter ih =>
      obtain ⟨hoperators, htighter⟩ := List.forall_mem_cons.mp hlevels
      have hend : operators.contains .endOfInput = false := by
        rw [← Bool.not_eq_true]
        exact fun hmem => absurd (hoperators _ (by simpa using hmem)) (by decide)
      have htidy' := tidy_chains htidy htighter
      intro depth ts
      refine Digs.bind (ih htighter depth ts) fun e us hus => ?_
      have hle := ((htidy' depth).takes.passes_ok hus).length_le
      refine Digs.bind .of_ok fun n vs hvs => ?_
      cases hvs
      exact (digs_chainRest htidy' (ih htighter) hend _ depth e us).weaken (by omega)

theorem digs_assignment (htidy : TidyWithin inner) (h : DigsBelow k inner) :
    DigsAll k (assignment inner) := by
  intro depth ts
  have hchains : ∀ d, TidyPhrase (chains (leading inner) levels d) :=
    tidy_chains (tidy_leading htidy) (by decide)
  refine Digs.bind (digs_chains (tidy_leading htidy) (digs_leading htidy h) (by decide) depth ts)
    fun e us hus => ?_
  have hle := ((hchains depth).takes.passes_ok hus).length_le
  refine Digs.bind .accept fun found vs hvs => ?_
  rcases accept_eq_ok hvs with ⟨rfl, rfl, -⟩ | ⟨t, rfl, rfl, -⟩ | hwanted
  · exact .of_ok
  · refine Digs.bind ((digs_descend h depth vs fun _ _ _ he _ => he).weaken ?_)
      fun _ _ _ => .of_ok
    simp only [List.length_cons] at hle
    omega
  · cases hwanted

end Below

theorem digsBelow_inner? (k : Nat) : DigsBelow k (inner? k) := by
  induction k with
  | zero => exact Or.inl ⟨rfl, rfl⟩
  | succ k ih =>
      have htidy := tidyWithin_inner? k
      exact Or.inr ⟨k, _, rfl, rfl, digs_assignment htidy ih, digs_leading htidy ih⟩

/-- A limit of nesting is reached only behind as many tokens as there are levels left. -/
theorem digs_expression (levelsLeft : Nat) : DigsAll levelsLeft (expression levelsLeft) :=
  digs_assignment (tidyWithin_inner? levelsLeft) (digsBelow_inner? levelsLeft)

/-- A phrase of fewer words than there are levels left is read. -/
theorem expression_ok {ws : List Word} {e : Expr} (h : Phrase 1 ws e) {levelsLeft depth : Nat}
    (hlevels : ws.length ≤ levelsLeft) (hdepth : ws.length + depth < maxTreeDepth)
    {us : List Token} (hus : us.map Token.word = ws) {rest : List Token}
    (hrest : (kindAt 0 rest).joins = 0) :
    ∃ e', e'.forget = e.forget ∧ expression levelsLeft depth (us ++ rest) = .ok e' rest := by
  rcases expression_reads h levelsLeft depth hus rest hrest with
    ⟨fault, vs, hfault, -, herror⟩ | hok
  · have hdigs := digs_expression levelsLeft depth (us ++ rest) fault _ herror hfault
    have hlength := congrArg List.length hus
    simp only [levelsTo, List.length_append, List.length_map] at hdigs hlength
    omega
  · exact hok

end ExprGrammar

end InoBlocks
