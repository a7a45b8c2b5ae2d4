import InoBlocks.Proofs.Sketch.Yields
import InoBlocks.Proofs.Token.Respacing

/-!
# Where the parts of a sketch come from

What a sketch is made of, as it is read from any text: functions and declarations whose statements
have the parts that their form asks for, even where faults were recovered from.  Every expression in
them is a phrase of some words of the text that stand side by side, those in a function behind its
header, and every declared name and type is made of such words.

In the grammar every expression is followed by a delimiter, so none of its words is a literal that
the end of the text cuts off; that is why each reader below is looked at together with what it
expects next.
-/

namespace InoBlocks

open Read ExprGrammar

namespace Token

/-- Tokens as the lexer cuts them from a text, comments left out. -/
structure IsCut (ts : List Token) : Prop where
  steady : Steady ts
  lexed : ∀ t ∈ ts, t.kind ≠ .endOfInput → t.word.Lexed

theorem IsCut.suffix {ts us : List Token} (h : IsCut ts) (hus : us <:+ ts) : IsCut us :=
  ⟨h.steady.suffix hus, fun t ht => h.lexed t (hus.subset ht)⟩

theorem IsCut.firm {ts : List Token} (h : IsCut ts) {t : Token} (ht : t ∈ ts)
    (hend : t.kind ≠ .endOfInput) (hstring : t.kind ≠ .string) : t.word.Firm :=
  (h.lexed t ht hend).firm hstring

theorem isCut_significant (source file : String) : IsCut (significant source file) := by
  refine ⟨steady_significant source file, fun t ht hend => ?_⟩
  have hword : t.word ∈ (significant source file).map word := List.mem_map_of_mem ht
  rw [Word.significant_word, List.mem_append, List.mem_singleton] at hword
  rcases hword with hword | hword
  · exact Word.lexed_of_mem hword
  · exact absurd (congrArg Word.kind hword) hend

end Token

/-! ## The shape of what is read -/

namespace Expr

/-- An expression that is a phrase of firm words that stand side by side in a list of tokens. -/
def IsReadIn (ts : List Token) (e : Expr) : Prop :=
  ∃ us, us <:+: ts ∧ (∀ t ∈ us, t.word.Firm) ∧ Phrase 1 (us.map Token.word) e

/-- An expression that is not there, or one that is read. -/
def IsReadIfAny (ts : List Token) (e : Expr) : Prop :=
  e = .empty ∨ e.IsReadIn ts

end Expr

/-- The spelling of a type: its words, parted by one blank. -/
def IsTypeText (type : String) : Prop :=
  ∃ ws : List Word, ws ≠ [] ∧ (∀ w ∈ ws, w.kind.beginsType = true ∧ w.Firm) ∧
    type = " ".intercalate (ws.map Word.text)

/-- A type and a name as they are declared. -/
structure IsDeclared (type name : String) : Prop where
  type : IsTypeText type
  name : Word.Firm ⟨.identifier, name⟩

namespace Node

/-- What stands first in the header of a loop, as the grammar reads it from tokens. -/
inductive IsInitIn (ts : List Token) : Node → Prop where
  | absent : IsInitIn ts .empty
  | declaration (l : Location) {type name : String} {e : Expr} (hdeclared : IsDeclared type name)
      (h : e.IsReadIfAny ts) : IsInitIn ts (.declaration l type name e)
  | bare {e : Expr} (h : e.IsReadIn ts) : IsInitIn ts (.bare e)

/-- A statement as the grammar reads it from tokens.  Where a statement inside another could not be
read, there is none. -/
inductive IsStatementIn (ts : List Token) : Node → Prop where
  | effect (l : Location) {e : Expr} (h : e.IsReadIn ts) : IsStatementIn ts (.effect l e)
  | exit (l : Location) {e : Expr} (h : e.IsReadIfAny ts) : IsStatementIn ts (.exit l e)
  | declaration (l : Location) {type name : String} {e : Expr} (hdeclared : IsDeclared type name)
      (h : e.IsReadIfAny ts) : IsStatementIn ts (.declaration l type name e)
  | block (l : Location) {body : List Node} (h : ∀ n ∈ body, IsStatementIn ts n) :
      IsStatementIn ts (.block l body)
  | branch (l : Location) {test : Expr} {consequent alternative : Node} (htest : test.IsReadIn ts)
      (hthen : consequent ≠ .empty → IsStatementIn ts consequent)
      (helse : alternative ≠ .empty → IsStatementIn ts alternative) :
      IsStatementIn ts (.branch l test consequent alternative)
  | forLoop (l : Location) {init body : Node} {test update : Expr} (hinit : init.IsInitIn ts)
      (htest : test.IsReadIfAny ts) (hupdate : update.IsReadIfAny ts)
      (hbody : body ≠ .empty → IsStatementIn ts body) :
      IsStatementIn ts (.forLoop l init test update body)
  | whileLoop (l : Location) {test : Expr} {body : Node} (htest : test.IsReadIn ts)
      (hbody : body ≠ .empty → IsStatementIn ts body) : IsStatementIn ts (.whileLoop l test body)

/-- What stands beside others at the top of a sketch, as the grammar reads it from tokens.  The body
of a function is read from the tokens behind its parameters. -/
inductive IsTopLevelIn (ts : List Token) : Node → Prop where
  | function (l : Location) {name type : String} {ps : List Parameter} {body : Node}
      (hdeclared : IsDeclared type name) (hps : ∀ p ∈ ps, IsDeclared p.type p.name)
      {front back : List Token} (hts : ts = front ++ back)
      (hparen : ∃ t ∈ front, t.kind = .leftParen) (h : body.IsStatementIn back) :
      IsTopLevelIn ts (.function l name type ps body)
  | declaration (l : Location) {type name : String} {e : Expr} (hdeclared : IsDeclared type name)
      (h : e.IsReadIfAny ts) : IsTopLevelIn ts (.declaration l type name e)

end Node

/-! ## Expressions in front of a delimiter -/

/-- What a step over an end of a list of tokens returns has a property unless it comes to the end
mark. -/
def Delimited {α : Type} (ts : List Token) (x : Read α) (P : α → Prop) : Prop :=
  Takes TokenKind.isWord x ∧
    ∀ us a rest, us <:+ ts → x us = .ok a rest → kindAt 0 rest ≠ .endOfInput → P a

namespace Delimited

variable {α β : Type} {ts : List Token} {P : α → Prop}

theorem expect {x : Read α} (h : Delimited ts x P) {kind : TokenKind} (hkind : kind ≠ .endOfInput)
    {what : String} {f : α → Read β} {Q : β → Prop} (hf : ∀ a, P a → Yields (· <:+ ts) (f a) Q) :
    Yields (· <:+ ts) (x >>= fun a => Read.expect kind what >>= fun _ => f a) Q := by
  intro us hus
  have hx := h.1.yields ts us hus
  cases hrun : x us with
  | error stop vs =>
      rw [hrun] at hx
      rw [bind_error hrun]
      exact hx
  | ok a vs =>
      rw [hrun] at hx
      have hexpect := yields_expect hkind what ts vs hx.2
      rw [bind_ok hrun]
      cases hdelimiter : Read.expect kind what vs with
      | error stop rest =>
          rw [hdelimiter] at hexpect
          rw [bind_error hdelimiter]
          exact hexpect
      | ok t rest =>
          rw [hdelimiter] at hexpect
          rw [bind_ok hdelimiter]
          obtain ⟨rfl, ht⟩ := expect_eq_ok hkind hdelimiter
          exact hf a (h.2 us a _ hus hrun (by rw [kindAt_cons, ht]; exact hkind)) rest hexpect.2

theorem expression (hts : Token.IsCut ts) (levelsLeft depth : Nat) :
    Delimited ts (expression levelsLeft depth) (Expr.IsReadIn ts) := by
  refine ⟨(tidy_expression levelsLeft depth).takes.mono fun _ => TokenKind.isWord_of_inPhrase, ?_⟩
  intro us e rest hus hok hrest
  obtain ⟨vs, rfl, hphrase⟩ := expression_sound levelsLeft depth us e rest hok
  refine ⟨vs, (List.prefix_append vs rest).isInfix.trans hus.isInfix, fun t ht => ?_, hphrase⟩
  obtain ⟨d, rest', rfl⟩ := exists_cons_of_kindAt hrest
  refine (hts.steady.suffix hus).firm List.mem_cons_self hrest ht fun hcomment => ?_
  have hphrased := hphrase.inPhrase t.word (List.mem_map_of_mem ht)
  rw [Token.word_kind, hcomment] at hphrased
  cases hphrased

theorem unlessAt (kind : TokenKind) {x : Read Expr} (h : Delimited ts x (Expr.IsReadIn ts)) :
    Delimited ts (Grammar.unlessAt kind x) (Expr.IsReadIfAny ts) := by
  refine ⟨fun k => .peekKind_bind <| .ite (fun _ => Takes.pure _ k) fun _ => h.1 k, ?_⟩
  intro us e rest hus hok hrest
  rw [Grammar.unlessAt, bind_ok (peekKind_apply 0 us)] at hok
  split at hok
  · cases hok
    exact Or.inl rfl
  · exact Or.inr (h.2 us e rest hus hok hrest)

theorem initialValue {x : Read Expr} (h : Delimited ts x (Expr.IsReadIn ts)) :
    Delimited ts (Grammar.initialValue x) (Expr.IsReadIfAny ts) := by
  have haccept : Takes TokenKind.isWord (acceptKind .assign) := (Tidy.acceptKind rfl).takes
  constructor
  · refine haccept.bind fun found => ?_
    cases found with
    | none => exact Takes.pure _
    | some _ => exact h.1
  · intro us e rest hus hok hrest
    rw [Grammar.initialValue] at hok
    obtain ⟨found, vs, hrun, hfound⟩ := bind_eq_ok hok
    have hvs := (haccept.passes_ok hrun).suffix.trans hus
    cases found with
    | none =>
        cases hfound
        exact Or.inl rfl
    | some _ => exact Or.inr (h.2 vs e rest hvs hfound hrest)

theorem bareInit {x : Read Expr} (h : Delimited ts x (Expr.IsReadIn ts)) :
    Delimited ts (Grammar.bareInit x) (Node.IsInitIn ts) := by
  refine ⟨fun k => .peekKind_bind <| .ite (fun _ => Takes.pure _ k) fun _ =>
    h.1.bind (fun _ => .pure _) k, ?_⟩
  intro us n rest hus hok hrest
  rw [Grammar.bareInit, bind_ok (peekKind_apply 0 us)] at hok
  split at hok
  · cases hok
    exact .absent
  · obtain ⟨e, vs, he, hend⟩ := bind_eq_ok hok
    cases hend
    exact .bare (h.2 us e _ hus he hrest)

end Delimited

/-! ## Declarations and loop headers -/

namespace Grammar

variable {ts : List Token}

theorem yields_typeSpecifier (hts : Token.IsCut ts) :
    Yields (· <:+ ts) typeSpecifier IsTypeText := by
  intro us hus
  have htake := Tidy.typeSpecifier.takes.yields ts us hus
  cases hrun : typeSpecifier us with
  | error stop vs =>
      rw [hrun] at htake
      exact htake
  | ok type vs =>
      rw [hrun] at htake
      refine ⟨?_, htake.2⟩
      have hfirm : ∀ t ∈ us, t.kind.beginsType = true → t.kind.beginsType = true ∧ t.word.Firm := by
        intro t ht hbegins
        refine ⟨hbegins, hts.firm (hus.subset ht) ?_ ?_⟩ <;> intro hkind <;>
          rw [hkind] at hbegins <;> cases hbegins
      cases us with
      | nil => cases hrun
      | cons t us =>
          rcases type_cases t us with h | ⟨h, hnext⟩ | ⟨h, t', us, rfl, h'⟩
          · rw [typeSpecifier_none h] at hrun
            cases hrun
          · rw [typeSpecifier_one h hnext] at hrun
            cases hrun
            exact ⟨[t.word], by simp, by simpa using hfirm t List.mem_cons_self h, rfl⟩
          · rw [typeSpecifier_two h h'] at hrun
            cases hrun
            have hunsigned : t.kind.beginsType = true := by rw [h]; rfl
            have hnamed : t'.kind.beginsType = true := by
              rw [TokenKind.beginsType, h', Bool.true_or]
            refine ⟨[t.word, t'.word], by simp, ?_, rfl⟩
            simpa using ⟨hfirm t List.mem_cons_self hunsigned,
              hfirm t' (List.mem_cons_of_mem t List.mem_cons_self) hnamed⟩

theorem isDeclared_of_mem (hts : Token.IsCut ts) {type : String} (htype : IsTypeText type)
    {t : Token} (ht : t ∈ ts ∧ t.kind = .identifier) : IsDeclared type t.text := by
  have hfirm := hts.firm ht.1 (by rw [ht.2]; decide) (by rw [ht.2]; decide)
  rw [Token.word, ht.2] at hfirm
  exact ⟨htype, hfirm⟩

section Clauses

variable (hts : Token.IsCut ts) {x : Read Expr} (h : Delimited ts x (Expr.IsReadIn ts))

include hts h

theorem yields_declaration :
    Yields (· <:+ ts) (declaration x) fun n =>
      ∃ l type name e, n = .declaration l type name e ∧ IsDeclared type name ∧
        e.IsReadIfAny ts := by
  refine Yields.bind (.still fun _ => ⟨_, rfl⟩) fun _ _ => ?_
  refine Yields.bind (yields_typeSpecifier hts) fun type htype => ?_
  refine (yields_expect (by decide) _ ts).bind fun t ht => ?_
  exact h.initialValue.expect (by decide) fun _ he =>
    .pure ⟨_, _, _, _, rfl, isDeclared_of_mem hts htype ht, he⟩

theorem yields_loopInit : Yields (· <:+ ts) (loopInit x) (Node.IsInitIn ts) := by
  have hdeclaration : Yields (· <:+ ts) (declaration x) (Node.IsInitIn ts) := by
    refine (yields_declaration hts h).mono ?_
    rintro n ⟨l, type, name, e, rfl, hdeclared, he⟩
    exact .declaration l hdeclared he
  refine Yields.bind (.still fun _ => ⟨_, rfl⟩) fun _ _ => Yields.ite hdeclaration ?_
  exact h.bareInit.expect (by decide) fun _ hn => .pure hn

theorem yields_loopHeader :
    Yields (· <:+ ts) (loopHeader x) fun header =>
      header.1.IsInitIn ts ∧ header.2.1.IsReadIfAny ts ∧ header.2.2.IsReadIfAny ts := by
  refine Yields.bind (yields_expect (by decide) _ ts) fun _ _ => ?_
  refine Yields.bind (yields_loopInit hts h) fun init hinit => ?_
  refine (h.unlessAt _).expect (by decide) fun test htest => ?_
  exact (h.unlessAt _).expect (by decide) fun update hupdate => .pure ⟨hinit, htest, hupdate⟩

omit hts

theorem yields_exit : Yields (· <:+ ts) (exit x) (Node.IsStatementIn ts) := by
  refine Yields.bind (Tidy.advance.takes.yields ts) fun _ _ => ?_
  exact (h.unlessAt _).expect (by decide) fun _ he => .pure (.exit _ he)

theorem yields_effect : Yields (· <:+ ts) (effect x) (Node.IsStatementIn ts) := by
  refine Yields.bind (.still fun _ => ⟨_, rfl⟩) fun _ _ => ?_
  exact h.expect (by decide) fun _ he => .pure (.effect _ he)

theorem yields_condition (opening closing : String) :
    Yields (· <:+ ts) (condition x opening closing) (Expr.IsReadIn ts) := by
  refine Yields.bind (yields_expect (by decide) _ ts) fun _ _ => ?_
  exact h.expect (by decide) fun _ he => .pure he

end Clauses

/-! ## Statements -/

abbrev YieldsStatement (ts : List Token) (x : Recover Node) : Prop :=
  Yields (·.tokens <:+ ts) x (Node.IsStatementIn ts)

abbrev YieldsStatement? (ts : List Token) (x : Recover (Option Node)) : Prop :=
  Yields (·.tokens <:+ ts) x fun found => ∀ n ∈ found, n.IsStatementIn ts

theorem yields_reading {α : Type} {x : Read α} {P : α → Prop} (h : Yields (· <:+ ts) x P) :
    Yields (·.tokens <:+ ts) (reading x) P := by
  intro s hs
  have hrun := h s.tokens hs
  rw [reading]
  cases hx : x s.tokens with
  | ok a us =>
      rw [hx] at hrun
      exact hrun
  | error stop us =>
      rw [hx] at hrun
      exact hrun

theorem yields_recovering (limit : Nat) {α : Type} {x : Recover α} {P : α → Prop}
    (h : Yields (·.tokens <:+ ts) x P) :
    Yields (·.tokens <:+ ts) (recovering limit x) fun found => ∀ a ∈ found, P a := by
  intro s hs
  have hrun := h s hs
  rw [recovering]
  cases hx : x s with
  | ok a s' =>
      rw [hx] at hrun
      exact ⟨by simpa using hrun.1, hrun.2⟩
  | error stop s' =>
      rw [hx] at hrun
      cases stop with
      | misread fault =>
          dsimp only
          rw [recover]
          by_cases hlimit : limit < s'.recoveries + 1
          · rw [if_pos hlimit]
            exact hrun
          · rw [if_neg hlimit]
            exact ⟨by simp, (passes_skipToBoundary s'.tokens).suffix.trans hrun⟩
      | unreadable text => exact hrun
      | exhausted => exact hrun

theorem yields_note (message : String) (l : Location) :
    Yields (·.tokens <:+ ts) (note message l) fun _ => True :=
  fun _ hs => ⟨trivial, hs⟩

theorem yields_statements {statement : Recover (Option Node)} (h : YieldsStatement? ts statement)
    (fuel : Nat) :
    Yields (·.tokens <:+ ts) (statements statement fuel) fun ns =>
      ∀ n ∈ ns, n.IsStatementIn ts := by
  induction fuel with
  | zero => exact .pure (by simp)
  | succ fuel ih =>
      refine (yields_reading (.still fun _ => ⟨_, rfl⟩)).bind fun _ _ => .ite (.pure (by simp)) ?_
      refine h.bind fun found hfound => ih.bind fun ns hns => .pure ?_
      intro n hn
      rcases List.mem_append.mp hn with hn | hn
      · exact hfound n (by simpa using hn)
      · exact hns n hn

theorem yields_block {statement : Recover (Option Node)} (h : YieldsStatement? ts statement) :
    YieldsStatement ts (block statement) := by
  refine (yields_reading (.still fun _ => ⟨_, rfl⟩)).bind fun _ _ => ?_
  refine (yields_reading (yields_expect (by decide) _ ts)).bind fun _ _ => ?_
  refine (yields_reading (.still fun _ => ⟨_, rfl⟩)).bind fun _ _ => ?_
  refine (yields_statements h _).bind fun body hbody => ?_
  refine (yields_reading (.still fun _ => ⟨_, rfl⟩)).bind fun _ _ => .ite ?_ ?_
  · exact (yields_note _ _).bind fun _ _ => .pure (.block _ hbody)
  · exact (yields_reading (Tidy.advance.takes.yields ts)).bind fun _ _ => .pure (.block _ hbody)

section Parts

variable {parts : Parts} (hexpression : Delimited ts parts.expression (Expr.IsReadIn ts))
  (hstatement : YieldsStatement? ts parts.statement)

include hstatement in
theorem yields_substatement :
    Yields (·.tokens <:+ ts) (substatement parts) fun n => n ≠ .empty → n.IsStatementIn ts := by
  refine hstatement.bind fun found hfound => .pure ?_
  cases found with
  | none => exact fun hne => absurd rfl hne
  | some n => exact fun _ => hfound n rfl

include hstatement in
theorem yields_alternative :
    Yields (·.tokens <:+ ts) (alternative parts) fun n => n ≠ .empty → n.IsStatementIn ts := by
  have haccept : Takes TokenKind.isWord (acceptKind .elseWord) := (Tidy.acceptKind rfl).takes
  refine (yields_reading (haccept.yields ts)).bind fun found _ => ?_
  cases found with
  | none => exact .pure fun hne => absurd rfl hne
  | some _ => exact yields_substatement hstatement

include hexpression hstatement

theorem yields_branch : YieldsStatement ts (branch parts) := by
  refine (yields_reading (Tidy.advance.takes.yields ts)).bind fun _ _ => ?_
  refine (yields_reading (yields_condition hexpression _ _)).bind fun test htest => ?_
  refine (yields_substatement hstatement).bind fun consequent hthen => ?_
  refine (yields_alternative hstatement).bind fun otherwise helse => .pure ?_
  exact .branch _ htest hthen helse

theorem yields_whileLoop : YieldsStatement ts (whileLoop parts) := by
  refine (yields_reading (Tidy.advance.takes.yields ts)).bind fun _ _ => ?_
  refine (yields_reading (yields_condition hexpression _ _)).bind fun test htest => ?_
  refine (yields_substatement hstatement).bind fun body hbody => .pure ?_
  exact .whileLoop _ htest hbody

variable (hts : Token.IsCut ts)

include hts

theorem yields_forLoop : YieldsStatement ts (forLoop parts) := by
  refine (yields_reading (Tidy.advance.takes.yields ts)).bind fun _ _ => ?_
  refine (yields_reading (yields_loopHeader hts hexpression)).bind fun header hheader => ?_
  obtain ⟨init, test, update⟩ := header
  obtain ⟨hinit, htest, hupdate⟩ := hheader
  refine (yields_substatement hstatement).bind fun body hbody => .pure ?_
  exact .forLoop _ hinit htest hupdate hbody

theorem yields_statementOf : YieldsStatement ts (statementOf parts) := by
  refine (yields_reading (.still fun _ => ⟨_, rfl⟩)).bind fun kind _ => ?_
  split
  · exact yields_branch hexpression hstatement
  · exact yields_forLoop hexpression hstatement hts
  · exact yields_whileLoop hexpression hstatement
  · exact yields_reading (yields_exit hexpression)
  · exact yields_block hstatement
  · refine .ite (yields_reading ((yields_declaration hts hexpression).mono ?_))
      (yields_reading (yields_effect hexpression))
    rintro n ⟨l, type, name, e, rfl, hdeclared, he⟩
    exact .declaration l hdeclared he

end Parts

theorem yields_statement (hts : Token.IsCut ts) (limit : Nat) (levelsLeft depth : Nat) :
    YieldsStatement? ts (statement limit levelsLeft depth) := by
  have hdeep : ∀ n : Nat, YieldsStatement ts (reading (tooDeep n)) := by
    intro n s hs
    exact hs
  induction levelsLeft generalizing depth with
  | zero => exact yields_recovering limit (hdeep _)
  | succ n ih =>
      refine yields_recovering limit (.ite (hdeep _) ?_)
      exact yields_statementOf (.expression hts _ _) (ih _) hts

/-! ## Functions -/

theorem yields_parameter (hts : Token.IsCut ts) :
    Yields (· <:+ ts) parameter fun p => IsDeclared p.type p.name := by
  refine Yields.bind (.still fun _ => ⟨_, rfl⟩) fun _ _ => ?_
  refine Yields.bind (yields_typeSpecifier hts) fun type htype => ?_
  exact (yields_expect (by decide) _ ts).bind fun t ht => .pure (isDeclared_of_mem hts htype ht)

theorem yields_moreParameters (hts : Token.IsCut ts) (fuel : Nat) :
    Yields (· <:+ ts) (moreParameters fuel) fun ps => ∀ p ∈ ps, IsDeclared p.type p.name := by
  induction fuel with
  | zero => exact .pure (by simp)
  | succ fuel ih =>
      have haccept : Takes TokenKind.isWord (acceptKind .comma) := (Tidy.acceptKind rfl).takes
      refine (haccept.yields ts).bind fun found _ => ?_
      cases found with
      | none => exact .pure (by simp)
      | some _ =>
          exact (yields_parameter hts).bind fun p hp => ih.bind fun ps hps =>
            .pure (List.forall_mem_cons.mpr ⟨hp, hps⟩)

theorem yields_parameterList (hts : Token.IsCut ts) :
    Yields (· <:+ ts) parameterList fun ps => ∀ p ∈ ps, IsDeclared p.type p.name := by
  have hlook : ∀ n, Yields (· <:+ ts) (peekKind n) fun _ => True := fun n =>
    .still fun _ => ⟨_, rfl⟩
  have hparameters : Yields (· <:+ ts) parameters fun ps => ∀ p ∈ ps, IsDeclared p.type p.name := by
    refine (hlook 0).bind fun _ _ => (hlook 1).bind fun _ _ => .ite ?_ (.ite (.pure (by simp)) ?_)
    · exact (Tidy.advance.takes.yields ts).bind fun _ _ => .pure (by simp)
    · refine (yields_parameter hts).bind fun p hp => ?_
      refine Yields.bind (.still fun _ => ⟨_, rfl⟩) fun _ _ => ?_
      exact (yields_moreParameters hts _).bind fun ps hps =>
        .pure (List.forall_mem_cons.mpr ⟨hp, hps⟩)
  refine Yields.bind (yields_expect (by decide) _ ts) fun _ _ => hparameters.bind fun ps hps => ?_
  exact (yields_expect (by decide) _ ts).bind fun _ _ => .pure hps

/-- The parameters of a function take a parenthesis. -/
theorem parameterList_eq_ok {us vs : List Token} {ps : List Parameter}
    (h : parameterList us = .ok ps vs) :
    ∃ front, us = front ++ vs ∧ ∃ t ∈ front, t.kind = .leftParen := by
  obtain ⟨t, rest, hopen, hrest⟩ := bind_eq_ok h
  obtain ⟨rfl, ht⟩ := expect_eq_ok (by decide) hopen
  have htake : Takes TokenKind.isWord
      (parameters >>= fun ps => expect .rightParen "')' after parameters" >>= fun _ => pure ps) :=
    takes_parameters.bind fun _ => (Tidy.expect rfl (by decide)).takes.bind fun _ => .pure _
  obtain ⟨front, rfl⟩ := (htake.passes_ok hrest).suffix
  exact ⟨t :: front, rfl, t, List.mem_cons_self, ht⟩

theorem yields_function (hts : Token.IsCut ts) (limit : Nat) :
    Yields (·.tokens <:+ ts) (function limit) (Node.IsTopLevelIn ts) := by
  refine (yields_reading (.still fun _ => ⟨_, rfl⟩)).bind fun l _ => ?_
  refine (yields_reading (yields_typeSpecifier hts)).bind fun type htype => ?_
  refine (yields_reading (yields_expect (by decide) _ ts)).bind fun t ht => ?_
  have hdeclared := isDeclared_of_mem hts htype ht
  intro s hs
  have hlist := yields_reading (yields_parameterList hts) s hs
  cases hrun : reading parameterList s with
  | error stop s' =>
      rw [hrun] at hlist
      rw [bind_error hrun]
      exact hlist
  | ok ps s' =>
      rw [hrun] at hlist
      rw [bind_ok hrun]
      obtain ⟨front, hfront, hparen⟩ : ∃ front, s.tokens = front ++ s'.tokens ∧
          ∃ t ∈ front, t.kind = .leftParen := by
        rw [reading] at hrun
        split at hrun
        · rename_i hok
          cases hrun
          exact parameterList_eq_ok hok
        · cases hrun
      obtain ⟨before, hbefore⟩ := hs
      have hsplit : ts = (before ++ front) ++ s'.tokens := by
        rw [← hbefore, hfront, List.append_assoc]
      have hopened : ∃ t ∈ before ++ front, t.kind = .leftParen :=
        hparen.imp fun _ ht => ⟨List.mem_append_right _ ht.1, ht.2⟩
      have hbody := yields_block (yields_statement (hts.suffix hlist.2) limit maxNesting 0) s'
        List.suffix_rfl
      cases hblock : block (statement limit maxNesting 0) s' with
      | error stop s'' =>
          rw [hblock] at hbody
          rw [bind_error hblock]
          exact hbody.trans hlist.2
      | ok body s'' =>
          rw [hblock] at hbody
          rw [bind_ok hblock]
          exact ⟨.function _ hdeclared hlist.1 hsplit hopened hbody.1, hbody.2.trans hlist.2⟩

theorem yields_topLevel (hts : Token.IsCut ts) (limit : Nat) :
    Yields (·.tokens <:+ ts) (topLevel limit) fun found => ∀ n ∈ found, n.IsTopLevelIn ts := by
  have hskip : Yields (·.tokens <:+ ts)
      (modify fun s => { s with tokens := skipSemicolons s.tokens } : Recover Unit)
      fun _ => True :=
    fun s hs => ⟨trivial, (passes_skipSemicolons s.tokens).suffix.trans hs⟩
  have hget : Yields (·.tokens <:+ ts) (get : Recover ReadState) fun _ => True :=
    fun s hs => ⟨trivial, hs⟩
  refine hskip.bind fun _ _ => hget.bind fun _ _ => .ite (.pure (by simp)) (.ite (.ite ?_ ?_) ?_)
  · exact (yields_function hts limit).bind fun n hn => .pure (by simpa using hn)
  · refine (yields_reading (yields_declaration hts (.expression hts _ _))).bind fun n hn => .pure ?_
    obtain ⟨l, type, name, e, rfl, hdeclared, he⟩ := hn
    simpa using Node.IsTopLevelIn.declaration l hdeclared he
  · exact (yields_reading (Tidy.advance.takes.yields ts)).bind fun _ _ => .pure (by simp)

/-! ## Sketches -/

theorem isTopLevelIn_of_mem_declarations (hts : Token.IsCut ts) (limit fuel : Nat) {s : ReadState}
    (hs : s.tokens <:+ ts) : ∀ n ∈ (declarations limit fuel s).1, n.IsTopLevelIn ts := by
  induction fuel generalizing s with
  | zero => simp [declarations]
  | succ fuel ih =>
      rw [declarations]
      split
      · simp
      · have hstep := yields_recovering limit (yields_topLevel hts limit) s hs
        split
        · rename_i found s' hrun
          rw [hrun] at hstep
          intro n hn
          rcases List.mem_append.mp hn with hn | hn
          · obtain rfl : found = some (some n) :=
              Option.join_eq_some_iff.mp (Option.mem_toList.mp hn)
            exact hstep.1 (some n) rfl n rfl
          · exact ih hstep.2 n hn
        · simp

/-- The tokens of a text end with the mark of the end. -/
theorem significant_eq_append (source file : String) :
    ∃ ts p, Token.significant source file = ts ++ [Token.endAt p file] := by
  have htokens : ∀ cs p skip, ∃ ts q,
      Token.tokensFrom file true p skip cs = ts ++ [Token.endAt q file] := by
    intro cs
    induction cs with
    | nil => exact fun p _ => ⟨[], p, rfl⟩
    | cons c cs ih =>
        intro p skip
        cases skip with
        | succ skip => exact ih _ _
        | zero =>
            simp only [Token.tokensFrom, Bool.true_or, ↓reduceIte]
            split
            · exact ih _ _
            · split
              · exact ih _ _
              · rename_i kind more _
                obtain ⟨ts, q, hts⟩ := ih (p.advance c) more
                exact ⟨_ :: ts, q, congrArg (_ :: ·) hts⟩
  obtain ⟨ts, p, hts⟩ := htokens source.toList .start 0
  refine ⟨ts.filter Token.isSignificant, p, ?_⟩
  have hend : Token.isSignificant (Token.endAt p file) = true := rfl
  rw [Token.significant_eq_filter, Token.tokenize, hts, List.filter_append,
    List.filter_cons_of_pos hend, List.filter_nil]

/-- The tokens of a text are read as they are, without the comments. -/
theorem prepare_tokenize (source file : String) :
    prepare (Token.tokenize source file) file = Token.significant source file := by
  obtain ⟨ts, p, hts⟩ := significant_eq_append source file
  have hlast : (Token.significant source file).getLast? = some (Token.endAt p file) := by
    rw [hts, List.getLast?_concat]
  have hfilter := (Token.significant_eq_filter source file).symm
  unfold prepare
  simp only [hfilter, hlast]
  rfl

/-- A sketch, as it is read from any text, is made of functions and declarations that come from the
tokens of the text. -/
theorem isTopLevelIn_of_mem_body {source file : String} {limit : Nat} {n : Node}
    (hn : n ∈ (parse source file limit).program.body) :
    n.IsTopLevelIn (Token.significant source file) := by
  have hbody : ∀ n ∈ (parse source file limit).program.body,
      n.IsTopLevelIn (Token.significant source file) := by
    rw [parse, parseTokens, prepare_tokenize]
    exact isTopLevelIn_of_mem_declarations (Token.isCut_significant source file) limit _
      List.suffix_rfl
  exact hbody n hn

end Grammar

end InoBlocks
