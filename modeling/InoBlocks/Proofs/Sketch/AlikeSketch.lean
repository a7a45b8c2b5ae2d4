import InoBlocks.Proofs.Sketch.Alike
import InoBlocks.Proofs.Sketch.ClauseReading

/-!
# Two readings of a sketch over the same words

Statements and declarations are read alike over the same words, faults and recovery from them
included: a fault is recorded with its place, but what is passed over, how many faults are counted
and what is said about them depend on the words only.  So the layout of a sketch and the comments in
it change neither its tree, places aside, nor what is reported about it.
-/

namespace InoBlocks

def Diagnostic.said (d : Diagnostic) : Severity × String :=
  (d.severity, d.message)

def Findings.Like (f f' : Findings) : Prop :=
  f.diagnostics.map Diagnostic.said = f'.diagnostics.map Diagnostic.said

theorem Findings.Like.record {f f' : Findings} (h : f.Like f') (severity : Severity)
    (message : String) (location location' : Option Location) :
    (f.record severity message location).Like (f'.record severity message location') := by
  simp_all [Findings.Like, Findings.record, Diagnostic.said]

theorem Findings.Like.recordFault {f f' : Findings} (h : f.Like f') {fault fault' : Fault}
    (hcause : fault.cause = fault'.cause) : (f.recordFault fault).Like (f'.recordFault fault') := by
  simp only [Findings.recordFault, Fault.message, hcause]
  exact h.record _ _ _ _

/-- The same words are left, and the same was found. -/
structure ReadState.Like (s s' : ReadState) : Prop where
  tokens : Read.SameWords s.tokens s'.tokens
  recoveries : s.recoveries = s'.recoveries
  findings : s.findings.Like s'.findings

def Node.AllLike (ns ns' : List Node) : Prop :=
  Node.forgetList ns' = Node.forgetList ns

theorem Node.AllLike.append {found found' : Option Node} {ns ns' : List Node}
    (h : Option.Rel Node.Like found found') (hs : Node.AllLike ns ns') :
    Node.AllLike (found.toList ++ ns) (found'.toList ++ ns') := by
  cases h with
  | none => exact hs
  | some h => simp_all [Node.AllLike, Node.Like, Node.forgetList]

namespace Grammar

open Read ExprGrammar

/-- From states that say the same, two readers with recovery end alike. -/
abbrev Alike {α : Type} (R : α → α → Prop) (x y : Recover α) : Prop :=
  RunsAlike ReadState.Like R x y

section Recovery

variable {α : Type} {R : α → α → Prop}

theorem alike_reading {x y : Read α} (h : Read.Alike R x y) :
    Alike R (reading x) (reading y) := by
  intro s s' hs
  have hxy := h s.tokens s'.tokens hs.tokens
  unfold reading
  generalize x s.tokens = r at hxy
  generalize y s'.tokens = r' at hxy
  cases hxy with
  | ok ha htokens => exact .ok ha ⟨htokens, hs.recoveries, hs.findings⟩
  | error hstop htokens => exact .error hstop ⟨htokens, hs.recoveries, hs.findings⟩

theorem sameWords_skipToBoundary {ts ts' : List Token} (h : SameWords ts ts') :
    SameWords (skipToBoundary ts) (skipToBoundary ts') := by
  induction ts generalizing ts' with
  | nil =>
      obtain rfl := List.map_eq_nil_iff.mp h.symm
      rfl
  | cons t ts ih =>
      cases ts' with
      | nil => cases h
      | cons t' ts' =>
          obtain ⟨ht, hts⟩ := List.cons.inj h
          rw [skipToBoundary, skipToBoundary, SameWord.kind ht]
          split
          · exact h
          · exact h
          · exact hts
          · exact ih hts

theorem sameWords_skipSemicolons {ts ts' : List Token} (h : SameWords ts ts') :
    SameWords (skipSemicolons ts) (skipSemicolons ts') := by
  induction ts generalizing ts' with
  | nil =>
      obtain rfl := List.map_eq_nil_iff.mp h.symm
      rfl
  | cons t ts ih =>
      cases ts' with
      | nil => cases h
      | cons t' ts' =>
          obtain ⟨ht, hts⟩ := List.cons.inj h
          rw [skipSemicolons, skipSemicolons, SameWord.kind ht]
          split
          · exact ih hts
          · exact h

theorem alike_recover (limit : Nat) {fault fault' : Fault} (h : fault.cause = fault'.cause) :
    Alike Eq (recover limit fault) (recover limit fault') := by
  intro s s' hs
  simp only [recover, hs.recoveries]
  split
  · exact .error .exhausted ⟨hs.tokens, rfl, hs.findings⟩
  · exact .ok rfl ⟨sameWords_skipToBoundary hs.tokens, rfl, hs.findings.recordFault h⟩

theorem alike_note (message : String) (location location' : Location) :
    Alike Eq (note message location) (note message location') :=
  fun _ _ hs => .ok rfl ⟨hs.tokens, hs.recoveries, hs.findings.record _ _ _ _⟩

theorem alike_recovering (limit : Nat) {x y : Recover α} (h : Alike R x y) :
    Alike (Option.Rel R) (recovering limit x) (recovering limit y) := by
  intro s s' hs
  have hxy := h s s' hs
  unfold recovering
  generalize x s = r at hxy
  generalize y s' = r' at hxy
  cases hxy with
  | ok ha hs₁ => exact .ok (.some ha) hs₁
  | error hstop hs₁ =>
      cases hstop with
      | misread hcause =>
          have hpast := alike_recover limit hcause _ _ hs₁
          dsimp only
          generalize recover limit _ _ = u at hpast
          generalize recover limit _ _ = u' at hpast
          cases hpast with
          | ok _ hs₂ => exact .ok .none hs₂
          | error hstop hs₂ => exact .error hstop hs₂
      | unreadable text => exact .error (.unreadable text) hs₁
      | exhausted => exact .error .exhausted hs₁

end Recovery

/-! ## Declarations -/

section Declarations

variable {expression : Read Expr}

theorem alike_unlessAt (kind : TokenKind) (h : Read.Alike Expr.Like expression expression) :
    Read.Alike Expr.Like (unlessAt kind expression) (unlessAt kind expression) := by
  apply (alike_peekKind 0).bind
  rintro next _ rfl
  apply RunsAlike.ite
  · exact .pure rfl
  · exact h

theorem alike_initialValue (h : Read.Alike Expr.Like expression expression) :
    Read.Alike Expr.Like (initialValue expression) (initialValue expression) := by
  apply (alike_acceptKind _).bindOption
  · exact .pure rfl
  · exact fun _ _ _ => h

theorem alike_declaration (h : Read.Alike Expr.Like expression expression) :
    Read.Alike Node.Like (declaration expression) (declaration expression) := by
  apply alike_peek.bind
  intro first first' _
  apply alike_typeSpecifier.bind
  rintro type _ rfl
  apply (alike_expect _ _).bind
  intro name name' hname
  apply (alike_initialValue h).bind
  intro initial initial' hinitial
  apply (alike_expect _ _).bind
  intro _ _ _
  apply RunsAlike.pure
  simp_all [Node.Like, Node.forget, Expr.Like, hname.text]

def SameParameters (ps ps' : List Parameter) : Prop :=
  ps'.map Parameter.forget = ps.map Parameter.forget

theorem alike_parameter : Read.Alike (fun p p' => p'.forget = p.forget) parameter parameter := by
  apply alike_peek.bind
  intro first first' _
  apply alike_typeSpecifier.bind
  rintro type _ rfl
  apply (alike_expect _ _).bind
  intro name name' hname
  apply RunsAlike.pure
  simp [Parameter.forget, hname.text]

theorem alike_moreParameters (fuel : Nat) :
    Read.Alike SameParameters (moreParameters fuel) (moreParameters fuel) := by
  induction fuel with
  | zero => exact .pure rfl
  | succ fuel ih =>
      apply (alike_acceptKind _).bindOption
      · exact .pure rfl
      · intro _ _ _
        apply alike_parameter.bind
        intro p p' hp
        apply ih.bind
        intro ps ps' hps
        exact .pure (by simp_all [SameParameters])

theorem alike_parameters : Read.Alike SameParameters parameters parameters := by
  apply (alike_peekKind 0).bind
  rintro kind _ rfl
  apply (alike_peekKind 1).bind
  rintro next _ rfl
  apply RunsAlike.ite
  · exact alike_advance.bind fun _ _ _ => .pure rfl
  apply RunsAlike.ite
  · exact .pure rfl
  · apply alike_parameter.bind
    intro p p' hp
    apply alike_remaining.bind
    rintro fuel _ rfl
    apply (alike_moreParameters fuel).bind
    intro ps ps' hps
    exact .pure (by simp_all [SameParameters])

theorem alike_parameterList : Read.Alike SameParameters parameterList parameterList := by
  apply (alike_expect _ _).bind
  intro _ _ _
  apply alike_parameters.bind
  intro ps ps' hps
  exact (alike_expect _ _).bind fun _ _ _ => .pure hps

theorem alike_bareInit (h : Read.Alike Expr.Like expression expression) :
    Read.Alike Node.Like (bareInit expression) (bareInit expression) := by
  apply (alike_peekKind 0).bind
  rintro kind _ rfl
  apply RunsAlike.ite
  · exact .pure rfl
  · exact h.bind fun e e' he => .pure (by simpa [Node.Like, Node.forget, Expr.Like] using he)

theorem alike_loopInit (h : Read.Alike Expr.Like expression expression) :
    Read.Alike Node.Like (loopInit expression) (loopInit expression) := by
  apply alike_atType.bind
  rintro typed _ rfl
  apply RunsAlike.ite
  · exact alike_declaration h
  · apply (alike_bareInit h).bind
    intro init init' hinit
    exact (alike_expect _ _).bind fun _ _ _ => .pure hinit

theorem alike_condition (h : Read.Alike Expr.Like expression expression) (opening closing : String) :
    Read.Alike Expr.Like (condition expression opening closing)
      (condition expression opening closing) := by
  apply (alike_expect _ _).bind
  intro _ _ _
  apply h.bind
  intro test test' htest
  exact (alike_expect _ _).bind fun _ _ _ => .pure htest

/-- The parts of the header of a loop are the same, places aside. -/
structure SameHeader (x y : Node × Expr × Expr) : Prop where
  init : x.1.Like y.1
  test : x.2.1.Like y.2.1
  update : x.2.2.Like y.2.2

theorem alike_loopHeader (h : Read.Alike Expr.Like expression expression) :
    Read.Alike SameHeader (loopHeader expression) (loopHeader expression) := by
  apply (alike_expect _ _).bind
  intro _ _ _
  apply (alike_loopInit h).bind
  intro init init' hinit
  apply (alike_unlessAt _ h).bind
  intro test test' htest
  apply (alike_expect _ _).bind
  intro _ _ _
  apply (alike_unlessAt _ h).bind
  intro update update' hupdate
  exact (alike_expect _ _).bind fun _ _ _ => .pure ⟨hinit, htest, hupdate⟩

theorem alike_exit (h : Read.Alike Expr.Like expression expression) :
    Read.Alike Node.Like (exit expression) (exit expression) := by
  apply alike_advance.bind
  intro first first' _
  apply (alike_unlessAt _ h).bind
  intro value value' hvalue
  apply (alike_expect _ _).bind
  intro _ _ _
  exact .pure (by simpa [Node.Like, Node.forget, Expr.Like] using hvalue)

theorem alike_effect (h : Read.Alike Expr.Like expression expression) :
    Read.Alike Node.Like (effect expression) (effect expression) := by
  apply alike_peek.bind
  intro first first' _
  apply h.bind
  intro value value' hvalue
  apply (alike_expect _ _).bind
  intro _ _ _
  exact .pure (by simpa [Node.Like, Node.forget, Expr.Like] using hvalue)

end Declarations

/-! ## Statements -/

section Statements

variable {parts : Parts} {statement : Recover (Option Node)}

theorem alike_statements (h : Alike (Option.Rel Node.Like) statement statement) (fuel : Nat) :
    Alike Node.AllLike (statements statement fuel) (statements statement fuel) := by
  induction fuel with
  | zero => exact .pure rfl
  | succ fuel ih =>
      apply (alike_reading (alike_peekKind 0)).bind
      rintro kind _ rfl
      apply RunsAlike.ite
      · exact .pure rfl
      · apply h.bind
        intro node node' hnode
        apply ih.bind
        intro rest rest' hrest
        exact .pure (.append hnode hrest)

theorem alike_block (h : Alike (Option.Rel Node.Like) statement statement) :
    Alike Node.Like (block statement) (block statement) := by
  apply (alike_reading alike_peek).bind
  intro first first' _
  apply (alike_reading (alike_expect _ _)).bind
  intro _ _ _
  apply (alike_reading alike_remaining).bind
  rintro fuel _ rfl
  apply (alike_statements h fuel).bind
  intro body body' hbody
  apply (alike_reading alike_peek).bind
  intro t t' ht
  have hblock : (Node.block first.location body).Like (.block first'.location body') := by
    simpa [Node.Like, Node.forget, Node.AllLike] using hbody
  rw [ht.kind]
  apply RunsAlike.ite
  · exact (alike_note _ _ _).bind fun _ _ _ => .pure hblock
  · exact (alike_reading alike_advance).bind fun _ _ _ => .pure hblock

theorem alike_substatement (h : Alike (Option.Rel Node.Like) parts.statement parts.statement) :
    Alike Node.Like (substatement parts) (substatement parts) := by
  apply h.bindOption
  · exact .pure rfl
  · exact fun n n' hn => .pure hn

theorem alike_alternative (h : Alike (Option.Rel Node.Like) parts.statement parts.statement) :
    Alike Node.Like (alternative parts) (alternative parts) := by
  apply (alike_reading (alike_acceptKind _)).bindOption
  · exact .pure rfl
  · exact fun _ _ _ => alike_substatement h

/-- What a statement is made of is read alike over the same words. -/
structure Parts.Even (parts : Parts) : Prop where
  expression : Read.Alike Expr.Like parts.expression parts.expression
  statement : Alike (Option.Rel Node.Like) parts.statement parts.statement

theorem alike_branch (h : parts.Even) : Alike Node.Like (branch parts) (branch parts) := by
  apply (alike_reading alike_advance).bind
  intro first first' _
  apply (alike_reading (alike_condition h.expression _ _)).bind
  intro test test' htest
  apply (alike_substatement h.statement).bind
  intro consequent consequent' hconsequent
  apply (alike_alternative h.statement).bind
  intro otherwise otherwise' hotherwise
  apply RunsAlike.pure
  simp_all [Node.Like, Node.forget, Expr.Like]

theorem alike_forLoop (h : parts.Even) : Alike Node.Like (forLoop parts) (forLoop parts) := by
  apply (alike_reading alike_advance).bind
  intro first first' _
  apply (alike_reading (alike_loopHeader h.expression)).bind
  rintro ⟨init, test, update⟩ ⟨init', test', update'⟩ ⟨hinit, htest, hupdate⟩
  apply (alike_substatement h.statement).bind
  intro body body' hbody
  apply RunsAlike.pure
  simp_all [Node.Like, Node.forget, Expr.Like]

theorem alike_whileLoop (h : parts.Even) : Alike Node.Like (whileLoop parts) (whileLoop parts) := by
  apply (alike_reading alike_advance).bind
  intro first first' _
  apply (alike_reading (alike_condition h.expression _ _)).bind
  intro test test' htest
  apply (alike_substatement h.statement).bind
  intro body body' hbody
  apply RunsAlike.pure
  simp_all [Node.Like, Node.forget, Expr.Like]

theorem alike_statementOf (h : parts.Even) :
    Alike Node.Like (statementOf parts) (statementOf parts) := by
  apply (alike_reading (alike_peekKind 0)).bind
  rintro kind _ rfl
  split
  · exact alike_branch h
  · exact alike_forLoop h
  · exact alike_whileLoop h
  · exact alike_reading (alike_exit h.expression)
  · exact alike_block h.statement
  · apply RunsAlike.ite
    · exact alike_reading (alike_declaration h.expression)
    · exact alike_reading (alike_effect h.expression)

end Statements

/-- By induction on the levels of nesting that are left. -/
theorem alike_statement (limit levelsLeft depth : Nat) :
    Alike (Option.Rel Node.Like) (statement limit levelsLeft depth)
      (statement limit levelsLeft depth) := by
  induction levelsLeft generalizing depth with
  | zero => exact alike_recovering limit (alike_reading (alike_tooDeep _))
  | succ n ih =>
      apply alike_recovering limit
      apply RunsAlike.ite
      · exact alike_reading (alike_tooDeep _)
      · exact alike_statementOf ⟨alike_expression n (depth + 1), ih (depth + 1)⟩

/-! ## Sketches -/

theorem alike_function (limit : Nat) :
    Alike Node.Like (function limit) (function limit) := by
  apply (alike_reading alike_peek).bind
  intro first first' _
  apply (alike_reading alike_typeSpecifier).bind
  rintro returnType _ rfl
  apply (alike_reading (alike_expect _ _)).bind
  intro name name' hname
  apply (alike_reading alike_parameterList).bind
  intro ps ps' hps
  apply (alike_block (alike_statement limit maxNesting 0)).bind
  intro body body' hbody
  apply RunsAlike.pure
  simp_all [Node.Like, Node.forget, SameParameters, hname.text]

theorem alike_skip : Alike (fun _ _ => True)
    (modify fun s : ReadState => { s with tokens := skipSemicolons s.tokens } : Recover PUnit)
    (modify fun s : ReadState => { s with tokens := skipSemicolons s.tokens }) :=
  fun _ _ hs => .ok trivial ⟨sameWords_skipSemicolons hs.tokens, hs.recoveries, hs.findings⟩

theorem alike_topLevel (limit : Nat) :
    Alike (Option.Rel Node.Like) (topLevel limit) (topLevel limit) := by
  have hget : Alike ReadState.Like (get : Recover ReadState) get := fun _ _ hs => .ok hs hs
  apply alike_skip.bind
  intro _ _ _
  apply hget.bind
  intro s s' hs
  simp only [hs.tokens.kindAt, hs.tokens.typeLength]
  apply RunsAlike.ite
  · exact .pure .none
  apply RunsAlike.ite
  · apply RunsAlike.ite
    · exact (alike_function limit).bind fun _ _ h => .pure (.some h)
    · exact (alike_reading (alike_declaration (alike_expression maxNesting 0))).bind
        fun _ _ h => .pure (.some h)
  · exact (alike_reading alike_advance).bind fun _ _ _ => .pure .none

/-- Two readings of a sketch give the same declarations, leave the same behind, and stop for the
same cause. -/
structure SameReading (x y : List Node × ReadState × Option Stop) : Prop where
  body : Node.AllLike x.1 y.1
  state : x.2.1.Like y.2.1
  stop : Option.Rel Stop.Like x.2.2 y.2.2

theorem sameReading_declarations (limit fuel : Nat) {s s' : ReadState} (hs : s.Like s') :
    SameReading (declarations limit fuel s) (declarations limit fuel s') := by
  induction fuel generalizing s s' with
  | zero => exact ⟨rfl, hs, .none⟩
  | succ fuel ih =>
      have hnext := alike_recovering limit (alike_topLevel limit) s s' hs
      simp only [declarations, hs.tokens.kindAt]
      split
      · exact ⟨rfl, hs, .none⟩
      · generalize recovering limit (topLevel limit) s = r at hnext
        generalize recovering limit (topLevel limit) s' = r' at hnext
        cases hnext with
        | error hstop hs₁ => exact ⟨rfl, hs₁, .some hstop⟩
        | @ok node node' s₁ s₁' hnode hs₁ =>
            have hrest := ih hs₁
            have hfound : Option.Rel Node.Like node.join node'.join := by
              cases hnode with
              | none => exact .none
              | some h => exact h
            exact ⟨.append hfound hrest.body, hrest.state, hrest.stop⟩

end Grammar

end InoBlocks
