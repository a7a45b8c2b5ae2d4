import InoBlocks.Proofs.Sketch.Arrival
import InoBlocks.Proofs.Sketch.Clause
import InoBlocks.Proofs.Sketch.ReadBack

/-!
# Reading statements from their words

The readers of statements are complete: on the words of a statement they arrive behind them with
that statement, places aside, unless a limit of nesting is hit.  The proof is by induction on how
the words are a statement.  Only a choice has to see what comes behind it, since an `else` there
would belong to it.
-/

namespace InoBlocks

def Node.Like (n n' : Node) : Prop :=
  n'.forget = n.forget

namespace Grammar

open Read ExprGrammar Word

/-! ## Declarations, expressions and headers -/

theorem peek_apply (ts : List Token) : peek ts = .ok (ts.headD default) ts := rfl

namespace Gets

variable {us rest : List Token} {ws : List Word}

theorem tooDeep {α : Type} (P : α → Prop) (rest : List Token) (limit : Nat) (ts : List Token) :
    Gets P rest (ExprGrammar.tooDeep limit ts) :=
  ⟨{ cause := .nestedTooDeep limit, location := some (ts.headD default).location }, rfl, limit,
    rfl⟩

theorem expression {e : Expr} (h : Phrase 1 ws e) (levelsLeft depth : Nat)
    (hus : us.map Token.word = ws) (rest : List Token) (hrest : (kindAt 0 rest).joins = 0) :
    Gets (fun e' => e'.forget = e.forget) rest (expression levelsLeft depth (us ++ rest)) :=
  of_reads (expression_reads h levelsLeft depth hus rest hrest)

theorem declaration {n : Node} (h : Declared ws n) (levelsLeft depth : Nat)
    (hus : us.map Token.word = ws) (rest : List Token) :
    Gets n.Like rest (declaration (ExprGrammar.expression levelsLeft depth) (us ++ rest)) := by
  cases h with
  | @plain l vs type name htype =>
      obtain ⟨types, t, us, rfl, htypes, ht, htext, hus⟩ := map_word_append_cons hus
      obtain ⟨semicolon, rfl, hsemicolon⟩ := List.map_eq_singleton_iff.mp hus
      have hkind : semicolon.kind = .semicolon := congrArg Word.kind hsemicolon
      have hspecifier := htype.typeSpecifier_ok types htypes (t :: semicolon :: rest)
      have hnone : acceptKind .assign (semicolon :: rest) = .ok none (semicolon :: rest) :=
        acceptKind_none (by rw [kindAt_cons, hkind]; decide)
      have hvalue : initialValue (ExprGrammar.expression levelsLeft depth) (semicolon :: rest) =
          .ok .empty (semicolon :: rest) := by
        rw [initialValue, bind_ok hnone]
        rfl
      refine of_ok (a := .declaration ((types ++ t :: [semicolon] ++ rest).headD default).location
        type t.text .empty) ?_ ?_
      · rw [Grammar.declaration, bind_ok (peek_apply _), List.append_assoc, List.cons_append,
          List.singleton_append, bind_ok hspecifier,
          bind_ok (expect_of_kind ht TokenKind.noConfusion _), bind_ok hvalue, bind_ok (expect_of_kind hkind (by decide) _)]
        rfl
      · rw [htext]
        rfl
  | @valued l ts vs type e name htype hphrase =>
      obtain ⟨front, semicolon, last, rfl, hfront, hkind, -, hlast⟩ := map_word_append_cons hus
      obtain rfl := List.map_eq_nil_iff.mp hlast
      rw [symbol_kind] at hkind
      obtain ⟨types, t, more, rfl, htypes, ht, htext, hmore⟩ := map_word_append_cons hfront
      obtain ⟨equals, us, rfl, hequals, -, hus⟩ := map_word_cons hmore
      rw [symbol_kind] at hequals
      have hspecifier := htype.typeSpecifier_ok types htypes
        (t :: equals :: (us ++ semicolon :: rest))
      have hread := Gets.expression hphrase levelsLeft depth hus (semicolon :: rest)
        (by rw [kindAt_cons, hkind]; rfl)
      have htokens : types ++ t :: equals :: us ++ [semicolon] ++ rest =
          types ++ t :: equals :: (us ++ semicolon :: rest) := by simp
      have hvalue : Gets (fun e' => e'.forget = e.forget) (semicolon :: rest)
          (initialValue (ExprGrammar.expression levelsLeft depth)
            (equals :: (us ++ semicolon :: rest))) := by
        rw [initialValue, bind_ok (acceptKind_of_kind hequals (by decide))]
        exact hread
      rw [htokens, Grammar.declaration, bind_ok (peek_apply _), bind_ok hspecifier,
        bind_ok (expect_of_kind ht TokenKind.noConfusion _)]
      refine hvalue.bind fun e' he' => ?_
      rw [bind_ok (expect_of_kind hkind (by decide) _)]
      refine ⟨?_, rfl⟩
      rw [Node.Like, Node.forget, Node.forget, he', htext]

theorem effect (l : Location) {e : Expr} (h : Phrase 1 ws e) (levelsLeft depth : Nat)
    (hus : us.map Token.word = ws) {semicolon : Token} (hkind : semicolon.kind = .semicolon)
    (rest : List Token) :
    Gets (Node.effect l e).Like rest
      (effect (ExprGrammar.expression levelsLeft depth) (us ++ semicolon :: rest)) := by
  have hread := Gets.expression h levelsLeft depth hus (semicolon :: rest)
    (by rw [kindAt_cons, hkind]; rfl)
  rw [Grammar.effect, bind_ok (peek_apply _)]
  refine hread.bind fun e' he' => ?_
  rw [bind_ok (expect_of_kind hkind (by decide) _)]
  refine ⟨?_, rfl⟩
  rw [Node.Like, Node.forget, Node.forget, he']

theorem condition {e : Expr} (h : Phrase 1 ws e) (levelsLeft depth : Nat)
    (hus : us.map Token.word = ws) {left right : Token} (hleft : left.kind = .leftParen)
    (hright : right.kind = .rightParen) (opening closing : String) (rest : List Token) :
    Gets (fun e' => e'.forget = e.forget) rest
      (condition (ExprGrammar.expression levelsLeft depth) opening closing
        (left :: (us ++ right :: rest))) := by
  have hread := Gets.expression h levelsLeft depth hus (right :: rest)
    (by rw [kindAt_cons, hright]; rfl)
  rw [Grammar.condition, bind_ok (expect_of_kind hleft (by decide) _)]
  refine hread.bind fun e' he' => ?_
  rw [bind_ok (expect_of_kind hright (by decide) _)]
  exact ⟨he', rfl⟩

theorem spare {e : Expr} (h : Spare ws e) (levelsLeft depth : Nat)
    (hus : us.map Token.word = ws) (closing : Token) (hjoins : closing.kind.joins = 0)
    (hbegins : closing.kind.begins = false) (rest : List Token) :
    Gets (fun e' => e'.forget = e.forget) (closing :: rest)
      (unlessAt closing.kind (ExprGrammar.expression levelsLeft depth)
        (us ++ closing :: rest)) := by
  rw [unlessAt, bind_ok (peekKind_apply 0 _)]
  cases h with
  | none =>
      obtain rfl := List.map_eq_nil_iff.mp hus
      rw [List.nil_append, kindAt_cons, if_pos (by simp)]
      exact ⟨rfl, rfl⟩
  | some hphrase =>
      have hread := Gets.expression hphrase levelsLeft depth hus (closing :: rest) hjoins
      obtain ⟨w, ws, rfl, hw, -⟩ := hphrase.exists_head
      obtain ⟨t, us, rfl, ht, -, -⟩ := map_word_cons hus
      have hne : t.kind ≠ closing.kind := by
        intro hk
        rw [← hk, ht, hw] at hbegins
        cases hbegins
      rw [List.cons_append, kindAt_cons, if_neg (by simpa using hne)]
      exact hread

theorem opening {n : Node} (h : Opening ws n) (levelsLeft depth : Nat)
    (hus : us.map Token.word = ws) (rest : List Token) :
    Gets n.Like rest (loopInit (ExprGrammar.expression levelsLeft depth) (us ++ rest)) := by
  have hat : ∀ ts, atType ts = .ok (typeLength 0 ts != 0) ts := fun _ => rfl
  rw [loopInit, bind_ok (hat _)]
  cases h with
  | declared hdeclared =>
      have hread := Gets.declaration hdeclared levelsLeft depth hus rest
      obtain ⟨w, ws, rfl, hw⟩ := hdeclared.exists_head
      obtain ⟨t, us, rfl, ht, -, -⟩ := map_word_cons hus
      have hlength : typeLength 0 (t :: us ++ rest) ≠ 0 := by
        rw [TokenKind.beginsType, ← ht, Bool.or_eq_true] at hw
        rw [typeLength, List.cons_append, kindAt_cons]
        rcases hw with hw | hw
        · rw [if_pos hw]
          split
          · split <;> decide
          · decide
        · rw [if_pos hw]
          split <;> decide
      rw [if_pos (by simpa using hlength)]
      exact hread
  | @bare ws e hphrase =>
      obtain ⟨front, semicolon, last, rfl, hfront, hkind, -, hlast⟩ := map_word_append_cons hus
      obtain rfl := List.map_eq_nil_iff.mp hlast
      rw [symbol_kind] at hkind
      have hread := Gets.expression hphrase levelsLeft depth hfront (semicolon :: rest)
        (by rw [kindAt_cons, hkind]; rfl)
      obtain ⟨w, ws, rfl, hw, -⟩ := hphrase.exists_head
      obtain ⟨t, us, rfl, ht, -, -⟩ := map_word_cons hfront
      have hlength : typeLength 0 (t :: us ++ [semicolon] ++ rest) = 0 := by
        rw [List.cons_append, List.cons_append, typeLength, kindAt_cons, ht]
        generalize w.kind = kind at hw
        cases kind <;> first | rfl | cases hw
      have hne : t.kind ≠ .semicolon := by
        intro hk
        rw [← ht, hk] at hw
        cases hw
      rw [if_neg (by simpa using hlength), bareInit, List.append_assoc, List.singleton_append]
      have hbare : Gets (Node.bare e).Like (semicolon :: rest)
          ((do if (← peekKind 0) == .semicolon then return .empty
               else return .bare (← ExprGrammar.expression levelsLeft depth) : Read Node)
            (t :: us ++ semicolon :: rest)) := by
        rw [bind_ok (peekKind_apply 0 _), List.cons_append, kindAt_cons,
          if_neg (by simpa using hne)]
        refine hread.bind fun e' he' => ⟨?_, rfl⟩
        rw [Node.Like, Node.forget, Node.forget, he']
      refine hbare.bind fun n hn => ?_
      rw [bind_ok (expect_of_kind hkind (by decide) _)]
      exact ⟨hn, rfl⟩
  | none =>
      obtain ⟨semicolon, rfl, hsemicolon⟩ := List.map_eq_singleton_iff.mp hus
      have hkind : semicolon.kind = .semicolon := congrArg Word.kind hsemicolon
      have hlength : typeLength 0 ([semicolon] ++ rest) = 0 := by
        rw [List.singleton_append, typeLength, kindAt_cons, hkind]
        rfl
      have hbare : bareInit (ExprGrammar.expression levelsLeft depth) ([semicolon] ++ rest) =
          .ok .empty (semicolon :: rest) := by
        rw [bareInit, bind_ok (peekKind_apply 0 _), List.singleton_append, kindAt_cons, hkind,
          if_pos (by decide)]
        rfl
      rw [if_neg (by simpa using hlength), bind_ok hbare,
        bind_ok (expect_of_kind hkind (by decide) _)]
      exact ⟨rfl, rfl⟩

end Gets

/-! ## Statements by their first token -/

section FirstToken

variable {parts : Parts} {s : ReadState}

theorem statementOf_declaration (h : (kindAt 0 s.tokens).beginsType = true) :
    statementOf parts s = reading (declaration parts.expression) s := by
  rw [statementOf, bind_ok (reading_ok (peekKind_apply 0 s.tokens))]
  cases hkind : kindAt 0 s.tokens <;> rw [hkind] at h <;> first | rfl | cases h

theorem statementOf_branch (h : kindAt 0 s.tokens = .ifWord) :
    statementOf parts s = branch parts s := by
  rw [statementOf, bind_ok (reading_ok (peekKind_apply 0 s.tokens)), h]

theorem statementOf_forLoop (h : kindAt 0 s.tokens = .forWord) :
    statementOf parts s = forLoop parts s := by
  rw [statementOf, bind_ok (reading_ok (peekKind_apply 0 s.tokens)), h]

theorem statementOf_whileLoop (h : kindAt 0 s.tokens = .whileWord) :
    statementOf parts s = whileLoop parts s := by
  rw [statementOf, bind_ok (reading_ok (peekKind_apply 0 s.tokens)), h]

theorem statementOf_block (h : kindAt 0 s.tokens = .leftBrace) :
    statementOf parts s = block parts.statement s := by
  rw [statementOf, bind_ok (reading_ok (peekKind_apply 0 s.tokens)), h]

end FirstToken

/-! ## Statements from their words -/

/-- A statement is read from some tokens as a node, places aside, in front of `rest`. -/
def Found (n : Node) (rest : List Token) (findings : Findings) :
    EStateM.Result Stop ReadState (Option Node) → Prop :=
  Arrives (fun found => ∃ n', found = some n' ∧ n.Like n') rest findings

/-- Words are read as a statement in front of what may stand behind it. -/
def ReadsBefore (behind : List Token → Prop) (ws : List Word) (n : Node) : Prop :=
  ∀ limit, 1 ≤ limit → ∀ levelsLeft depth us, us.map Token.word = ws →
    ∀ rest, behind rest → ∀ findings,
      Found n rest findings (statement limit levelsLeft depth ⟨us ++ rest, 0, findings⟩)

/-- Words are read as a statement in front of anything but an `else`. -/
abbrev ClauseReads (ws : List Word) (n : Node) : Prop :=
  ReadsBefore (fun rest => kindAt 0 rest ≠ .elseWord) ws n

/-- A statement is read if its reader by the first token arrives. -/
theorem readsBefore_of_statementOf {behind : List Token → Prop} {ws : List Word} {n : Node}
    (h : ∀ limit, 1 ≤ limit → ∀ levelsLeft depth us, us.map Token.word = ws →
      ∀ rest, behind rest → ∀ findings, Arrives n.Like rest findings
        (statementOf ⟨expression levelsLeft depth, statement limit levelsLeft depth⟩
          ⟨us ++ rest, 0, findings⟩)) : ReadsBefore behind ws n := by
  intro limit hlimit levelsLeft depth us hus rest hrest findings
  cases levelsLeft with
  | zero => exact .recovering hlimit (.reading (.tooDeep _ _ _ _))
  | succ levelsLeft =>
      rw [statement]
      refine .recovering hlimit ?_
      by_cases hdeep : maxTreeDepth ≤ depth
      · rw [if_pos hdeep]
        exact .reading (.tooDeep _ _ _ _)
      · rw [if_neg hdeep]
        exact h limit hlimit levelsLeft (depth + 1) us hus rest hrest findings

theorem clauseReads_declared {ws : List Word} {n : Node} (h : Declared ws n) :
    ClauseReads ws n := by
  refine readsBefore_of_statementOf fun limit _ levelsLeft depth us hus rest _ findings => ?_
  have hread := Gets.declaration h levelsLeft depth hus rest
  obtain ⟨w, ws, rfl, hw⟩ := h.exists_head
  obtain ⟨t, us, rfl, ht, -, -⟩ := map_word_cons hus
  rw [statementOf_declaration (by rw [List.cons_append, kindAt_cons, ht]; exact hw)]
  exact .reading hread

theorem clauseReads_effect (l : Location) {ws : List Word} {e : Expr} (h : Phrase 1 ws e) :
    ClauseReads (ws ++ [symbol .semicolon]) (.effect l e) := by
  refine readsBefore_of_statementOf fun limit _ levelsLeft depth us hus rest _ findings => ?_
  obtain ⟨vs, semicolon, last, rfl, hvs, hkind, -, hlast⟩ := map_word_append_cons hus
  obtain rfl := List.map_eq_nil_iff.mp hlast
  rw [symbol_kind] at hkind
  have hread := Gets.effect l h levelsLeft depth hvs hkind rest
  obtain ⟨w, ws, rfl, hw, -⟩ := h.exists_head
  obtain ⟨t, vs, rfl, ht, -, -⟩ := map_word_cons hvs
  rw [statementOf_effect (by rw [List.append_assoc, List.cons_append, kindAt_cons, ht]; exact hw),
    List.append_assoc, List.singleton_append]
  exact .reading hread

/-! ## Blocks -/

theorem forgetList_eq_map (ns : List Node) : Node.forgetList ns = ns.map Node.forget := by
  induction ns with
  | nil => rfl
  | cons n ns ih => rw [Node.forgetList, ih, List.map_cons]

/-- What stands behind a statement of a block: the next one, or the closing brace. -/
theorem kindAt_items {items : List (List Word × Node)}
    (hitems : ∀ a ∈ items, ∃ w ws, a.1 = w :: ws ∧ w.kind.startsClause = true) {us : List Token}
    (hus : us.map Token.word = items.flatMap Prod.fst) {right : Token}
    (hright : right.kind = .rightBrace) (rest : List Token) :
    kindAt 0 (us ++ right :: rest) ≠ .elseWord := by
  cases items with
  | nil =>
      obtain rfl := List.map_eq_nil_iff.mp hus
      rw [List.nil_append, kindAt_cons, hright]
      decide
  | cons a items =>
      obtain ⟨w, ws, ha, hw⟩ := hitems a List.mem_cons_self
      rw [List.flatMap_cons, ha, List.cons_append] at hus
      obtain ⟨t, us, rfl, ht, -, -⟩ := map_word_cons hus
      rw [List.cons_append, kindAt_cons, ht]
      intro hk
      rw [hk] at hw
      cases hw

theorem arrives_statements {limit : Nat} (hlimit : 1 ≤ limit) (levelsLeft depth : Nat)
    {items : List (List Word × Node)} (hreads : ∀ a ∈ items, ClauseReads a.1 a.2)
    (hheads : ∀ a ∈ items, ∃ w ws, a.1 = w :: ws ∧ w.kind.startsClause = true)
    {us : List Token} (hus : us.map Token.word = items.flatMap Prod.fst) {right : Token}
    (hright : right.kind = .rightBrace) (rest : List Token) (findings : Findings) (fuel : Nat)
    (hfuel : us.length ≤ fuel) :
    Arrives (fun ns => Node.forgetList ns = Node.forgetList (items.map Prod.snd)) (right :: rest)
      findings (statements (statement limit levelsLeft depth) fuel
        ⟨us ++ right :: rest, 0, findings⟩) := by
  induction items generalizing us fuel with
  | nil =>
      obtain rfl := List.map_eq_nil_iff.mp hus
      exact .of_ok (statements_stop _ _ (Or.inl hright)) rfl
  | cons a items ih =>
      have hheads' : ∀ b ∈ items, ∃ w ws, b.1 = w :: ws ∧ w.kind.startsClause = true :=
        fun b hb => hheads b (List.mem_cons_of_mem a hb)
      rw [List.flatMap_cons] at hus
      obtain ⟨us, vs, rfl, hus, hvs⟩ := List.map_eq_append_iff.mp hus
      obtain ⟨w, ws, ha, hw⟩ := hheads a List.mem_cons_self
      have hus' := hus
      rw [ha] at hus'
      obtain ⟨t, us', rfl, ht, -, -⟩ := map_word_cons hus'
      cases fuel with
      | zero => simp at hfuel
      | succ fuel =>
          have hkind : (kindAt 0 (t :: us' ++ vs ++ right :: rest)).startsClause = true := by
            rw [List.cons_append, List.cons_append, kindAt_cons, ht]
            exact hw
          have hne : ∀ kind, kind.startsClause = false →
              kindAt 0 (t :: us' ++ vs ++ right :: rest) ≠ kind := by
            rintro kind hkind' rfl
            rw [hkind] at hkind'
            cases hkind'
          have hgoes : ¬(kindAt 0 (t :: us' ++ vs ++ right :: rest) == .rightBrace ||
              kindAt 0 (t :: us' ++ vs ++ right :: rest) == .endOfInput) = true := by
            rw [Bool.or_eq_true, beq_iff_eq, beq_iff_eq, not_or]
            exact ⟨hne .rightBrace rfl, hne .endOfInput rfl⟩
          rw [statements, bind_ok (reading_ok (peekKind_apply 0 _)),
            if_neg hgoes, List.append_assoc]
          refine (hreads a List.mem_cons_self limit hlimit levelsLeft depth _ hus _
            (kindAt_items hheads' hvs hright rest) findings).bind (fun found => ?_) ?_
          · exact ((Hears.statement limit levelsLeft depth).statements fuel).bind fun _ => .pure _
          · rintro found ⟨n, rfl, hn⟩
            have hlength : vs.length ≤ fuel := by
              simp only [List.length_append, List.length_cons] at hfuel
              omega
            refine (ih (fun b hb => hreads b (List.mem_cons_of_mem a hb)) hheads' hvs fuel
              hlength).bind (fun _ => .pure _) fun ns hns => Or.inl ⟨?_, rfl⟩
            rw [Node.Like] at hn
            rw [Option.toList_some, List.singleton_append, List.map_cons,
              Node.forgetList.eq_2, Node.forgetList.eq_2, hns, hn]

theorem arrives_block (l : Location) {items : List (List Word × Node)}
    (hreads : ∀ a ∈ items, ClauseReads a.1 a.2) (hclauses : ∀ a ∈ items, Clause a.1 a.2)
    {limit : Nat} (hlimit : 1 ≤ limit) (levelsLeft depth : Nat) {us : List Token}
    (hus : us.map Token.word = bracedWords items) (rest : List Token) (findings : Findings) :
    Arrives (Node.block l (items.map Prod.snd)).Like rest findings
      (block (statement limit levelsLeft depth) ⟨us ++ rest, 0, findings⟩) := by
  obtain ⟨left, vs, rfl, hleft, -, hvs⟩ := map_word_cons hus
  obtain ⟨us, right, last, rfl, hinside, hright, -, hlast⟩ := map_word_append_cons hvs
  obtain rfl := List.map_eq_nil_iff.mp hlast
  rw [symbol_kind] at hright hleft
  have hend : right.kind ≠ .endOfInput := by
    rw [hright]
    decide
  rw [List.cons_append, List.append_assoc, List.singleton_append, block, bind_ok (reading_ok (peek_cons left _)),
    bind_ok (reading_ok (expect_of_kind hleft (by decide) _)),
    bind_ok (reading_ok (remaining_apply _))]
  have hheads := fun a ha => (hclauses a ha).exists_head
  refine (arrives_statements hlimit levelsLeft depth hreads hheads hinside hright rest findings _
    (by simp)).bind (fun ns => ?_) fun ns hns => ?_
  · refine (Hears.reading _).bind fun _ => .ite ?_ ?_
    · exact (Hears.note _ _).bind fun _ => .pure _
    · exact (Hears.reading _).bind fun _ => .pure _
  · rw [bind_ok (reading_ok (peek_cons right _)), if_neg (by simpa using hend),
      bind_ok (reading_ok (advance_cons hend))]
    refine Or.inl ⟨?_, rfl⟩
    rw [Node.Like, Node.forget, Node.forget, hns]

theorem readsBefore_block (l : Location) {items : List (List Word × Node)}
    (hreads : ∀ a ∈ items, ClauseReads a.1 a.2) (hclauses : ∀ a ∈ items, Clause a.1 a.2) :
    ReadsBefore (fun _ => True) (bracedWords items) (.block l (items.map Prod.snd)) := by
  refine readsBefore_of_statementOf fun limit hlimit levelsLeft depth us hus rest _ findings => ?_
  have harrives := arrives_block l hreads hclauses hlimit levelsLeft depth hus rest findings
  obtain ⟨left, vs, rfl, hleft, -, -⟩ := map_word_cons hus
  rwa [statementOf_block (by exact hleft)]

/-! ## Choices and loops -/

theorem arrives_substatement {parts : Parts} {n : Node} {s : ReadState} {rest : List Token}
    {findings : Findings} (h : Found n rest findings (parts.statement s)) :
    Arrives n.Like rest findings (substatement parts s) := by
  refine h.bind (fun _ => .pure _) ?_
  rintro found ⟨n', rfl, hn'⟩
  exact Or.inl ⟨hn', rfl⟩

theorem arrives_alternative_none (parts : Parts) {rest : List Token}
    (h : kindAt 0 rest ≠ .elseWord) (findings : Findings) :
    Arrives Node.empty.Like rest findings (alternative parts ⟨rest, 0, findings⟩) := by
  rw [alternative, bind_ok (reading_ok (acceptKind_none h))]
  exact Or.inl ⟨rfl, rfl⟩

/-- A choice is read from its condition, its first arm and its alternative. -/
theorem arrives_branch {parts : Parts} {word : Token} {l : Location} {test : Expr}
    {body otherwise : Node} {ts us rest : List Token} {findings : Findings}
    (hword : word.kind = .ifWord) (hears : Hears parts.statement)
    (htest : ∀ opening closing, Gets (fun e => e.forget = test.forget) us
      (condition parts.expression opening closing ts))
    {vs : List Token} (hbody : Found body vs findings (parts.statement ⟨us, 0, findings⟩))
    (hotherwise : Arrives otherwise.Like rest findings (alternative parts ⟨vs, 0, findings⟩)) :
    Arrives (Node.branch l test body otherwise).Like rest findings
      (statementOf parts ⟨word :: ts, 0, findings⟩) := by
  have hend : word.kind ≠ .endOfInput := by
    rw [hword]
    decide
  rw [statementOf_branch (by exact hword), branch, bind_ok (reading_ok (advance_cons hend))]
  refine (Arrives.reading (htest _ _)).bind (fun _ => ?_) fun test' htest' => ?_
  · exact (Hears.substatement hears).bind fun _ => (Hears.alternative hears).bind fun _ => .pure _
  · refine (arrives_substatement hbody).bind (fun _ => ?_) fun body' hbody' => ?_
    · exact (Hears.alternative hears).bind fun _ => .pure _
    · refine hotherwise.bind (fun _ => .pure _) fun otherwise' hotherwise' => Or.inl ⟨?_, rfl⟩
      rw [Node.Like] at hbody' hotherwise'
      rw [Node.Like, Node.forget, Node.forget, htest', hbody', hotherwise']

theorem clauseReads_branch (l : Location) {ws vs : List Word} {test : Expr} {body : Node}
    (htest : Phrase 1 ws test) (hbody : ReadsBefore (fun _ => True) vs body) :
    ClauseReads (⟨.ifWord, "if"⟩ :: symbol .leftParen :: ws ++ symbol .rightParen :: vs)
      (.branch l test body .empty) := by
  refine readsBefore_of_statementOf fun limit hlimit levelsLeft depth us hus rest hrest
    findings => ?_
  obtain ⟨word, ts, rfl, hword, -, hts⟩ := map_word_cons hus
  obtain ⟨left, ts, rfl, hleft, -, hts⟩ := map_word_cons hts
  obtain ⟨cs, right, bs, rfl, hcs, hright, -, hbs⟩ := map_word_append_cons hts
  rw [List.cons_append, List.cons_append, List.append_assoc, List.cons_append]
  exact arrives_branch hword (Hears.statement _ _ _)
    (fun opening closing => .condition htest levelsLeft depth hcs hleft hright opening closing _)
    (hbody limit hlimit levelsLeft depth bs hbs rest trivial findings)
    (arrives_alternative_none _ hrest findings)

theorem clauseReads_branchElse (l : Location) {ws vs xs : List Word} {test : Expr}
    {body otherwise : Node} (htest : Phrase 1 ws test)
    (hbody : ReadsBefore (fun _ => True) vs body) (hotherwise : ClauseReads xs otherwise) :
    ClauseReads (⟨.ifWord, "if"⟩ :: symbol .leftParen :: ws ++ symbol .rightParen :: vs ++
      ⟨.elseWord, "else"⟩ :: xs) (.branch l test body otherwise) := by
  refine readsBefore_of_statementOf fun limit hlimit levelsLeft depth us hus rest hrest
    findings => ?_
  obtain ⟨us, other, os, rfl, hus, hother, -, hos⟩ := map_word_append_cons hus
  obtain ⟨word, ts, rfl, hword, -, hts⟩ := map_word_cons hus
  obtain ⟨left, ts, rfl, hleft, -, hts⟩ := map_word_cons hts
  obtain ⟨cs, right, bs, rfl, hcs, hright, -, hbs⟩ := map_word_append_cons hts
  have htokens : word :: left :: (cs ++ right :: bs) ++ other :: os ++ rest =
      word :: left :: (cs ++ right :: (bs ++ other :: (os ++ rest))) := by simp
  rw [htokens]
  refine arrives_branch hword (Hears.statement _ _ _)
    (fun opening closing => .condition htest levelsLeft depth hcs hleft hright opening closing _)
    (hbody limit hlimit levelsLeft depth bs hbs _ trivial findings) ?_
  rw [alternative, bind_ok (reading_ok (acceptKind_of_kind hother (by decide)))]
  exact arrives_substatement (hotherwise limit hlimit levelsLeft depth os hos rest hrest findings)

theorem clauseReads_whileLoop (l : Location) {ws vs : List Word} {test : Expr} {body : Node}
    (htest : Phrase 1 ws test) (hbody : ReadsBefore (fun _ => True) vs body) :
    ClauseReads (⟨.whileWord, "while"⟩ :: symbol .leftParen :: ws ++ symbol .rightParen :: vs)
      (.whileLoop l test body) := by
  refine readsBefore_of_statementOf fun limit hlimit levelsLeft depth us hus rest hrest
    findings => ?_
  obtain ⟨word, ts, rfl, hword, -, hts⟩ := map_word_cons hus
  obtain ⟨left, ts, rfl, hleft, -, hts⟩ := map_word_cons hts
  obtain ⟨cs, right, bs, rfl, hcs, hright, -, hbs⟩ := map_word_append_cons hts
  have hend : word.kind ≠ .endOfInput := by
    rw [hword]
    decide
  rw [List.cons_append, List.cons_append, List.append_assoc, List.cons_append,
    statementOf_whileLoop (by exact hword), whileLoop, bind_ok (reading_ok (advance_cons hend))]
  refine (Arrives.reading (.condition htest levelsLeft depth hcs hleft hright _ _ _)).bind
    (fun _ => (Hears.substatement (Hears.statement _ _ _)).bind fun _ => .pure _)
    fun test' htest' => ?_
  refine (arrives_substatement (hbody limit hlimit levelsLeft depth bs hbs rest trivial
    findings)).bind (fun _ => .pure _) fun body' hbody' => Or.inl ⟨?_, rfl⟩
  rw [Node.Like] at hbody'
  rw [Node.Like, Node.forget, Node.forget, htest', hbody']

theorem Gets.loopHeader {init : Node} {test update : Expr} {us vs ws : List Word}
    (hinit : Opening us init) (htest : Spare vs test) (hupdate : Spare ws update)
    (levelsLeft depth : Nat) {left semicolon right : Token} {is cs ss : List Token}
    (hleft : left.kind = .leftParen) (his : is.map Token.word = us)
    (hcs : cs.map Token.word = vs) (hsemicolon : semicolon.kind = .semicolon)
    (hss : ss.map Token.word = ws) (hright : right.kind = .rightParen) (rest : List Token) :
    Gets (fun header => init.Like header.1 ∧ header.2.1.forget = test.forget ∧
        header.2.2.forget = update.forget) rest
      (loopHeader (ExprGrammar.expression levelsLeft depth)
        (left :: (is ++ (cs ++ semicolon :: (ss ++ right :: rest))))) := by
  rw [Grammar.loopHeader, bind_ok (expect_of_kind hleft (by decide) _)]
  refine (Gets.opening hinit levelsLeft depth his _).bind fun init' hinit' => ?_
  have htest' := Gets.spare htest levelsLeft depth hcs semicolon
    (by rw [hsemicolon]; rfl) (by rw [hsemicolon]; rfl) (ss ++ right :: rest)
  have hupdate' := Gets.spare hupdate levelsLeft depth hss right
    (by rw [hright]; rfl) (by rw [hright]; rfl) rest
  rw [hsemicolon] at htest'
  rw [hright] at hupdate'
  refine htest'.bind fun test' htest' => ?_
  rw [bind_ok (expect_of_kind hsemicolon (by decide) _)]
  refine hupdate'.bind fun update' hupdate' => ?_
  rw [bind_ok (expect_of_kind hright (by decide) _)]
  exact ⟨⟨hinit', htest', hupdate'⟩, rfl⟩

theorem clauseReads_forLoop (l : Location) {us vs ws xs : List Word} {init body : Node}
    {test update : Expr} (hinit : Opening us init) (htest : Spare vs test)
    (hupdate : Spare ws update) (hbody : ReadsBefore (fun _ => True) xs body) :
    ClauseReads (⟨.forWord, "for"⟩ :: symbol .leftParen :: us ++ vs ++ symbol .semicolon :: ws ++
      symbol .rightParen :: xs) (.forLoop l init test update body) := by
  refine readsBefore_of_statementOf fun limit hlimit levelsLeft depth ts hts rest hrest
    findings => ?_
  obtain ⟨front, right, bs, rfl, hfront, hright, -, hbs⟩ := map_word_append_cons hts
  obtain ⟨front, semicolon, ss, rfl, hfront, hsemicolon, -, hss⟩ := map_word_append_cons hfront
  obtain ⟨word, ts, rfl, hword, -, hts⟩ := map_word_cons hfront
  obtain ⟨left, ts, rfl, hleft, -, hts⟩ := map_word_cons hts
  obtain ⟨is, cs, rfl, his, hcs⟩ := List.map_eq_append_iff.mp hts
  have htokens : word :: left :: (is ++ cs) ++ semicolon :: ss ++ right :: bs ++ rest =
      word :: left :: (is ++ (cs ++ semicolon :: (ss ++ right :: (bs ++ rest)))) := by simp
  have hend : word.kind ≠ .endOfInput := by
    rw [hword]
    decide
  rw [htokens, statementOf_forLoop (by exact hword), forLoop,
    bind_ok (reading_ok (advance_cons hend))]
  refine (Arrives.reading (.loopHeader hinit htest hupdate levelsLeft depth hleft his hcs
    hsemicolon hss hright _)).bind
    (fun _ => (Hears.substatement (Hears.statement _ _ _)).bind fun _ => .pure _) ?_
  rintro ⟨init', test', update'⟩ ⟨hinit', htest', hupdate'⟩
  refine (arrives_substatement (hbody limit hlimit levelsLeft depth bs hbs rest trivial
    findings)).bind (fun _ => .pure _) fun body' hbody' => Or.inl ⟨?_, rfl⟩
  rw [Node.Like] at hbody' hinit'
  dsimp only at hinit' htest' hupdate'
  rw [Node.Like, Node.forget, Node.forget, hinit', htest', hupdate', hbody']

theorem Clause.reads {ws : List Word} {n : Node} (h : Clause ws n) : ClauseReads ws n := by
  induction h with
  | declared h => exact clauseReads_declared h
  | effect l h => exact clauseReads_effect l h
  | block l items hitems ih =>
      exact fun limit hlimit levelsLeft depth us hus rest _ =>
        readsBefore_block l ih hitems limit hlimit levelsLeft depth us hus rest trivial
  | branch l l' items htest hitems ih =>
      exact clauseReads_branch l htest (readsBefore_block l' ih hitems)
  | branchElse l l' items htest hitems _ ih ih' =>
      exact clauseReads_branchElse l htest (readsBefore_block l' ih hitems) ih'
  | whileLoop l l' items htest hitems ih =>
      exact clauseReads_whileLoop l htest (readsBefore_block l' ih hitems)
  | forLoop l l' items hinit htest hupdate hitems ih =>
      exact clauseReads_forLoop l hinit htest hupdate (readsBefore_block l' ih hitems)

end Grammar

end InoBlocks
