import InoBlocks.Proofs.Sketch.ClauseReading
import InoBlocks.Proofs.Sketch.ShallowPhrase

/-!
# Shallow statements reach no limit

Statements with braces around every body, that lie in one another less deep than there are levels
left and have short expressions, are read without a report.  Each body takes two levels: the block
and the statement around it.
-/

namespace InoBlocks

namespace Grammar

open Read ExprGrammar Word

/-- Words that are a statement for which a number of levels is enough. -/
inductive Shallow : Nat → List Word → Node → Prop where
  | effect (l : Location) {n : Nat} {ws : List Word} {e : Expr} : Phrase 1 ws e → ws.length ≤ n →
      Shallow (n + 1) (ws ++ [symbol .semicolon]) (.effect l e)
  | branch (l l' : Location) {n : Nat} {ws : List Word} {test : Expr}
      (items : List (List Word × Node)) : Phrase 1 ws test → ws.length ≤ n →
      (∀ a ∈ items, Shallow n a.1 a.2) →
      Shallow (n + 2) (⟨.ifWord, "if"⟩ :: symbol .leftParen :: ws ++ symbol .rightParen ::
          bracedWords items)
        (.branch l test (.block l' (items.map Prod.snd)) .empty)
  | branchElse (l l' l'' : Location) {n : Nat} {ws : List Word} {test : Expr}
      (items others : List (List Word × Node)) : Phrase 1 ws test → ws.length ≤ n →
      (∀ a ∈ items, Shallow n a.1 a.2) → (∀ a ∈ others, Shallow n a.1 a.2) →
      Shallow (n + 2) (⟨.ifWord, "if"⟩ :: symbol .leftParen :: ws ++ symbol .rightParen ::
          bracedWords items ++ ⟨.elseWord, "else"⟩ :: bracedWords others)
        (.branch l test (.block l' (items.map Prod.snd)) (.block l'' (others.map Prod.snd)))
  | whileLoop (l l' : Location) {n : Nat} {ws : List Word} {test : Expr}
      (items : List (List Word × Node)) : Phrase 1 ws test → ws.length ≤ n →
      (∀ a ∈ items, Shallow n a.1 a.2) →
      Shallow (n + 2) (⟨.whileWord, "while"⟩ :: symbol .leftParen :: ws ++ symbol .rightParen ::
          bracedWords items)
        (.whileLoop l test (.block l' (items.map Prod.snd)))
  | forLoop (l l' l'' : Location) {n : Nat} {ts us vs ws : List Word} {type : String}
      {start test update : Expr} (name : String) (items : List (List Word × Node)) :
      TypeWords ts type → Phrase 1 us start → us.length ≤ n → Phrase 1 vs test → vs.length ≤ n →
      Phrase 1 ws update → ws.length ≤ n → (∀ a ∈ items, Shallow n a.1 a.2) →
      Shallow (n + 2) (⟨.forWord, "for"⟩ :: symbol .leftParen :: (ts ++ ⟨.identifier, name⟩ ::
          symbol .assign :: us ++ [symbol .semicolon]) ++ vs ++ symbol .semicolon :: ws ++
          symbol .rightParen :: bracedWords items)
        (.forLoop l (.declaration l' type name start) test update
          (.block l'' (items.map Prod.snd)))

/-- A statement for which the levels are enough is one. -/
theorem Shallow.clause {n : Nat} {ws : List Word} {node : Node} (h : Shallow n ws node) :
    Clause ws node := by
  induction h with
  | effect l h => exact .effect l h
  | branch l l' items h _ _ ih => exact .branch l l' items h ih
  | branchElse l l' l'' items others h _ _ _ ih ih' =>
      exact .branchElse l l' items h ih (.block l'' others ih')
  | whileLoop l l' items h _ _ ih => exact .whileLoop l l' items h ih
  | forLoop l l' l'' name items htype hstart _ htest _ hupdate _ _ ih =>
      exact .forLoop l l'' items (.declared (.valued l' name htype hstart)) (.some htest)
        (.some hupdate) ih

/-! ## Headers -/

section Header

variable {levelsLeft depth n : Nat} (hlevels : n ≤ levelsLeft) (hdepth : n + depth < maxTreeDepth)
  {us rest : List Token} {ws : List Word}

include hlevels hdepth

theorem short_ok {e : Expr} (h : Phrase 1 ws e) (hlength : ws.length ≤ n)
    (hus : us.map Token.word = ws) (hrest : (kindAt 0 rest).joins = 0) :
    ∃ e', e'.forget = e.forget ∧ expression levelsLeft depth (us ++ rest) = .ok e' rest :=
  expression_ok h (by omega) (by omega) hus hrest

omit hlevels hdepth in
theorem unlessAt_phrase {e : Expr} (h : Phrase 1 ws e) (hus : us.map Token.word = ws)
    {kind : TokenKind} (hkind : kind.begins = false) (x : Read Expr) (rest : List Token) :
    unlessAt kind x (us ++ rest) = x (us ++ rest) := by
  obtain ⟨w, ws, rfl, hw, -⟩ := h.exists_head
  obtain ⟨t, us, rfl, ht, -, -⟩ := map_word_cons hus
  have hne : t.kind ≠ kind := by
    rintro rfl
    rw [ht, hw] at hkind
    cases hkind
  rw [unlessAt, bind_ok (peekKind_apply 0 _), List.cons_append, kindAt_cons,
    if_neg (by simpa using hne)]

theorem condition_ok {e : Expr} (h : Phrase 1 ws e) (hlength : ws.length ≤ n)
    (hus : us.map Token.word = ws) {left right : Token} (hleft : left.kind = .leftParen)
    (hright : right.kind = .rightParen) (rest : List Token) :
    ∃ e', e'.forget = e.forget ∧ ∀ opening closing,
      condition (expression levelsLeft depth) opening closing (left :: (us ++ right :: rest)) =
        .ok e' rest := by
  obtain ⟨e', he', hread⟩ := short_ok hlevels hdepth h hlength hus
    (show (kindAt 0 (right :: rest)).joins = 0 by rw [kindAt_cons, hright]; rfl)
  refine ⟨e', he', fun opening closing => ?_⟩
  rw [condition, bind_ok (expect_of_kind hleft (by decide) _), bind_ok hread,
    bind_ok (expect_of_kind hright (by decide) _)]
  rfl

theorem effect_ok (l : Location) {e : Expr} (h : Phrase 1 ws e) (hlength : ws.length ≤ n)
    (hus : us.map Token.word = ws) {semicolon : Token} (hkind : semicolon.kind = .semicolon)
    (rest : List Token) :
    ∃ node, (Node.effect l e).Like node ∧
      effect (expression levelsLeft depth) (us ++ semicolon :: rest) = .ok node rest := by
  obtain ⟨e', he', hread⟩ := short_ok hlevels hdepth h hlength hus
    (show (kindAt 0 (semicolon :: rest)).joins = 0 by rw [kindAt_cons, hkind]; rfl)
  refine ⟨.effect ((us ++ semicolon :: rest).headD default).location e', ?_, ?_⟩
  · rw [Node.Like, Node.forget, Node.forget, he']
  · rw [effect, bind_ok (peek_apply _), bind_ok hread, bind_ok (expect_of_kind hkind (by decide) _)]
    rfl

/-- The header of a loop that starts with a declaration. -/
theorem loopHeader_ok {ts vs xs : List Word} {type : String} {start test update : Expr}
    (l : Location) (name : String) (htype : TypeWords ts type) (hstart : Phrase 1 ws start)
    (hws : ws.length ≤ n) (htest : Phrase 1 vs test) (hvs : vs.length ≤ n)
    (hupdate : Phrase 1 xs update) (hxs : xs.length ≤ n) {left semicolon right : Token}
    {ds cs ss : List Token} (hleft : left.kind = .leftParen)
    (hds : ds.map Token.word =
      ts ++ ⟨.identifier, name⟩ :: symbol .assign :: ws ++ [symbol .semicolon])
    (hcs : cs.map Token.word = vs) (hsemicolon : semicolon.kind = .semicolon)
    (hss : ss.map Token.word = xs) (hright : right.kind = .rightParen) (rest : List Token) :
    ∃ init' test' update', (Node.declaration l type name start).Like init' ∧
      test'.forget = test.forget ∧ update'.forget = update.forget ∧
      loopHeader (expression levelsLeft depth)
        (left :: (ds ++ (cs ++ semicolon :: (ss ++ right :: rest)))) =
          .ok (init', test', update') rest := by
  obtain ⟨front, close, last, rfl, hfront, hclose, -, hlast⟩ := map_word_append_cons hds
  obtain rfl := List.map_eq_nil_iff.mp hlast
  obtain ⟨types, t, more, rfl, htypes, ht, htext, hmore⟩ := map_word_append_cons hfront
  obtain ⟨equals, us, rfl, hequals, -, hus⟩ := map_word_cons hmore
  rw [symbol_kind] at hclose hequals
  have htokens : types ++ t :: equals :: us ++ [close] ++ (cs ++ semicolon :: (ss ++ right :: rest)) =
      types ++ t :: equals :: (us ++ close :: (cs ++ semicolon :: (ss ++ right :: rest))) := by
    simp
  obtain ⟨start', hstart', hread₁⟩ := short_ok hlevels hdepth hstart hws hus
    (show (kindAt 0 (close :: (cs ++ semicolon :: (ss ++ right :: rest)))).joins = 0 by
      rw [kindAt_cons, hclose]; rfl)
  obtain ⟨test', htest', hread₂⟩ := short_ok hlevels hdepth htest hvs hcs
    (show (kindAt 0 (semicolon :: (ss ++ right :: rest))).joins = 0 by
      rw [kindAt_cons, hsemicolon]; rfl)
  obtain ⟨update', hupdate', hread₃⟩ := short_ok hlevels hdepth hupdate hxs hss
    (show (kindAt 0 (right :: rest)).joins = 0 by rw [kindAt_cons, hright]; rfl)
  have hspecifier := htype.typeSpecifier_ok types htypes
    (t :: equals :: (us ++ close :: (cs ++ semicolon :: (ss ++ right :: rest))))
  have hvalue : initialValue (expression levelsLeft depth)
      (equals :: (us ++ close :: (cs ++ semicolon :: (ss ++ right :: rest)))) =
        .ok start' (close :: (cs ++ semicolon :: (ss ++ right :: rest))) := by
    rw [initialValue, bind_ok (acceptKind_of_kind hequals (by decide))]
    exact hread₁
  generalize hts : types ++ t :: equals :: (us ++ close :: (cs ++ semicolon :: (ss ++ right :: rest))) =
    ts' at htokens hspecifier
  have hdeclaration : declaration (expression levelsLeft depth) ts' =
      .ok (.declaration (ts'.headD default).location type t.text start')
        (cs ++ semicolon :: (ss ++ right :: rest)) := by
    rw [declaration, bind_ok (peek_apply _), bind_ok hspecifier,
      bind_ok (expect_of_kind ht TokenKind.noConfusion _), bind_ok hvalue,
      bind_ok (expect_of_kind hclose (by decide) _)]
    rfl
  have hat : atType ts' = .ok true ts' := by
    have hlength := htype.typeLength types htypes
      (t :: equals :: (us ++ close :: (cs ++ semicolon :: (ss ++ right :: rest))))
    obtain ⟨w, ws, rfl, -⟩ := htype.exists_head
    obtain ⟨t₀, types, rfl, -⟩ := map_word_cons htypes
    rw [hts] at hlength
    rw [atType, hlength]
    rfl
  refine ⟨.declaration (ts'.headD default).location type t.text start', test', update', ?_, htest',
    hupdate', ?_⟩
  · rw [Node.Like, Node.forget, Node.forget, hstart', htext]
  · rw [htokens, loopHeader, bind_ok (expect_of_kind hleft (by decide) _), loopInit, bind_assoc,
      bind_ok hat, if_pos rfl, bind_ok hdeclaration,
      bind_ok ((unlessAt_phrase htest hcs rfl _ _).trans hread₂),
      bind_ok (expect_of_kind hsemicolon (by decide) _),
      bind_ok ((unlessAt_phrase hupdate hss rfl _ _).trans hread₃),
      bind_ok (expect_of_kind hright (by decide) _)]
    rfl

end Header

/-! ## Statements -/

/-- Words are read as a statement without a report, if the levels are enough. -/
def ReadsOk (behind : List Token → Prop) (n : Nat) (ws : List Word) (node : Node) : Prop :=
  ∀ limit levelsLeft depth, n ≤ levelsLeft → n + depth < maxTreeDepth →
    ∀ us, us.map Token.word = ws → ∀ rest, behind rest → ∀ recoveries findings,
      ∃ node', node.Like node' ∧
        statement limit levelsLeft depth ⟨us ++ rest, recoveries, findings⟩ =
          .ok (some node') ⟨rest, recoveries, findings⟩

/-- A statement is read if its reader by the first token reads it. -/
theorem readsOk_of_statementOf {behind : List Token → Prop} {n : Nat} {ws : List Word}
    {node : Node}
    (h : ∀ limit levelsLeft depth, n ≤ levelsLeft → n + depth < maxTreeDepth →
      ∀ us, us.map Token.word = ws → ∀ rest, behind rest → ∀ recoveries findings,
        ∃ node', node.Like node' ∧
          statementOf ⟨expression levelsLeft depth, statement limit levelsLeft depth⟩
            ⟨us ++ rest, recoveries, findings⟩ = .ok node' ⟨rest, recoveries, findings⟩) :
    ReadsOk behind (n + 1) ws node := by
  intro limit levelsLeft depth hlevels hdepth us hus rest hrest recoveries findings
  obtain ⟨k, rfl⟩ := Nat.exists_eq_add_of_le' (Nat.le_of_add_left_le hlevels)
  obtain ⟨node', hnode', hread⟩ := h limit k (depth + 1) (by omega) (by omega) us hus rest hrest
    recoveries findings
  refine ⟨node', hnode', ?_⟩
  rw [statement, if_neg (by omega)]
  exact recovering_ok limit hread

theorem readsOk_effect (l : Location) {n : Nat} {ws : List Word} {e : Expr} (h : Phrase 1 ws e)
    (hlength : ws.length ≤ n) (behind : List Token → Prop) :
    ReadsOk behind (n + 1) (ws ++ [symbol .semicolon]) (.effect l e) := by
  refine readsOk_of_statementOf fun limit levelsLeft depth hlevels hdepth us hus rest _ recoveries
    findings => ?_
  obtain ⟨vs, semicolon, last, rfl, hvs, hkind, -, hlast⟩ := map_word_append_cons hus
  obtain rfl := List.map_eq_nil_iff.mp hlast
  rw [symbol_kind] at hkind
  obtain ⟨node', hnode', hread⟩ := effect_ok hlevels hdepth l h hlength hvs hkind rest
  refine ⟨node', hnode', ?_⟩
  obtain ⟨w, ws, rfl, hw, -⟩ := h.exists_head
  obtain ⟨t, vs, rfl, ht, -, -⟩ := map_word_cons hvs
  rw [statementOf_effect (by rw [List.append_assoc, List.cons_append, kindAt_cons, ht]; exact hw),
    List.append_assoc, List.singleton_append]
  exact reading_ok hread

/-! ## Blocks -/

/-- A statement may be read in front of anything but an `else`. -/
def NotElse (rest : List Token) : Prop :=
  kindAt 0 rest ≠ .elseWord

theorem statements_ok (limit : Nat) {n levelsLeft depth : Nat} (hlevels : n ≤ levelsLeft)
    (hdepth : n + depth < maxTreeDepth) {items : List (List Word × Node)}
    (hreads : ∀ a ∈ items, ReadsOk NotElse n a.1 a.2)
    (hheads : ∀ a ∈ items, ∃ w ws, a.1 = w :: ws ∧ w.kind.startsClause = true)
    {us : List Token} (hus : us.map Token.word = items.flatMap Prod.fst) {right : Token}
    (hright : right.kind = .rightBrace) (rest : List Token) (recoveries : Nat)
    (findings : Findings) (fuel : Nat) (hfuel : us.length ≤ fuel) :
    ∃ ns, Node.forgetList ns = Node.forgetList (items.map Prod.snd) ∧
      statements (statement limit levelsLeft depth) fuel
        ⟨us ++ right :: rest, recoveries, findings⟩ =
          .ok ns ⟨right :: rest, recoveries, findings⟩ := by
  induction items generalizing us fuel with
  | nil =>
      obtain rfl := List.map_eq_nil_iff.mp hus
      exact ⟨[], rfl, statements_stop _ _ (Or.inl hright)⟩
  | cons a items ih =>
      obtain ⟨hread, hreads⟩ := List.forall_mem_cons.mp hreads
      obtain ⟨⟨w, ws, ha, hw⟩, hheads⟩ := List.forall_mem_cons.mp hheads
      rw [List.flatMap_cons] at hus
      obtain ⟨us, vs, rfl, hus, hvs⟩ := List.map_eq_append_iff.mp hus
      obtain ⟨n', hn', hrun⟩ := hread limit levelsLeft depth hlevels hdepth us hus
        (vs ++ right :: rest) (kindAt_items hheads hvs hright rest) recoveries findings
      rw [ha] at hus
      obtain ⟨t, us, rfl, ht, -, -⟩ := map_word_cons hus
      cases fuel with
      | zero => simp at hfuel
      | succ fuel =>
          have hlength : vs.length ≤ fuel := by
            simp only [List.length_append, List.length_cons] at hfuel
            omega
          obtain ⟨ns, hns, hrest⟩ := ih hreads hheads hvs fuel hlength
          have hne : ∀ kind : TokenKind, kind.startsClause = false → t.kind ≠ kind := by
            rintro kind hkind rfl
            rw [ht, hw] at hkind
            cases hkind
          refine ⟨n' :: ns, ?_, ?_⟩
          · rw [Node.Like] at hn'
            rw [List.map_cons, Node.forgetList, Node.forgetList, hn', hns]
          · rw [List.append_assoc]
            exact statements_cons fuel (by exact hne .rightBrace rfl)
              (by exact hne .endOfInput rfl) hrun hrest

theorem braced_ok (limit : Nat) {n levelsLeft depth : Nat} (hlevels : n ≤ levelsLeft)
    (hdepth : n + depth < maxTreeDepth) (l : Location) {items : List (List Word × Node)}
    (hreads : ∀ a ∈ items, ReadsOk NotElse n a.1 a.2)
    (hheads : ∀ a ∈ items, ∃ w ws, a.1 = w :: ws ∧ w.kind.startsClause = true)
    {us : List Token} (hus : us.map Token.word = bracedWords items) (rest : List Token)
    (recoveries : Nat) (findings : Findings) :
    ∃ node', (Node.block l (items.map Prod.snd)).Like node' ∧
      block (statement limit levelsLeft depth) ⟨us ++ rest, recoveries, findings⟩ =
        .ok node' ⟨rest, recoveries, findings⟩ := by
  obtain ⟨left, vs, rfl, hleft, -, hvs⟩ := map_word_cons hus
  obtain ⟨us, right, last, rfl, hinside, hright, -, hlast⟩ := map_word_append_cons hvs
  obtain rfl := List.map_eq_nil_iff.mp hlast
  rw [symbol_kind] at hright hleft
  obtain ⟨ns, hns, hrun⟩ := statements_ok limit hlevels hdepth hreads hheads hinside
    hright rest recoveries findings (us ++ right :: rest).length (by simp)
  refine ⟨.block left.location ns, ?_, ?_⟩
  · rw [Node.Like, Node.forget, Node.forget, hns]
  · rw [List.cons_append, List.append_assoc, List.singleton_append]
    exact block_ok hleft hright hrun

theorem readsOk_block {n : Nat} (l : Location) {items : List (List Word × Node)}
    (hreads : ∀ a ∈ items, ReadsOk NotElse n a.1 a.2)
    (hheads : ∀ a ∈ items, ∃ w ws, a.1 = w :: ws ∧ w.kind.startsClause = true) :
    ReadsOk (fun _ => True) (n + 1) (bracedWords items) (.block l (items.map Prod.snd)) := by
  refine readsOk_of_statementOf fun limit levelsLeft depth hlevels hdepth us hus rest _ recoveries
    findings => ?_
  obtain ⟨node', hnode', hrun⟩ := braced_ok limit hlevels hdepth l hreads hheads hus
    rest recoveries findings
  refine ⟨node', hnode', ?_⟩
  obtain ⟨left, vs, rfl, hleft, -, -⟩ := map_word_cons hus
  rwa [statementOf_block (by exact hleft)]

/-! ## Choices and loops -/

/-- A choice is read from its condition, its first arm and its alternative. -/
theorem branch_ok {parts : Parts} {word : Token} {test : Expr} {body otherwise : Node}
    {ts us vs rest : List Token} {recoveries : Nat} {findings : Findings}
    (hword : word.kind = .ifWord)
    (htest : ∀ opening closing, condition parts.expression opening closing ts = .ok test us)
    (hbody : parts.statement ⟨us, recoveries, findings⟩ = .ok (some body) ⟨vs, recoveries, findings⟩)
    (hotherwise : alternative parts ⟨vs, recoveries, findings⟩ =
      .ok otherwise ⟨rest, recoveries, findings⟩) :
    statementOf parts ⟨word :: ts, recoveries, findings⟩ =
      .ok (.branch word.location test body otherwise) ⟨rest, recoveries, findings⟩ := by
  have hend : word.kind ≠ .endOfInput := by
    rw [hword]
    decide
  rw [statementOf_branch (by exact hword), branch, bind_ok (reading_ok (advance_cons hend)),
    bind_ok (reading_ok (htest _ _)), bind_ok (substatement_ok hbody), bind_ok hotherwise]
  rfl

theorem readsOk_branch (l : Location) {n : Nat} {ws vs : List Word} {test : Expr} {body : Node}
    (htest : Phrase 1 ws test) (hlength : ws.length ≤ n + 1)
    (hbody : ReadsOk (fun _ => True) (n + 1) vs body) :
    ReadsOk NotElse (n + 2)
      (⟨.ifWord, "if"⟩ :: symbol .leftParen :: ws ++ symbol .rightParen :: vs)
      (.branch l test body .empty) := by
  refine readsOk_of_statementOf fun limit levelsLeft depth hlevels hdepth us hus rest hrest
    recoveries findings => ?_
  obtain ⟨word, ts, rfl, hword, -, hts⟩ := map_word_cons hus
  obtain ⟨left, ts, rfl, hleft, -, hts⟩ := map_word_cons hts
  obtain ⟨cs, right, bs, rfl, hcs, hright, -, hbs⟩ := map_word_append_cons hts
  obtain ⟨test', htest', hread⟩ := condition_ok hlevels hdepth htest hlength hcs hleft hright
    (bs ++ rest)
  obtain ⟨body', hbody', hrun⟩ := hbody limit levelsLeft depth hlevels hdepth bs hbs rest trivial
    recoveries findings
  refine ⟨.branch word.location test' body' .empty, ?_, ?_⟩
  · rw [Node.Like] at hbody'
    rw [Node.Like, Node.forget, Node.forget, htest', hbody']
    rfl
  · have hnone : acceptKind .elseWord rest = .ok none rest := acceptKind_none hrest
    rw [List.cons_append, List.cons_append, List.append_assoc, List.cons_append]
    refine branch_ok hword hread hrun ?_
    rw [alternative, bind_ok (reading_ok hnone)]
    rfl

theorem readsOk_branchElse (l : Location) {n : Nat} {ws vs xs : List Word} {test : Expr}
    {body otherwise : Node} (htest : Phrase 1 ws test) (hlength : ws.length ≤ n + 1)
    (hbody : ReadsOk (fun _ => True) (n + 1) vs body)
    (hotherwise : ReadsOk (fun _ => True) (n + 1) xs otherwise) :
    ReadsOk NotElse (n + 2) (⟨.ifWord, "if"⟩ :: symbol .leftParen :: ws ++
      symbol .rightParen :: vs ++ ⟨.elseWord, "else"⟩ :: xs) (.branch l test body otherwise) := by
  refine readsOk_of_statementOf fun limit levelsLeft depth hlevels hdepth us hus rest _
    recoveries findings => ?_
  obtain ⟨us, other, os, rfl, hus, hother, -, hos⟩ := map_word_append_cons hus
  obtain ⟨word, ts, rfl, hword, -, hts⟩ := map_word_cons hus
  obtain ⟨left, ts, rfl, hleft, -, hts⟩ := map_word_cons hts
  obtain ⟨cs, right, bs, rfl, hcs, hright, -, hbs⟩ := map_word_append_cons hts
  have htokens : word :: left :: (cs ++ right :: bs) ++ other :: os ++ rest =
      word :: left :: (cs ++ right :: (bs ++ other :: (os ++ rest))) := by simp
  obtain ⟨test', htest', hread⟩ := condition_ok hlevels hdepth htest hlength hcs hleft hright
    (bs ++ other :: (os ++ rest))
  obtain ⟨body', hbody', hrun⟩ := hbody limit levelsLeft depth hlevels hdepth bs hbs
    (other :: (os ++ rest)) trivial recoveries findings
  obtain ⟨otherwise', hotherwise', hrun'⟩ := hotherwise limit levelsLeft depth hlevels hdepth os hos
    rest trivial recoveries findings
  refine ⟨.branch word.location test' body' otherwise', ?_, ?_⟩
  · rw [Node.Like] at hbody' hotherwise'
    rw [Node.Like, Node.forget, Node.forget, htest', hbody', hotherwise']
  · rw [htokens]
    refine branch_ok hword hread hrun ?_
    rw [alternative, bind_ok (reading_ok (acceptKind_of_kind hother (by decide)))]
    dsimp only
    rw [substatement_ok hrun']
    rfl

theorem readsOk_whileLoop (l : Location) {n : Nat} {ws vs : List Word} {test : Expr} {body : Node}
    (htest : Phrase 1 ws test) (hlength : ws.length ≤ n + 1)
    (hbody : ReadsOk (fun _ => True) (n + 1) vs body) (behind : List Token → Prop) :
    ReadsOk behind (n + 2)
      (⟨.whileWord, "while"⟩ :: symbol .leftParen :: ws ++ symbol .rightParen :: vs)
      (.whileLoop l test body) := by
  refine readsOk_of_statementOf fun limit levelsLeft depth hlevels hdepth us hus rest _
    recoveries findings => ?_
  obtain ⟨word, ts, rfl, hword, -, hts⟩ := map_word_cons hus
  obtain ⟨left, ts, rfl, hleft, -, hts⟩ := map_word_cons hts
  obtain ⟨cs, right, bs, rfl, hcs, hright, -, hbs⟩ := map_word_append_cons hts
  obtain ⟨test', htest', hread⟩ := condition_ok hlevels hdepth htest hlength hcs hleft hright
    (bs ++ rest)
  obtain ⟨body', hbody', hrun⟩ := hbody limit levelsLeft depth hlevels hdepth bs hbs rest trivial
    recoveries findings
  have hend : word.kind ≠ .endOfInput := by
    rw [hword]
    decide
  refine ⟨.whileLoop word.location test' body', ?_, ?_⟩
  · rw [Node.Like] at hbody'
    rw [Node.Like, Node.forget, Node.forget, htest', hbody']
  · rw [List.cons_append, List.cons_append, List.append_assoc, List.cons_append,
      statementOf_whileLoop (by exact hword), whileLoop, bind_ok (reading_ok (advance_cons hend)),
      bind_ok (reading_ok (hread _ _)), bind_ok (substatement_ok hrun)]
    rfl

theorem readsOk_forLoop (l l' : Location) {n : Nat} {ts us vs ws xs : List Word} {type : String}
    {start test update : Expr} {body : Node} (name : String) (htype : TypeWords ts type)
    (hstart : Phrase 1 us start) (hus : us.length ≤ n + 1) (htest : Phrase 1 vs test)
    (hvs : vs.length ≤ n + 1) (hupdate : Phrase 1 ws update) (hws : ws.length ≤ n + 1)
    (hbody : ReadsOk (fun _ => True) (n + 1) xs body) (behind : List Token → Prop) :
    ReadsOk behind (n + 2) (⟨.forWord, "for"⟩ :: symbol .leftParen :: (ts ++ ⟨.identifier, name⟩ ::
        symbol .assign :: us ++ [symbol .semicolon]) ++ vs ++ symbol .semicolon :: ws ++
        symbol .rightParen :: xs)
      (.forLoop l (.declaration l' type name start) test update body) := by
  refine readsOk_of_statementOf fun limit levelsLeft depth hlevels hdepth ts hts rest _
    recoveries findings => ?_
  obtain ⟨front, right, bs, rfl, hfront, hright, -, hbs⟩ := map_word_append_cons hts
  obtain ⟨front, semicolon, ss, rfl, hfront, hsemicolon, -, hss⟩ := map_word_append_cons hfront
  obtain ⟨word, ts, rfl, hword, -, hts⟩ := map_word_cons hfront
  obtain ⟨left, ts, rfl, hleft, -, hts⟩ := map_word_cons hts
  obtain ⟨ds, cs, rfl, hds, hcs⟩ := List.map_eq_append_iff.mp hts
  have htokens : word :: left :: (ds ++ cs) ++ semicolon :: ss ++ right :: bs ++ rest =
      word :: left :: (ds ++ (cs ++ semicolon :: (ss ++ right :: (bs ++ rest)))) := by simp
  obtain ⟨init', test', update', hinit', htest', hupdate', hread⟩ := loopHeader_ok hlevels hdepth l'
    name htype hstart hus htest hvs hupdate hws hleft hds hcs hsemicolon hss hright (bs ++ rest)
  obtain ⟨body', hbody', hrun⟩ := hbody limit levelsLeft depth hlevels hdepth bs hbs rest trivial
    recoveries findings
  have hend : word.kind ≠ .endOfInput := by
    rw [hword]
    decide
  refine ⟨.forLoop word.location init' test' update' body', ?_, ?_⟩
  · rw [Node.Like] at hinit' hbody'
    rw [Node.Like, Node.forget, Node.forget, hinit', htest', hupdate', hbody']
  · rw [htokens, statementOf_forLoop (by exact hword), forLoop,
      bind_ok (reading_ok (advance_cons hend)), bind_ok (reading_ok hread)]
    dsimp only
    rw [bind_ok (substatement_ok hrun)]
    rfl

theorem Shallow.reads {n : Nat} {ws : List Word} {node : Node} (h : Shallow n ws node) :
    ReadsOk NotElse n ws node := by
  have hheads : ∀ {m : Nat} {items : List (List Word × Node)},
      (∀ a ∈ items, Shallow m a.1 a.2) → ∀ a ∈ items, ∃ w ws, a.1 = w :: ws ∧
        w.kind.startsClause = true := fun hitems a ha => (hitems a ha).clause.exists_head
  induction h with
  | effect l h hlength => exact readsOk_effect l h hlength NotElse
  | branch l l' items htest hlength hitems ih =>
      exact readsOk_branch l htest (by omega) (readsOk_block l' ih (hheads hitems))
  | branchElse l l' l'' items others htest hlength hitems hothers ih ih' =>
      exact readsOk_branchElse l htest (by omega) (readsOk_block l' ih (hheads hitems))
        (readsOk_block l'' ih' (hheads hothers))
  | whileLoop l l' items htest hlength hitems ih =>
      exact readsOk_whileLoop l htest (by omega) (readsOk_block l' ih (hheads hitems)) NotElse
  | forLoop l l' l'' name items htype hstart hus htest hvs hupdate hws hitems ih =>
      exact readsOk_forLoop l l' name htype hstart (by omega) htest (by omega) hupdate (by omega)
        (readsOk_block l'' ih (hheads hitems)) NotElse

/-! ## Functions -/

def functionWords (f : String × List (List Word × Node)) : List Word :=
  headerWords ⟨.voidType, "void"⟩ f.1 ++ bracedWords f.2

def functionNode (f : String × List (List Word × Node)) : Node :=
  .function default f.1 "void" [] (.block default (f.2.map Prod.snd))

/-- A function without parameters that was read, places aside. -/
theorem exists_function {n : Node} {f : String × List (List Word × Node)}
    (h : n.forget = (functionNode f).forget) :
    ∃ l body, n = .function l f.1 "void" [] body ∧
      body.forget = (Node.block default (f.2.map Prod.snd)).forget := by
  rw [functionNode, Node.forget] at h
  cases n with
  | function l name returnType parameters body =>
      rw [Node.forget] at h
      injection h with _ hname htype hparameters hbody
      obtain rfl := List.map_eq_nil_iff.mp hparameters
      exact ⟨l, body, by rw [hname, htype], hbody⟩
  | _ => cases h

theorem declarations_ok (limit : Nat) {fs : List (String × List (List Word × Node))}
    (h : ∀ f ∈ fs, ∀ a ∈ f.2, Shallow maxNesting a.1 a.2) {us : List Token}
    (hus : us.map Token.word = fs.flatMap functionWords) {last : Token}
    (hlast : last.kind = .endOfInput) (recoveries : Nat) (findings : Findings) (fuel : Nat)
    (hfuel : us.length ≤ fuel) :
    ∃ ns, Node.forgetList ns = Node.forgetList (fs.map functionNode) ∧
      declarations limit fuel ⟨us ++ [last], recoveries, findings⟩ =
        (ns, ⟨[last], recoveries, findings⟩, none) := by
  induction fs generalizing us fuel with
  | nil =>
      obtain rfl := List.map_eq_nil_iff.mp hus
      exact ⟨[], rfl, declarations_end hlast⟩
  | cons f fs ih =>
      obtain ⟨hf, hfs⟩ := List.forall_mem_cons.mp h
      rw [List.flatMap_cons] at hus
      obtain ⟨us, vs, rfl, hus, hvs⟩ := List.map_eq_append_iff.mp hus
      obtain ⟨header, body, rfl, hheader, hbody⟩ := List.map_eq_append_iff.mp hus
      obtain ⟨body', hbody', hrun⟩ := braced_ok limit (Nat.le_refl maxNesting) (show maxNesting + 0 < maxTreeDepth by decide) default
        (fun a ha => (hf a ha).reads) (fun a ha => (hf a ha).clause.exists_head) hbody
        (vs ++ [last]) recoveries findings
      obtain ⟨l, htop⟩ := topLevel_function limit hheader hrun
      obtain ⟨t, header, rfl, ht, -, -⟩ := map_word_cons hheader
      have hkind : t.kind ≠ .endOfInput := by
        rw [ht]
        decide
      cases fuel with
      | zero => simp at hfuel
      | succ fuel =>
          have hlength : vs.length ≤ fuel := by
            simp only [List.length_append, List.length_cons] at hfuel
            omega
          obtain ⟨ns, hns, hrest⟩ := ih hfs hvs fuel hlength
          refine ⟨.function l f.1 "void" [] body' :: ns, ?_, ?_⟩
          · rw [Node.Like] at hbody'
            rw [List.map_cons, Node.forgetList, Node.forgetList, hns, functionNode, Node.forget,
              Node.forget, hbody']
          · rw [List.append_assoc, List.append_assoc, declarations_cons (by exact hkind) htop, hrest]
            rfl

/-- Functions with shallow bodies are read without a report, whatever is tolerated. -/
theorem parse_functions {source : String} {fs : List (String × List (List Word × Node))}
    (hwords : words source.toList = fs.flatMap functionWords)
    (h : ∀ f ∈ fs, ∀ a ∈ f.2, Shallow maxNesting a.1 a.2) (file : String) (limit : Nat) :
    Node.forgetList (parse source file limit).program.body =
        Node.forgetList (fs.map functionNode) ∧
      (parse source file limit).diagnostics = [] ∧
      (parse source file limit).unreadable = none := by
  have htokens := significant_word source file
  rw [hwords] at htokens
  obtain ⟨us, last, hts, hus, hlast⟩ := List.map_eq_append_iff.mp htokens
  obtain ⟨t, rfl, ht⟩ := List.map_eq_singleton_iff.mp hlast
  have hend : t.kind = .endOfInput := congrArg Word.kind ht
  obtain ⟨ns, hns, hrun⟩ := declarations_ok limit h hus hend 0 (.empty "parser")
    (us ++ [t]).length (by simp)
  rw [parse, parseTokens, prepare_tokenize, hts]
  dsimp only
  rw [hrun]
  exact ⟨hns, rfl, rfl⟩

end Grammar

end InoBlocks
