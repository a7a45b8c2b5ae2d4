import InoBlocks.Proofs.Code.CanonicalControl
import InoBlocks.Proofs.Sketch.PhraseOrigin
import InoBlocks.Proofs.Sketch.SafeNames
import InoBlocks.Proofs.Token.Closed

/-!
# The headers of loops

The texts of the blocks in the header of a loop stand there without parentheses.  Behind `=` and
`+=` any expression is the whole operand.  Behind a comparison it is so exactly if the text binds
tighter than the comparison: a looser operator in it takes the comparison as its own left operand.
-/

namespace InoBlocks

open Word Grammar ExprGrammar Read

/-! ## What a comparison takes of the words behind it -/

namespace Expr

/-- Whether the outermost operator of an expression stands between two operands. -/
def isOperation : Expr → Bool
  | .binary .. | .assign .. => true
  | _ => false

theorem isOperation_forget (e : Expr) : e.forget.isOperation = e.isOperation := by
  cases e <;> rfl

/-- Whether the left operand of an expression is an operation, or may be one. -/
def isOvertaken : Expr → Bool
  | .binary _ _ a _ => a.isOperation
  | .assign .. => true
  | _ => false

theorem forget_ne_of_isOvertaken {e a b : Expr} (h : e.isOvertaken = true)
    (ha : a.isOperation = false) (l : Location) (op : String) :
    e.forget ≠ (Expr.binary l op a b).forget := by
  intro heq
  cases e with
  | binary l' op' a' b' =>
      rw [forget, forget] at heq
      have hleft := congrArg isOperation (Expr.binary.inj heq).2.2.1
      rw [isOperation_forget, isOperation_forget, ha] at hleft
      rw [isOvertaken, hleft] at h
      cases h
  | assign => cases heq
  | _ => cases h

end Expr

namespace Phrase

variable {n : Nat} {us ws : List Word} {op : Word} {a e : Expr}

/-- By induction on the phrase: a comparison in front of it has all of it as its right operand, or
it ends in front of an operator of the phrase, which takes the comparison as its left operand. -/
theorem compared (hop : op.kind.joins = 5) (ha : Phrase 5 us a) (h : Phrase n ws e) :
    Phrase 6 ws e ∨
      ∃ t, Phrase (min n 5) (us ++ op :: ws) t ∧ t.isOperation = true ∧ t.isOvertaken = true := by
  -- The left operand of an operator of the phrase, with the comparison in front of it.
  have hleft : ∀ {n : Nat} {vs : List Word} {b : Expr}, 1 ≤ n → n ≤ 5 →
      (Phrase 6 vs b ∨ ∃ t, Phrase (min n 5) (us ++ op :: vs) t ∧ t.isOperation = true ∧
        t.isOvertaken = true) →
      ∃ t, Phrase n (us ++ op :: vs) t ∧ t.isOperation = true := by
    intro n vs b hlow hhigh h
    rcases h with htight | ⟨t, ht, hoperation, -⟩
    · have hall := Phrase.binary default (by decide) (by decide) hop ha htight
      exact ⟨_, hall.loosenTo hlow hhigh, rfl⟩
    · rw [Nat.min_eq_left hhigh] at ht
      exact ⟨t, ht, hoperation⟩
  induction h with
  | name l hid => exact Or.inl ((Phrase.name l hid).loosenTo (by decide) (by decide))
  | pin l hid => exact Or.inl ((Phrase.pin l hid).loosenTo (by decide) (by decide))
  | number l hvalue => exact Or.inl ((Phrase.number l hvalue).loosenTo (by decide) (by decide))
  | string l raw => exact Or.inl ((Phrase.string l raw).loosenTo (by decide) (by decide))
  | constant l text hkind =>
      exact Or.inl ((Phrase.constant l text hkind).loosenTo (by decide) (by decide))
  | group hl hr h => exact Or.inl ((Phrase.group hl hr h).loosenTo (by decide) (by decide))
  | member l hdot hproperty h =>
      exact Or.inl ((Phrase.member l hdot hproperty h).loosenTo (by decide) (by decide))
  | call l hl hr h hlist harguments =>
      exact Or.inl ((Phrase.call l hl hr h hlist harguments).loosenTo (by decide) (by decide))
  | step l hkind h => exact Or.inl ((Phrase.step l hkind h).loosenTo (by decide) (by decide))
  | leading l hkind h => exact Or.inl ((Phrase.leading l hkind h).loosenTo (by decide) (by decide))
  | @binary l n op' vs vs' b b' hlow hhigh hjoins hb hb' ih =>
      by_cases htight : 6 ≤ n
      · exact Or.inl ((Phrase.binary l hlow hhigh hjoins hb hb').loosenTo (by decide) htight)
      · obtain ⟨t, ht, hoperation⟩ := hleft (by omega) (by omega) ih
        have hall := Phrase.binary l hlow hhigh hjoins ht hb'
        rw [List.append_assoc, List.cons_append] at hall
        refine Or.inr ⟨.binary l op'.text t b', ?_, rfl, hoperation⟩
        rwa [Nat.min_eq_left (by omega)]
  | assign l hkind _ hb' ih =>
      obtain ⟨t, ht, -⟩ := hleft (by decide) (by decide) ih
      have hall := Phrase.assign l hkind ht hb'
      rw [List.append_assoc, List.cons_append] at hall
      exact Or.inr ⟨_, hall, rfl, rfl⟩
  | @loosen n vs b hn _ ih =>
      refine ih.imp_right fun ⟨t, ht, hovertaken⟩ => ⟨t, ht.loosenTo ?_ ?_, hovertaken⟩ <;> omega

/-- A comparison with any phrase behind it is read, and all of the phrase is its right operand
exactly if the phrase binds tighter. -/
theorem exists_compared (hop : op.kind.joins = 5) (ha : Phrase 5 us a)
    (hplain : a.isOperation = false) (h : Phrase 1 ws e) :
    ∃ t, Phrase 1 (us ++ op :: ws) t ∧
      (t.forget = (Expr.binary default op.text a e).forget ↔ Phrase 6 ws e) := by
  by_cases htight : Phrase 6 ws e
  · have hall := Phrase.binary default (by decide) (by decide) hop ha htight
    exact ⟨_, hall.loosenTo (by decide) (by decide), iff_of_true rfl htight⟩
  · obtain ⟨t, ht, -, hovertaken⟩ := (compared hop ha h).resolve_left htight
    exact ⟨t, ht, iff_of_false (Expr.forget_ne_of_isOvertaken hovertaken hplain _ _) htight⟩

end Phrase

/-! ## Texts of expressions -/

/-- A text is by itself an expression, whatever the limits of nesting. -/
def IsExpression (text : String) (e : Expr) : Prop :=
  ∃ levelsLeft depth mark,
    expression levelsLeft depth (Token.significant text "") = .ok e [mark]

theorem IsExpression.phrase {text : String} {e : Expr} (h : IsExpression text e) :
    Phrase 1 (words text.toList) e := by
  obtain ⟨levelsLeft, depth, mark, hread⟩ := h
  obtain ⟨us, hus, hphrase⟩ := expression_sound levelsLeft depth _ _ _ hread
  have hwords := significant_word text ""
  rw [hus, List.map_append, List.map_singleton] at hwords
  rwa [(List.append_inj' hwords rfl).1] at hphrase

/-- A text is read as some words in front of a semicolon or a closing parenthesis. -/
abbrev ReadsInside (text : String) (ws : List Word) : Prop :=
  ReadsAs text.toList ws fun d => !Token.isClosing d

theorem Word.Closed.reads {text : String} (h : Closed text.toList) :
    ReadsInside text (words text.toList) := by
  intro rest hrest
  cases rest with
  | nil => rw [List.append_nil, words_nil, List.append_nil]
  | cons d rest => exact h.words_append (by simpa using hrest d rfl) rest

/-- Nothing that would end a text inside a header goes on with an expression. -/
theorem Spelling.inside {text : String} {ws : List Word} {pointed : Bool}
    (h : Spelling text ws pointed) : ReadsInside text ws := by
  refine h.reads.mono fun d hd => ?_
  cases hclosing : Token.isClosing d with
  | false => rfl
  | true =>
      simp only [Token.isClosing, Bool.or_eq_true, beq_iff_eq] at hclosing
      have htail := tail_le_true pointed d hd
      rcases hclosing with rfl | rfl <;> exact absurd htail (by decide)

namespace Code

/-! ## The words of a header -/

/-- The variable with a name, or the pin that is spelled like it. -/
def counterExpr (name : String) : Expr :=
  if isAnalogPin name then .pin default name true else .name default name

theorem phrase_counterExpr (name : String) :
    Phrase 10 [⟨.identifier, name⟩] (counterExpr name) := by
  rw [counterExpr]
  cases hpin : isAnalogPin name with
  | true => exact .pin default hpin
  | false => exact .name default hpin

theorem isOperation_counterExpr (name : String) : (counterExpr name).isOperation = false := by
  rw [counterExpr]
  split <;> rfl

def loopText (name start op stop step : String) : String :=
  "for (int " ++ name ++ " = " ++ start ++ "; " ++ name ++ " " ++ op ++ " " ++ stop ++ "; " ++
    step ++ ")"

def startWords (name : String) (us : List Word) : List Word :=
  [⟨.intType, "int"⟩] ++ ⟨.identifier, name⟩ :: symbol .assign :: us ++ [symbol .semicolon]

def loopWords (name : String) (us : List Word) (kind : TokenKind) (vs ws : List Word) : List Word :=
  ⟨.forWord, "for"⟩ :: symbol .leftParen :: (startWords name us ++
    (⟨.identifier, name⟩ :: symbol kind :: vs ++ symbol .semicolon :: (ws ++ [symbol .rightParen])))

section Header

variable {name start op stop step : String} {us vs ws : List Word} {kind : TokenKind}

theorem reads_loopText (hname : Word.Firm ⟨.identifier, name⟩) (hstart : ReadsInside start us)
    (hop : kind.symbol? = some op) (hstop : ReadsInside stop vs) (hstep : ReadsInside step ws) :
    ReadsAlone (loopText name start op stop step).toList (loopWords name us kind vs ws) := by
  have hspelling : Spelling name [⟨.identifier, name⟩] false := Spelling.word hname rfl rfl
  obtain ⟨hfirm, hblank⟩ := firm_keyword (.forWord, "for") (by decide)
  have hfor : ReadsAlone ("for".toList ++ [' ']) [⟨.forWord, "for"⟩] :=
    hfirm.readsAs.blank hblank
  have hopen : ReadsAlone ['('] [symbol .leftParen] := readsAs_symbol .leftParen rfl
  have htype : ReadsAlone ("int".toList ++ [' ']) [⟨.intType, "int"⟩] :=
    (firm_ofWord (by decide) (by decide) (by decide)).readsAs.blank (by decide)
  have hsemicolon : ReadsAlone ([';'] ++ [' ']) [symbol .semicolon] :=
    (readsAs_symbol .semicolon rfl).blank rfl
  have hclose : ReadsAlone [')'] [symbol .rightParen] := readsAs_symbol .rightParen rfl
  have hlast := hstep.append hclose fun _ _ => apart_cons rfl _
  have htest := (hspelling.readsBy_infixed hop hstop).append (hsemicolon.seq hlast)
    fun _ _ => apart_cons rfl _
  have hfirst := (hspelling.readsBy_infixed (show TokenKind.assign.symbol? = some "=" from rfl)
    hstart).append (hsemicolon.seq htest) fun _ _ => apart_cons rfl _
  have hall := hfor.seq (hopen.seq (htype.seq hfirst))
  unfold loopText
  simpa [loopWords, startWords] using hall

/-- A text is the header of a loop in front of whatever comes behind it: it is read as the three
parts of a header, and what comes behind it as the body; or a limit of nesting is hit. -/
structure IsLoopHeader (header : String) (P : Node → Expr → Expr → Prop) : Prop where
  alone : ReadsAlone header.toList (words header.toList)
  reads (levelsLeft depth : Nat) (body : Recover (Option Node)) (us rest : List Token)
    (recoveries : Nat) (findings : Findings) : us.map Token.word = words header.toList →
    (∃ fault s, statementOf ⟨expression levelsLeft depth, body⟩ ⟨us ++ rest, recoveries, findings⟩ =
      .error (.misread fault) s ∧ fault.IsNesting) ∨
    ∃ l init test update, P init test update ∧
      statementOf ⟨expression levelsLeft depth, body⟩ ⟨us ++ rest, recoveries, findings⟩ =
        (do let node ← substatement ⟨expression levelsLeft depth, body⟩
            return .forLoop l init test update node : Recover Node)
          ⟨rest, recoveries, findings⟩

theorem IsLoopHeader.of_words {header : String} {P : Node → Expr → Expr → Prop}
    {us vs ws : List Word} {init : Node} {test update : Expr}
    (hheader : ReadsAlone header.toList (⟨.forWord, "for"⟩ :: symbol .leftParen ::
      (us ++ (vs ++ symbol .semicolon :: (ws ++ [symbol .rightParen])))))
    (hinit : Opening us init) (htest : Phrase 1 vs test) (hupdate : Phrase 1 ws update)
    (hP : ∀ init' test' update', init.Like init' → test'.forget = test.forget →
      update'.forget = update.forget → P init' test' update') : IsLoopHeader header P := by
  have hwords := hheader.words_eq
  refine ⟨hwords.symm ▸ hheader, fun levelsLeft depth body ts rest recoveries findings hts => ?_⟩
  rw [hwords] at hts
  obtain ⟨word, ts, rfl, hword, -, hts⟩ := map_word_cons hts
  obtain ⟨left, ts, rfl, hleft, -, hts⟩ := map_word_cons hts
  obtain ⟨is, ts, rfl, his, hts⟩ := List.map_eq_append_iff.mp hts
  obtain ⟨cs, semicolon, ts, rfl, hcs, hsemicolon, -, hts⟩ := map_word_append_cons hts
  obtain ⟨ss, right, last, rfl, hss, hright, -, hlast⟩ := map_word_append_cons hts
  obtain rfl := List.map_eq_nil_iff.mp hlast
  have hend : word.kind ≠ .endOfInput := by
    rw [hword]
    decide
  have htokens : word :: left :: (is ++ (cs ++ semicolon :: (ss ++ [right]))) ++ rest =
      word :: left :: (is ++ (cs ++ semicolon :: (ss ++ right :: rest))) := by simp
  have hread := Gets.loopHeader hinit (.some htest) (.some hupdate) levelsLeft depth hleft his hcs
    hsemicolon hss hright rest
  rw [htokens, statementOf_forLoop (by exact hword), Grammar.forLoop,
    bind_ok (reading_ok (advance_cons hend))]
  cases hloop : loopHeader (expression levelsLeft depth)
      (left :: (is ++ (cs ++ semicolon :: (ss ++ right :: rest)))) with
  | ok parts rest' =>
      rw [hloop] at hread
      obtain ⟨⟨hinit', htest', hupdate'⟩, rfl⟩ := hread
      refine Or.inr ⟨word.location, parts.1, parts.2.1, parts.2.2,
        hP _ _ _ hinit' htest' hupdate', ?_⟩
      rw [bind_ok (reading_ok hloop)]
  | error stop rest' =>
      rw [hloop] at hread
      obtain ⟨fault, rfl, hfault⟩ := hread
      have hstop : reading (loopHeader (expression levelsLeft depth))
          ⟨left :: (is ++ (cs ++ semicolon :: (ss ++ right :: rest))), recoveries, findings⟩ =
            .error (.misread fault) ⟨rest', recoveries, findings⟩ := by
        rw [reading, hloop]
      exact Or.inl ⟨fault, _, bind_error hstop, hfault⟩

theorem IsLoopHeader.mono {header : String} {P Q : Node → Expr → Expr → Prop}
    (h : IsLoopHeader header P)
    (hle : ∀ init test update, P init test update → Q init test update) :
    IsLoopHeader header Q := by
  refine ⟨h.alone, fun levelsLeft depth body us rest recoveries findings hus => ?_⟩
  refine (h.reads levelsLeft depth body us rest recoveries findings hus).imp_right ?_
  rintro ⟨l, init, test, update, hparts, hread⟩
  exact ⟨l, init, test, update, hle _ _ _ hparts, hread⟩

theorem isLoopHeader_loopText {P : Node → Expr → Expr → Prop} {first test update : Expr}
    (hname : Word.Firm ⟨.identifier, name⟩) (hstart : ReadsInside start us)
    (hfirst : Phrase 1 us first) (hop : kind.symbol? = some op) (hstop : ReadsInside stop vs)
    (htest : Phrase 1 (⟨.identifier, name⟩ :: symbol kind :: vs) test)
    (hstep : ReadsInside step ws) (hupdate : Phrase 1 ws update)
    (hP : ∀ init' test' update', (Node.declaration default "int" name first).Like init' →
      test'.forget = test.forget → update'.forget = update.forget → P init' test' update') :
    IsLoopHeader (loopText name start op stop step) P :=
  .of_words (reads_loopText hname hstart hop hstop hstep)
    (.declared (.valued default name (.one rfl) hfirst)) htest hupdate hP

end Header

/-! ## The headers of the blocks -/

/-- The parts of a header over a counter: its declaration and its step have all of their operands,
and its test compares the counter with all of the limit exactly if the text of the limit binds
tighter than a comparison. -/
structure IsCount (name : String) (first : Expr) (op stop : String) (limit step : Expr)
    (init : Node) (test update : Expr) : Prop where
  init : (Node.declaration default "int" name first).Like init
  test : test.forget = (Expr.binary default op (counterExpr name) limit).forget ↔
    Phrase 6 (words stop.toList) limit
  update : update.forget = step.forget

theorem isLoopHeader_count {name start op stop step : String} {us ws : List Word}
    {kind : TokenKind} {first limit update : Expr} (hname : Word.Firm ⟨.identifier, name⟩)
    (hstart : ReadsInside start us) (hfirst : Phrase 1 us first) (hop : kind.symbol? = some op)
    (hjoins : kind.joins = 5) (hstop : Word.Closed stop.toList) (hlimit : IsExpression stop limit)
    (hstep : ReadsInside step ws) (hupdate : Phrase 1 ws update) :
    IsLoopHeader (loopText name start op stop step) (IsCount name first op stop limit update) := by
  have hcounter : Phrase 5 [⟨.identifier, name⟩] (counterExpr name) :=
    (phrase_counterExpr name).loosenTo (by decide) (by decide)
  obtain ⟨test, htest, hiff⟩ := Phrase.exists_compared
    (show (symbol kind).kind.joins = 5 from hjoins) hcounter (isOperation_counterExpr name)
    hlimit.phrase
  rw [symbol_eq hop] at hiff
  refine isLoopHeader_loopText hname hstart hfirst hop hstop.reads htest hstep hupdate ?_
  intro init' test' update' hinit' htest' hupdate'
  exact ⟨hinit', htest' ▸ hiff, hupdate'⟩

theorem reads_zero : ∃ zero, zero.isZero = true ∧ ReadsInside "0" [⟨.number, "0"⟩] ∧
    Phrase 1 [⟨.number, "0"⟩] (.literal default (.number zero) "0") := by
  obtain ⟨zero, hvalue, hzero⟩ : ∃ x, Number.double? "0" = some x ∧ x.isZero = true :=
    (Option.any_eq_true _ _).mp (by decide +kernel)
  have hfirm : Word.Firm ⟨.number, "0"⟩ := IsNumeral.firm (by decide +kernel)
  exact ⟨zero, hzero, (Spelling.word hfirm rfl rfl).inside,
    (Phrase.number default hvalue).loosenTo (Nat.le_refl 1) (by decide)⟩

theorem reads_increment {name : String} (hname : Word.Firm ⟨.identifier, name⟩) :
    ∃ ws, ReadsInside (name ++ "++") ws ∧
      Phrase 1 ws (.unary default "++" (counterExpr name) false) := by
  have hplus : TokenKind.increment.symbol? = some "++" := rfl
  have htrailing : ExprGrammar.isTrailing .increment = true := rfl
  have hstep := Spelling.step hplus htrailing (Spelling.word hname rfl rfl)
  have hupdate := Phrase.step_symbol default htrailing hplus
    ((phrase_counterExpr name).loosenTo (by decide) (by decide))
  exact ⟨_, hstep.inside, hupdate.loosenTo (Nat.le_refl 1) (by decide)⟩

theorem reads_advance {name step : String} {e : Expr} (hname : Word.Firm ⟨.identifier, name⟩)
    (hstep : Word.Closed step.toList) (he : IsExpression step e) :
    ∃ ws, ReadsInside (name ++ " += " ++ step) ws ∧
      Phrase 1 ws (.assign default "+=" (counterExpr name) e) := by
  have hspelling : Spelling name [⟨.identifier, name⟩] false := Spelling.word hname rfl rfl
  have hplus : TokenKind.plusAssign.symbol? = some "+=" := rfl
  have hreads := hspelling.readsBy_infixed hplus hstep.reads
  have hphrase := Phrase.assign default
    (show ExprGrammar.isAssignment (symbol .plusAssign).kind = true from rfl)
    ((phrase_counterExpr name).loosenTo (by decide) (by decide)) he.phrase
  have htext : (name ++ " += " ++ step).toList = (name ++ " " ++ "+=" ++ " " ++ step).toList := by
    simp
  rw [← htext] at hreads
  exact ⟨_, hreads, hphrase⟩

/-- The code of a repetition has the text of its input in its header, and that is read as a count
from zero with that limit. -/
def IsRepetition (s : Shape) (p : Place) (c : Context) (code : String) : Prop :=
  let name := Statement.counter p.loops
  ∃ times body c₁, s.number "TIMES" "10" .natural c = .ok (times, c₁) ∧
    code = Statement.braced p (loopText name "0" "<" times (name ++ "++")) body ∧
    ∀ limit, IsExpression times limit → Word.Closed times.toList → ∃ zero, zero.isZero = true ∧
      IsLoopHeader (loopText name "0" "<" times (name ++ "++"))
        (IsCount name (.literal default (.number zero) "0") "<" times limit
          (.unary default "++" (counterExpr name) false))

/-- The code of a loop over a variable has the texts of its inputs in its header, and that is read
as a count over the variable from the first to the last of them. -/
def IsCountedLoop (s : Shape) (p : Place) (c : Context) (code : String) : Prop :=
  let name := safeNameOf (s.field? "VAR") "i"
  ∃ start stop step body c₁ c₂ c₃, s.number "FROM" "1" .none c = .ok (start, c₁) ∧
    s.number "TO" "10" .none c₁ = .ok (stop, c₂) ∧
    s.number "BY" "1" .none c₂ = .ok (step, c₃) ∧
    code = Statement.braced p (loopText name start "<=" stop (name ++ " += " ++ step)) body ∧
    ∀ first limit amount, IsExpression start first → Word.Closed start.toList →
      IsExpression stop limit → Word.Closed stop.toList →
      IsExpression step amount → Word.Closed step.toList →
      IsLoopHeader (loopText name start "<=" stop (name ++ " += " ++ step))
        (IsCount name first "<=" stop limit (.assign default "+=" (counterExpr name) amount))

theorem isRepetition_of_ok {s : Shape} {p : Place} {c c' : Context} {code : String}
    (h : Statement.repetition s p c = .ok (code, c')) : IsRepetition s p c code := by
  obtain ⟨times, c₁, htimes, hrest⟩ := Gen.bind_eq_ok h
  obtain ⟨body, c₂, -, hrest⟩ := Gen.bind_eq_ok hrest
  cases hrest
  refine ⟨times, body, c₁, htimes, ?_, fun limit hlimit hclosed => ?_⟩
  · refine congrArg (Statement.braced p · body) (String.toList_inj.mp ?_)
    unfold loopText
    simp
  · obtain ⟨hname, -⟩ := counter_spec p.loops
    obtain ⟨zero, hzero, hstart, hfirst⟩ := reads_zero
    obtain ⟨ws, hstep, hupdate⟩ := reads_increment hname
    exact ⟨zero, hzero, isLoopHeader_count hname hstart hfirst
      (show TokenKind.lessThan.symbol? = some "<" from rfl) rfl hclosed hlimit hstep hupdate⟩

theorem isCountedLoop_of_ok {s : Shape} {p : Place} {c c' : Context} {code : String}
    (h : Statement.countedLoop s p c = .ok (code, c')) : IsCountedLoop s p c code := by
  obtain ⟨start, c₁, hstart, hrest⟩ := Gen.bind_eq_ok h
  obtain ⟨stop, c₂, hstop, hrest⟩ := Gen.bind_eq_ok hrest
  obtain ⟨step, c₃, hstep, hrest⟩ := Gen.bind_eq_ok hrest
  obtain ⟨body, c₄, -, hrest⟩ := Gen.bind_eq_ok hrest
  cases hrest
  refine ⟨start, stop, step, body, c₁, c₂, c₃, hstart, hstop, hstep, ?_, ?_⟩
  · refine congrArg (Statement.braced p · body) (String.toList_inj.mp ?_)
    unfold loopText
    simp
  · intro first limit amount hfirst hfirst' hlimit hlimit' hamount hamount'
    have hsafe := isSafe_safeNameOf (s.field? "VAR") (show IsSafe "i" by decide)
    obtain ⟨ws, hreads, hphrase⟩ := reads_advance hsafe.firm hamount' hamount
    exact isLoopHeader_count hsafe.firm hfirst'.reads hfirst.phrase
      (show TokenKind.lessEqual.symbol? = some "<=" from rfl) rfl hlimit' hlimit hreads hphrase

/-- The header of a loop is read as a loop over its counter, whatever blocks are in its inputs:
the value it starts with and its step have all of their texts as operands, and so has the test
exactly if the text of the limit binds tighter than a comparison. -/
theorem loopHeaders_read (fields : List (String × Scalar)) (inputs : List Input) (p : Place)
    (c c' : Context) (code : String) :
    ((part (.mk "controls_repeat_ext" fields inputs)).statement p c = .ok (code, c') →
      IsRepetition ⟨"controls_repeat_ext", fields, slots inputs⟩ p c code) ∧
    ((part (.mk "controls_for" fields inputs)).statement p c = .ok (code, c') →
      IsCountedLoop ⟨"controls_for", fields, slots inputs⟩ p c code) :=
  ⟨fun h => isRepetition_of_ok h, fun h => isCountedLoop_of_ok h⟩

/-- Two variables with an operator of two operands, as a block. -/
def pairBlock (type op : String) : Block :=
  .ofTexts type [("OP", op)] [.value "A" (.ofTexts "variables_get" [("VAR", "a")] []),
    .value "B" (.ofTexts "variables_get" [("VAR", "b")] [])]

/-- The tokens of two variables with an operator between them that ends at some offset. -/
def pairTokens (kind : TokenKind) (op : String) (offset : Nat) : List Token := [
  ⟨.identifier, "a", 0, 1, ⟨"", 1, 1⟩⟩,
  ⟨kind, op, 2, offset, ⟨"", 1, 3⟩⟩,
  ⟨.identifier, "b", offset + 1, offset + 2, ⟨"", 1, offset + 2⟩⟩,
  ⟨.endOfInput, "", offset + 2, offset + 2, ⟨"", 1, offset + 3⟩⟩]

/-- Two variables with an operator between them that ends at some offset. -/
def pairExpr (op : String) (offset : Nat) : Expr :=
  .binary ⟨"", 1, 1⟩ op (.name ⟨"", 1, 1⟩ "a") (.name ⟨"", 1, offset + 2⟩ "b")

theorem isExpression_of_tokens {text : String} {ts : List Token} {e : Expr} {mark : Token}
    (htokens : Token.significant text "" = ts) (hread : expression 1 0 ts = .ok e [mark]) :
    IsExpression text e :=
  ⟨1, 0, mark, htokens ▸ hread⟩

theorem phrase_letter (l : Location) (name : String) {n : Nat} (hpin : isAnalogPin name = false)
    (hlow : 1 ≤ n) (hhigh : n ≤ 7) : Phrase n [⟨.identifier, name⟩] (.name l name) :=
  (Phrase.name l hpin).loosenTo hlow (by omega)

theorem phrase_sum : Phrase 6 (words "a + b".toList) (pairExpr "+" 3) := by
  have hwords : words "a + b".toList =
      [⟨.identifier, "a"⟩] ++ ⟨.plus, "+"⟩ :: [⟨.identifier, "b"⟩] := by decide
  rw [hwords]
  exact .binary _ (by decide) (by decide) rfl
    (phrase_letter _ "a" (by decide) (by decide) (by decide))
    (phrase_letter _ "b" (by decide) (by decide) (by decide))

def summed : List Input :=
  [.value "TIMES" (pairBlock "math_arithmetic" "ADD")]

/-- A loop from a comparison to a sum, in steps of that sum. -/
def ranged : List Input :=
  [.value "FROM" (pairBlock "logic_compare" "LT"), .value "TO" (pairBlock "math_arithmetic" "ADD"),
    .value "BY" (pairBlock "math_arithmetic" "ADD")]

theorem loopHeaders_read_sum :
    ((part (.mk "controls_repeat_ext" [] summed)).statement ⟨"  ", 0, 0⟩ {} =
        .ok ("for (int i = 0; i < a + b; i++) \x7b\n\x7d", {}) ∧
      IsLoopHeader "for (int i = 0; i < a + b; i++)" fun _ test _ =>
        test.forget = (Expr.binary default "<" (.name default "i") (pairExpr "+" 3)).forget) ∧
    (part (.mk "controls_for" [] ranged)).statement ⟨"  ", 0, 0⟩ {} =
        .ok ("for (int i = a < b; i <= a + b; i += a + b) \x7b\n\x7d", {}) ∧
      IsLoopHeader "for (int i = a < b; i <= a + b; i += a + b)" fun init test update =>
        (Node.declaration default "int" "i" (pairExpr "<" 3)).Like init ∧
        test.forget = (Expr.binary default "<=" (.name default "i") (pairExpr "+" 3)).forget ∧
        update.forget =
          (Expr.assign default "+=" (.name default "i") (pairExpr "+" 3)).forget := by
  have hrepeat : (part (.mk "controls_repeat_ext" [] summed)).statement ⟨"  ", 0, 0⟩ {} =
      .ok ("for (int i = 0; i < a + b; i++) \x7b\n\x7d", {}) := by rfl
  have hfor : (part (.mk "controls_for" [] ranged)).statement ⟨"  ", 0, 0⟩ {} =
      .ok ("for (int i = a < b; i <= a + b; i += a + b) \x7b\n\x7d", {}) := by rfl
  have hsum : IsExpression "a + b" (pairExpr "+" 3) :=
    isExpression_of_tokens
      (show _ = pairTokens .plus "+" 3 by decide +kernel) rfl
  have hless : IsExpression "a < b" (pairExpr "<" 3) :=
    isExpression_of_tokens
      (show _ = pairTokens .lessThan "<" 3 by decide +kernel) rfl
  have hclosed : Word.Closed "a + b".toList ∧ Word.Closed "a < b".toList := by decide
  refine ⟨⟨hrepeat, ?_⟩, hfor, ?_⟩
  · obtain ⟨times, body, c₁, htimes, -, hheader⟩ := (loopHeaders_read _ _ _ _ _ _).1 hrepeat
    obtain rfl : "a + b" = times := congrArg Prod.fst (Except.ok.inj htimes)
    obtain ⟨zero, -, hcount⟩ := hheader (pairExpr "+" 3) hsum hclosed.1
    exact hcount.mono fun _ _ _ h => h.test.mpr phrase_sum
  · obtain ⟨start, stop, step, body, c₁, c₂, c₃, hstart, hstop, hstep, -, hheader⟩ :=
      (loopHeaders_read _ _ _ _ _ _).2 hfor
    obtain rfl : "a < b" = start := congrArg Prod.fst (Except.ok.inj hstart)
    obtain rfl : "a + b" = stop := congrArg Prod.fst (Except.ok.inj hstop)
    obtain rfl : "a + b" = step := congrArg Prod.fst (Except.ok.inj hstep)
    have hcount := hheader (pairExpr "<" 3) (pairExpr "+" 3) (pairExpr "+" 3) hless hclosed.2
      hsum hclosed.1 hsum hclosed.1
    exact hcount.mono fun _ _ _ h => ⟨h.init, h.test.mpr phrase_sum, h.update⟩

/-- A repetition up to a comparison.  Its text is an expression by itself, but in the header the
counter is compared with the front of it only. -/
theorem loopHeaders_misread :
    (part (.mk "controls_repeat_ext" []
        [.value "TIMES" (pairBlock "logic_compare" "EQ")])).statement ⟨"  ", 0, 0⟩ {} =
      .ok ("for (int i = 0; i < a == b; i++) \x7b\n\x7d", {}) ∧
    IsExpression "a == b" (pairExpr "==" 4) ∧ Word.Closed "a == b".toList ∧
    IsLoopHeader "for (int i = 0; i < a == b; i++)" fun _ test _ =>
      test.forget = (Expr.binary default "==" (.binary default "<" (.name default "i")
        (.name default "a")) (.name default "b")).forget ∧
      test.forget ≠ (Expr.binary default "<" (.name default "i") (pairExpr "==" 4)).forget := by
  have hequal : IsExpression "a == b" (pairExpr "==" 4) :=
    isExpression_of_tokens (show _ = pairTokens .equal "==" 4 by decide +kernel) rfl
  have hclosed : Word.Closed "a == b".toList := by decide
  refine ⟨by rfl, hequal, hclosed, ?_⟩
  obtain ⟨hname, -⟩ := counter_spec 0
  obtain ⟨zero, -, hstart, hfirst⟩ := reads_zero
  obtain ⟨ws, hstep, hupdate⟩ := reads_increment hname
  have hfront := Phrase.binary_symbol default (show 2 ≤ TokenKind.lessThan.joins by decide)
    (by decide) (show TokenKind.lessThan.symbol? = some "<" from rfl)
    (phrase_letter default "i" (by decide) (by decide) (by decide))
    (phrase_letter default "a" (by decide) (by decide) (by decide))
  have htest := Phrase.binary_symbol default (show 2 ≤ TokenKind.equal.joins by decide)
    (by decide) (show TokenKind.equal.symbol? = some "==" from rfl)
    (hfront.loosenTo (by decide) (by decide))
    (phrase_letter default "b" (by decide) (by decide) (by decide))
  have hwords : words "a == b".toList =
      [⟨.identifier, "a"⟩, symbol .equal, ⟨.identifier, "b"⟩] := by decide
  have hstop := hclosed.reads
  rw [hwords] at hstop
  have hheader := isLoopHeader_loopText hname hstart hfirst
    (show TokenKind.lessThan.symbol? = some "<" from rfl) hstop
    (htest.loosenTo (by decide) (by decide)) hstep hupdate fun _ _ _ _ htest' _ => htest'
  have htext : loopText "i" "0" "<" "a == b" "i++" = "for (int i = 0; i < a == b; i++)" := by
    decide
  rw [← htext]
  refine hheader.mono fun _ test _ h => ⟨h, ?_⟩
  rw [h]
  exact Expr.forget_ne_of_isOvertaken rfl rfl _ _

end Code

end InoBlocks
