import InoBlocks.Proofs.Code.CanonicalStatement
import InoBlocks.Proofs.Sketch.ClauseReading

/-!
# Canonical statements with bodies

The code of a body is read as its statements, one behind the other, and that of a choice or a loop
as a statement with its bodies between braces.  So the code of every canonical statement is read
back as the statement.
-/

namespace InoBlocks

open Word Code Grammar

namespace Block

/-! ## Inputs of choices -/

section Chain

variable (type : String) (fields : List (String × String))

/-- The first input with a name is the one that counts. -/
theorem chain_cons_self (i : Input) (is : List Input) :
    (ofTexts type fields (i :: is)).chain i.name = i.blocks := by
  simp [chain, input?, ofTexts, inputs]

theorem chain_cons_of_ne (i : Input) {name : String} (h : i.name ≠ name) (is : List Input) :
    (ofTexts type fields (i :: is)).chain name = (ofTexts type fields is).chain name := by
  have hname : (i.name == name) = false := by simpa using h
  simp [chain, input?, ofTexts, inputs, hname]

theorem length_armInputs (number : Nat) (arms : List (Block × List Block)) :
    (armInputs number arms).length = 2 * arms.length := by
  induction arms generalizing number with
  | nil => rfl
  | cons a arms ih =>
      rw [armInputs, List.length_cons, List.length_cons, ih, List.length_cons]
      omega

/-- What is found in a choice is found in its bodies. -/
theorem filterMap_arms {find? : Block → Option String} {arms : List (Block × List Block)}
    (hfind : ∀ a ∈ arms, ∀ b ∈ a.1.walk, find? b = none) (number : Nat) (others : List Block) :
    (Input.walkAll (armInputs number arms ++ otherwiseInputs others)).filterMap find? =
      collect find? (arms.flatMap Prod.snd) ++ collect find? others := by
  induction arms generalizing number with
  | nil =>
      cases others with
      | nil => rfl
      | cons b others =>
          simp [armInputs, otherwiseInputs, Input.walkAll, Input.walk, collect, walkAll]
  | cons a arms ih =>
      obtain ⟨htest, harms⟩ := List.forall_mem_cons.mp hfind
      rw [armInputs, List.cons_append, List.cons_append, Input.walkAll, Input.walkAll, Input.walk,
        Input.walk, List.filterMap_append, List.filterMap_append, ih harms,
        List.filterMap_eq_nil_iff.mpr htest, List.flatMap_cons, collect_append, List.nil_append,
        List.append_assoc]
      rfl

/-- The inputs of an arm stand before those of the arms behind it. -/
theorem chain_first_arm (is : List Input) (a : Block × List Block)
    (arms : List (Block × List Block)) (number : Nat) :
    (ofTexts type fields (armInputs number (a :: arms) ++ is)).chain (Branch.condition number) =
        [a.1] ∧
      (ofTexts type fields (armInputs number (a :: arms) ++ is)).chain (Branch.statements number) =
        a.2 := by
  refine ⟨chain_cons_self type fields (.value (Branch.condition number) a.1) _, ?_⟩
  rw [armInputs, List.cons_append, List.cons_append,
    chain_cons_of_ne type fields (.value (Branch.condition number) a.1)
      (Branch.condition_ne_statements number number)]
  exact chain_cons_self type fields (.chain (Branch.statements number) a.2) _

/-- What is not in the first arm is in what stands behind it. -/
theorem chain_later_arms (is : List Input) (a : Block × List Block)
    (arms : List (Block × List Block)) (number : Nat) {name : String}
    (hcondition : Branch.condition number ≠ name) (hstatements : Branch.statements number ≠ name) :
    (ofTexts type fields (armInputs number (a :: arms) ++ is)).chain name =
      (ofTexts type fields (armInputs (number + 1) arms ++ is)).chain name := by
  rw [armInputs, List.cons_append, List.cons_append,
    chain_cons_of_ne type fields (.value (Branch.condition number) a.1) hcondition,
    chain_cons_of_ne type fields (.chain (Branch.statements number) a.2) hstatements]

theorem chain_arm (is : List Input) {arms : List (Block × List Block)} (number : Nat) {i : Nat}
    (h : i < arms.length) :
    (ofTexts type fields (armInputs number arms ++ is)).chain (Branch.condition (number + i)) =
        [arms[i].1] ∧
      (ofTexts type fields (armInputs number arms ++ is)).chain (Branch.statements (number + i)) =
        arms[i].2 := by
  induction arms generalizing number i with
  | nil => cases h
  | cons a arms ih =>
      cases i with
      | zero => exact chain_first_arm type fields is a arms number
      | succ i =>
          have hcondition : Branch.condition number ≠ Branch.condition (number + (i + 1)) :=
            fun heq => absurd (Branch.condition_injective heq) (by omega)
          have hstatements : Branch.statements number ≠ Branch.statements (number + (i + 1)) :=
            fun heq => absurd (Branch.statements_injective heq) (by omega)
          rw [chain_later_arms type fields is a arms number hcondition
              (Branch.condition_ne_statements _ _).symm,
            chain_later_arms type fields is a arms number (Branch.condition_ne_statements _ _)
              hstatements,
            ← Nat.add_assoc, Nat.add_right_comm]
          exact ih (number + 1) (by simpa using h)

theorem chain_append_arms (is : List Input) (arms : List (Block × List Block)) (number : Nat)
    {name : String} (hcondition : ∀ i < arms.length, Branch.condition (number + i) ≠ name)
    (hstatements : ∀ i < arms.length, Branch.statements (number + i) ≠ name) :
    (ofTexts type fields (armInputs number arms ++ is)).chain name =
      (ofTexts type fields is).chain name := by
  induction arms generalizing number with
  | nil => rfl
  | cons a arms ih =>
      rw [chain_later_arms type fields is a arms number (hcondition 0 (by simp))
        (hstatements 0 (by simp))]
      refine ih (number + 1) (fun i hi => ?_) fun i hi => ?_ <;>
        rw [Nat.add_right_comm, Nat.add_assoc]
      · exact hcondition (i + 1) (by simpa using hi)
      · exact hstatements (i + 1) (by simpa using hi)

theorem chain_else (others : List Block) (name : String) :
    (ofTexts type fields [.chain "ELSE" others]).chain name =
      if "ELSE" = name then others else [] := by
  split
  · rename_i hname
    exact hname ▸ chain_cons_self type fields (.chain "ELSE" others) []
  · rename_i hname
    exact chain_cons_of_ne type fields (.chain _ _) hname []

theorem chain_otherwise (others : List Block) (name : String) :
    (ofTexts type fields (otherwiseInputs others)).chain name =
      if "ELSE" = name then others else [] := by
  unfold otherwiseInputs
  split
  · rename_i hempty
    obtain rfl := List.isEmpty_iff.mp hempty
    rw [ite_self]
    rfl
  · exact chain_else type fields others name

theorem chain_past_arms (arms : List (Block × List Block)) {is : List Input} {others : List Block}
    (hothers : ∀ name, (ofTexts type fields is).chain name =
      if "ELSE" = name then others else []) :
    let b := ofTexts type fields (armInputs 0 arms ++ is)
    b.chain (Branch.condition arms.length) = [] ∧ b.chain (Branch.statements arms.length) = [] ∧
      b.chain "ELSE" = others := by
  have hcondition : ∀ n, Branch.condition n ≠ "ELSE" := by
    intro n h
    have hchars := congrArg String.toList h
    simp [Branch.condition] at hchars
  have hstatements : ∀ n, Branch.statements n ≠ "ELSE" := by
    intro n h
    have hchars := congrArg String.toList h
    simp [Branch.statements] at hchars
  refine ⟨?_, ?_, ?_⟩
  · rw [chain_append_arms type fields _ arms 0
      (fun i hi h => absurd (Branch.condition_injective h) (by omega))
      (fun i _ h => Branch.condition_ne_statements _ _ h.symm), hothers,
      if_neg (hcondition _).symm]
  · rw [chain_append_arms type fields _ arms 0 (fun i _ => Branch.condition_ne_statements _ _)
      (fun i hi h => absurd (Branch.statements_injective h) (by omega)), hothers,
      if_neg (hstatements _).symm]
  · rw [chain_append_arms type fields _ arms 0 (fun i _ => hcondition _)
      (fun i _ => hstatements _), hothers, if_pos rfl]

end Chain

end Block

namespace Code

/-! ## Lines -/

/-- Lines are read as words, each line by itself. -/
inductive LinesRead : List String → List Word → Prop where
  | nil : LinesRead [] []
  | cons {line : String} {lines : List String} {ws vs : List Word} : ReadsLine line ws →
      LinesRead lines vs → LinesRead (line :: lines) (ws ++ vs)

namespace LinesRead

variable {lines lines' : List String} {ws vs : List Word}

theorem append (h : LinesRead lines ws) (h' : LinesRead lines' vs) :
    LinesRead (lines ++ lines') (ws ++ vs) := by
  induction h with
  | nil => exact h'
  | cons hline _ ih =>
      rw [List.cons_append, List.append_assoc]
      exact .cons hline ih

theorem one {line : String} (h : ReadsLine line ws) : LinesRead [line] ws := by
  have hcons := cons h nil
  rwa [List.append_nil] at hcons

theorem intercalate (h : LinesRead lines ws) {separator : String}
    (hfeeds : separator ∈ ["\n", "\n\n"]) : ReadsLine (separator.intercalate lines) ws := by
  obtain ⟨gap, hseparator, hgap⟩ :
      ∃ gap, separator.toList = '\n' :: gap ∧ gap.all Token.isLayout = true := by
    simp only [List.mem_cons, List.not_mem_nil, or_false] at hfeeds
    rcases hfeeds with rfl | rfl
    · exact ⟨[], rfl, rfl⟩
    · exact ⟨['\n'], rfl, by decide⟩
  have hgap' : ReadsAlone gap [] := .layout hgap _
  rw [ReadsLine, String.toList_intercalate, hseparator]
  induction h with
  | nil => exact show ReadsAlone ['\n'] [] from .layout (by decide) _
  | @cons line lines ws vs hline hlines ih =>
      cases lines with
      | nil =>
          cases hlines
          simpa [ReadsLine] using hline
      | cons line' lines =>
          simp only [List.map_cons, List.intercalate_cons_cons] at ih ⊢
          have hall := ReadsBy.seq hline (hgap'.seq ih)
          simpa using hall

theorem joinLines (h : LinesRead lines ws) : ReadsLine (Text.joinLines lines) ws :=
  h.intercalate (by simp)

/-- A body between braces, which has no line if it is empty. -/
theorem inside {body : String} (h : ReadsLine body ws) :
    LinesRead (if body == "" then [] else [body]) ws := by
  split
  · rename_i hempty
    obtain rfl : body = "" := by simpa using hempty
    have hwords : ([] : List Word) = ws := h.words_eq
    exact hwords ▸ .nil
  · exact .one h

end LinesRead

theorem reads_opening {p : Place} (hp : IsIndent p.indent) {header : String} {ws : List Word}
    (h : ReadsAlone (header ++ " ").toList ws) :
    ReadsLine (Statement.line p (header ++ " \x7b")) (ws ++ [symbol .leftBrace]) := by
  have hbrace : ReadsAlone ['{'] [symbol .leftBrace] := readsAs_symbol .leftBrace rfl
  have hall := h.seq hbrace
  exact readsLine_line hp (.of_alone (by simpa using hall))

theorem reads_closing {p : Place} (hp : IsIndent p.indent) :
    ReadsLine (Statement.line p "\x7d") [symbol .rightBrace] :=
  readsLine_line hp (.of_alone (readsAs_symbol .rightBrace rfl))

theorem reads_headerText {kind : TokenKind} {word : String} (hword : Word.Firm ⟨kind, word⟩)
    (hblank : kind.runsOn ' ' = false) {inside : String} {ws : List Word}
    (h : ReadsAs inside.toList ws (tail true)) :
    ReadsAlone (word ++ " (" ++ inside ++ ")" ++ " ").toList
      (⟨kind, word⟩ :: symbol .leftParen :: ws ++ [symbol .rightParen]) := by
  have hheader := reads_header hword hblank h
  simpa using hheader

/-- The words that statements with bodies begin with. -/
theorem firm_keyword : ∀ entry ∈ [(TokenKind.ifWord, "if"), (.whileWord, "while"),
    (.forWord, "for"), (.elseWord, "else")], Word.Firm ⟨entry.1, entry.2⟩ ∧
      entry.1.runsOn ' ' = false := by
  have hspec : ∀ entry ∈ [(TokenKind.ifWord, "if"), (.whileWord, "while"),
      (.forWord, "for"), (.elseWord, "else")], TokenKind.ofWord entry.2 = entry.1 ∧
        entry.2.toList.head?.any Text.isNameStart = true ∧
        entry.2.toList.tail.all Text.isNameChar = true ∧ entry.1.runsOn ' ' = false := by
    decide
  intro entry hentry
  obtain ⟨hkind, hhead, htail, hblank⟩ := hspec entry hentry
  exact ⟨firm_ofWord hkind hhead htail, hblank⟩

/-! ## Bodies -/

/-- A text is read as statements, one behind the other, and these become blocks. -/
structure ReadsBody (text : String) (items : List (List Word × Node)) (bs : List Block) : Prop where
  reads : ReadsLine text (items.flatMap Prod.fst)
  clauses : ∀ a ∈ items, Clause a.1 a.2
  back : Blocks.statements (items.map Prod.snd) = .ok bs

/-- The code of several blocks is read back as these. -/
structure RendersAll (bs : List Block) (p : Place) (text : String)
    (items : List (List Word × Node)) : Prop extends ReadsBody text items bs where
  gives : Gives (Shape.statements p (parts bs)) text (Block.collect Block.assigns? bs)
    (Block.collect Block.declares? bs)

theorem exists_rendersAll {bs : List Block} (h : ∀ b ∈ bs, Returns b) {p : Place}
    (hp : IsIndent p.indent) : ∃ text items, RendersAll bs p text items := by
  have hlines : ∃ (lines : List String) (items : List (List Word × Node)),
      Gives ((parts bs).mapM fun part => part.statement p) lines
        (Block.collect Block.assigns? bs) (Block.collect Block.declares? bs) ∧
      (∀ line ∈ lines, line ≠ "") ∧ LinesRead lines (items.flatMap Prod.fst) ∧
      (∀ a ∈ items, Clause a.1 a.2) ∧ Blocks.statements (items.map Prod.snd) = .ok bs := by
    induction bs with
    | nil => exact ⟨[], [], .pure _, by simp, .nil, by simp, rfl⟩
    | cons b bs ih =>
        obtain ⟨hb, hbs⟩ := List.forall_mem_cons.mp h
        obtain ⟨text, ws, n, hrenders⟩ := hb p hp
        obtain ⟨lines, items, hgives, hne, hreads, hclauses, hback⟩ := ih hbs
        refine ⟨text :: lines, (ws, n) :: items, ?_, ?_, .cons hrenders.reads hreads, ?_, ?_⟩
        · rw [parts, List.mapM_cons, Block.collect_cons, Block.collect_cons Block.declares?]
          exact hrenders.gives.bind (hgives.map _)
        · exact List.forall_mem_cons.mpr ⟨hrenders.ne_empty, hne⟩
        · exact List.forall_mem_cons.mpr ⟨hrenders.clause, hclauses⟩
        · rw [List.map_cons, Blocks.statements, hrenders.isStatement.1, hrenders.isStatement.2,
            hback]
          change Blocks.body n >>= _ = _
          rw [hrenders.back]
          rfl
  obtain ⟨lines, items, hgives, hne, hreads, hclauses, hback⟩ := hlines
  refine ⟨Text.joinLines lines, items, ⟨hreads.joinLines, hclauses, hback⟩, ?_⟩
  refine (hgives.map fun lines => Text.joinLines (lines.filter fun line => line != "")).of_eq ?_
  rw [List.filter_eq_self.mpr fun line hline => by simpa using hne line hline]

theorem reads_braced {p : Place} (hp : IsIndent p.indent) {header body : String}
    {us ws : List Word} (hheader : ReadsAlone (header ++ " ").toList us)
    (hbody : ReadsLine body ws) : ReadsLine (Statement.braced p header body)
      (us ++ (symbol .leftBrace :: ws ++ [symbol .rightBrace])) := by
  have hall := (((LinesRead.one (reads_opening hp hheader)).append (.inside hbody)).append
    (.one (reads_closing hp))).joinLines
  simpa [Statement.braced] using hall

/-! ## Choices -/

section Choice

variable {p : Place} (hp : IsIndent p.indent)

/-- What stands behind an arm of a choice: more arms, read as an `else` with a statement, or
nothing. -/
structure Follows (p : Place) (arms : List Statement.Arm) (ws : List Word) (n : Node)
    (number : Nat) (is : List Input) : Prop where
  lines : LinesRead (Statement.armLines p "\x7d " arms) (symbol .rightBrace :: ws)
  clause : (ws = [] ∧ n = .empty) ∨ ∃ vs, ws = ⟨.elseWord, "else"⟩ :: vs ∧ Clause vs n
  back : (Blocks.part n).arms number = .ok is

def armWords (us : List Word) (items : List (List Word × Node)) : List Word :=
  ⟨.ifWord, "if"⟩ :: symbol .leftParen :: us ++ symbol .rightParen :: bracedWords items

/-- An arm with a condition and what follows it are a statement. -/
theorem Follows.clause_arm {rest : List Statement.Arm} {ws : List Word} {n : Node} {number : Nat}
    {is : List Input} (h : Follows p rest ws n number is) {e : Expr} {us : List Word}
    (hphrase : Phrase 1 us e) {items : List (List Word × Node)}
    (hitems : ∀ a ∈ items, Clause a.1 a.2) :
    Clause (armWords us items ++ ws)
      (.branch default e (.block default (items.map Prod.snd)) n) := by
  rcases h.clause with ⟨rfl, rfl⟩ | ⟨vs, rfl, hclause⟩
  · rw [List.append_nil]
    exact .branch default default items hphrase hitems
  · exact .branchElse default default items hphrase hitems hclause

include hp in
/-- The lines of an arm and of what stands behind it. -/
theorem linesRead_arm {rest : List Statement.Arm} {opening header body : String}
    {os us vs ws : List Word}
    (hrest : LinesRead (Statement.armLines p "\x7d " rest) (symbol .rightBrace :: ws))
    (hheader : ReadsAlone (opening ++ header ++ " ").toList (os ++ us)) (hbody : ReadsLine body vs) :
    LinesRead (Statement.armLines p opening ((header, body) :: rest))
      (os ++ (us ++ (symbol .leftBrace :: vs ++ [symbol .rightBrace]) ++ ws)) := by
  have hall := LinesRead.cons (reads_opening hp hheader) ((LinesRead.inside hbody).append hrest)
  simpa [Statement.armLines, String.append_assoc] using hall

include hp in
theorem Follows.lines_arm {rest : List Statement.Arm} {ws : List Word} {n : Node} {number : Nat}
    {is : List Input} (h : Follows p rest ws n number is) {opening header body : String}
    {os us : List Word} {items : List (List Word × Node)}
    (hheader : ReadsAlone (opening ++ header ++ " ").toList (os ++ us))
    (hbody : ReadsLine body (items.flatMap Prod.fst)) :
    LinesRead (Statement.armLines p opening ((header, body) :: rest))
      (os ++ (us ++ bracedWords items ++ ws)) :=
  linesRead_arm hp h.lines hheader hbody

/-- An arm with a condition and what follows it become the inputs of both. -/
theorem Follows.back_arm {rest : List Statement.Arm} {ws : List Word} {n : Node} {number : Nat}
    {is : List Input} (h : Follows p rest ws n (number + 1) is) {e : Expr} {test : Block}
    (he : e.Represents test) {nodes : List Node} {body : List Block}
    (hbody : Blocks.statements nodes = .ok body) :
    (Blocks.part (.branch default e (.block default nodes) n)).arms number =
      .ok (.value (Branch.condition number) test ::
        .chain (Branch.statements number) body :: is) := by
  change (Blocks.arm number e (Blocks.statements nodes) >>= fun first =>
    (Blocks.part n).arms (number + 1) >>= fun rest => .ok (first ++ rest)) = _
  rw [h.back, Blocks.arm, he.valueIn, hbody]
  rfl

theorem reads_if {text : String} {us : List Word} (h : Spelling text us true) :
    ReadsAlone ("if" ++ " (" ++ text ++ ")" ++ " ").toList
      (⟨.ifWord, "if"⟩ :: symbol .leftParen :: us ++ [symbol .rightParen]) := by
  obtain ⟨hfirm, hblank⟩ := firm_keyword (.ifWord, "if") (by decide)
  exact reads_headerText hfirm hblank h.reads

theorem reads_else : ReadsAlone ("else" ++ " ").toList [⟨.elseWord, "else"⟩] := by
  obtain ⟨hfirm, hblank⟩ := firm_keyword (.elseWord, "else") (by decide)
  rw [String.toList_append]
  exact hfirm.readsAs.blank hblank

theorem reads_brace_blank : ReadsAlone "\x7d ".toList [symbol .rightBrace] :=
  (readsAs_symbol .rightBrace rfl).blank rfl

theorem reads_elseIf {text : String} {us : List Word} (h : Spelling text us true) :
    ReadsAlone ("\x7d " ++ ("else if" ++ " (" ++ text ++ ")") ++ " ").toList
      ([symbol .rightBrace] ++ (⟨.elseWord, "else"⟩ ::
        (⟨.ifWord, "if"⟩ :: symbol .leftParen :: us ++ [symbol .rightParen]))) := by
  have hall := reads_brace_blank.seq (reads_else.seq (reads_if h))
  refine cast (congrArg (ReadsAlone · _) ?_) hall
  simp

theorem gives_arm {s : Shape} {fuel number : Nat} {heads : List Statement.Arm} {test : Part}
    {condition text : String} {xs ys xs' ys' : List String}
    (htest : s.chain (Branch.condition number) = [test])
    (hcondition : Gives (s.value (Branch.condition number) "false") condition [] [])
    (hbody : Gives (s.body p.deeper (Branch.statements number)) text xs ys)
    (hrest : Gives (Statement.arms s p fuel (number + 1)) heads xs' ys') :
    Gives (Statement.arms s p (fuel + 1) number)
      (((if number = 0 then "if" else "else if") ++ " (" ++ condition ++ ")", text) :: heads)
      (xs ++ xs') (ys ++ ys') := by
  have htarget : Gives (s.target (Branch.condition number)) (some test) [] [] := by
    rw [Shape.target, htest]
    exact .pure _
  rw [Statement.arms]
  refine htarget.bind (f := _) ?_
  simp only [Option.isNone_some, Bool.and_false, Bool.false_and, Bool.false_eq_true, if_false]
  exact hcondition.bind (hbody.bind (hrest.map _))

theorem gives_no_arm {s : Shape} {number : Nat} (hnumber : 0 < number)
    (hcondition : s.chain (Branch.condition number) = [])
    (hstatements : s.chain (Branch.statements number) = []) (fuel : Nat) :
    Gives (Statement.arms s p (fuel + 1) number) [] [] [] := by
  have htarget : Gives (s.target (Branch.condition number)) none [] [] := by
    rw [Shape.target, hcondition]
    exact .pure _
  rw [Statement.arms]
  refine htarget.bind (f := _) ?_
  rw [if_pos (by simp [hnumber, show s.chain ("DO" ++ Number.decimal number) = [] from hstatements])]
  exact .pure _

theorem gives_body {s : Shape} {p : Place} {name text : String} {bs : List Block}
    {xs ys : List String} (hchain : s.chain name = parts bs)
    (h : Gives (Shape.statements p (parts bs)) text xs ys) : Gives (s.body p name) text xs ys := by
  rw [Shape.body, hchain]
  exact h

theorem follows_nil (hp : IsIndent p.indent) (number : Nat) :
    Follows p [] [] .empty number [] where
  lines := .one (reads_closing hp)
  clause := Or.inl ⟨rfl, rfl⟩
  back := rfl

include hp in
theorem exists_last {s : Shape} {bs : List Block} (hchain : s.chain "ELSE" = parts bs)
    (hbodies : ∀ b ∈ bs, Returns b) :
    ∃ last ws n, Gives (Statement.otherwise s p) last (Block.collect Block.assigns? bs)
        (Block.collect Block.declares? bs) ∧
      ∀ number, Follows p last ws n number (Block.otherwiseInputs bs) := by
  cases bs with
  | nil =>
      refine ⟨[], [], .empty, ?_, follows_nil hp⟩
      rw [Statement.otherwise, hchain]
      exact .pure _
  | cons b bs =>
      obtain ⟨text, items, hrenders⟩ := exists_rendersAll hbodies (p := p.deeper) hp
      refine ⟨[("else", text)], ⟨.elseWord, "else"⟩ :: bracedWords items,
        .block default (items.map Prod.snd), ?_, fun number => ⟨?_, ?_, ?_⟩⟩
      · rw [Statement.otherwise, hchain]
        exact (gives_body hchain hrenders.gives).map _
      · have hheader : ReadsAlone ("\x7d " ++ "else" ++ " ").toList
            ([symbol .rightBrace] ++ [⟨.elseWord, "else"⟩]) := by
          have hall := reads_brace_blank.seq reads_else
          rwa [← String.toList_append, ← String.append_assoc] at hall
        have hlines := (follows_nil hp number).lines_arm hp hheader hrenders.reads
        rwa [List.append_nil] at hlines
      · exact Or.inr ⟨_, rfl, .block default items hrenders.clauses⟩
      · change (Blocks.statements (items.map Prod.snd) >>= fun body =>
          .ok [Input.chain "ELSE" body]) = _
        rw [hrenders.back]
        rfl

include hp in
theorem exists_followers {s : Shape} {arms : List (Block × List Block)} {number fuel : Nat}
    (hnumber : 0 < number) (hfuel : arms.length < fuel)
    (hvalues : ∀ a ∈ arms, a.1.IsCanonicalValue) (hbodies : ∀ a ∈ arms, ∀ b ∈ a.2, Returns b)
    (harms : ∀ i (h : i < arms.length),
      s.chain (Branch.condition (number + i)) = [part arms[i].1] ∧
        s.chain (Branch.statements (number + i)) = parts arms[i].2)
    (hend : s.chain (Branch.condition (number + arms.length)) = [] ∧
      s.chain (Branch.statements (number + arms.length)) = [])
    {last : List Statement.Arm} {ws : List Word} {n : Node} {is : List Input}
    (hlast : ∀ number, Follows p last ws n number is) :
    ∃ heads ws' n', Gives (Statement.arms s p fuel number) heads
        (Block.collect Block.assigns? (arms.flatMap Prod.snd))
        (Block.collect Block.declares? (arms.flatMap Prod.snd)) ∧
      Follows p (heads ++ last) ws' n' number (Block.armInputs number arms ++ is) := by
  induction arms generalizing number fuel with
  | nil =>
      obtain ⟨fuel, rfl⟩ : ∃ k, fuel = k + 1 := ⟨fuel - 1, by simp at hfuel; omega⟩
      exact ⟨[], ws, n, gives_no_arm hnumber hend.1 hend.2 fuel, hlast number⟩
  | cons a arms ih =>
      obtain ⟨fuel, rfl⟩ : ∃ k, fuel = k + 1 := ⟨fuel - 1, by omega⟩
      obtain ⟨hvalue, hvalues⟩ := List.forall_mem_cons.mp hvalues
      obtain ⟨hbody, hbodies⟩ := List.forall_mem_cons.mp hbodies
      obtain ⟨e, he, -⟩ := hvalue.exists_represents
      obtain ⟨us, hphrase, hspelling⟩ := he.written.open
      obtain ⟨text, items, hrenders⟩ := exists_rendersAll hbody (p := p.deeper) hp
      have hfirst := harms 0 (by simp)
      obtain ⟨heads, ws', n', hgives, hfollows⟩ := ih (show 0 < number + 1 by omega)
        (show arms.length < fuel by simpa using hfuel) hvalues hbodies
        (fun i hi => by
          have hnext := harms (i + 1) (by simpa using hi)
          rwa [show number + (i + 1) = number + 1 + i by omega] at hnext)
        (by rwa [List.length_cons, show number + (arms.length + 1) = number + 1 + arms.length by
          omega] at hend)
      have hstep := gives_arm hfirst.1 (gives_open hfirst.1 he "false")
        (gives_body hfirst.2 hrenders.gives) hgives
      rw [if_neg (by omega)] at hstep
      refine ⟨("else if" ++ " (" ++ e.coded.text ++ ")", text) :: heads, _,
        .branch default e (.block default (items.map Prod.snd)) n', ?_,
        ⟨hfollows.lines_arm hp (reads_elseIf hspelling) hrenders.reads, Or.inr ⟨_, ?_,
          hfollows.clause_arm hphrase hrenders.clauses⟩, hfollows.back_arm he hrenders.back⟩⟩
      · rw [List.flatMap_cons, Block.collect_append, Block.collect_append]
        exact hstep
      · simp [armWords]

/-- The parts of a choice, by the names of its inputs: those of its arms, none past them, and its
last one. -/
theorem chains_choice (arms : List (Block × List Block)) {is : List Input} {others : List Block}
    (hothers : ∀ name, (Block.ofTexts "controls_if" [] is).chain name =
      if "ELSE" = name then others else []) :
    let s : Shape := ⟨"controls_if", [], slots (Block.armInputs 0 arms ++ is)⟩
    (∀ i (h : i < arms.length), s.chain (Branch.condition i) = [part arms[i].1] ∧
        s.chain (Branch.statements i) = parts arms[i].2) ∧
      (s.chain (Branch.condition arms.length) = [] ∧
        s.chain (Branch.statements arms.length) = []) ∧
      s.chain "ELSE" = parts others := by
  intro s
  have hchain : ∀ name, s.chain name = parts ((Block.ofTexts "controls_if" []
      (Block.armInputs 0 arms ++ is)).chain name) :=
    chain_slots_eq "controls_if" [] _
  obtain ⟨hendCondition, hendStatements, helse⟩ :=
    Block.chain_past_arms "controls_if" [] arms hothers
  refine ⟨fun i h => ?_, ⟨?_, ?_⟩, (hchain _).trans (congrArg parts helse)⟩
  · obtain ⟨hcondition, hstatements⟩ := Block.chain_arm "controls_if" [] is 0 h
    rw [Nat.zero_add] at hcondition hstatements
    rw [hchain, hchain, hcondition, hstatements]
    exact ⟨rfl, rfl⟩
  · exact (hchain _).trans (congrArg parts hendCondition)
  · exact (hchain _).trans (congrArg parts hendStatements)

theorem returns_choice {arms : List (Block × List Block)} {others : List Block} (hne : arms ≠ [])
    (hvalues' : ∀ a ∈ arms, a.1.IsCanonicalValue) (hbodies : ∀ a ∈ arms, ∀ b ∈ a.2, Returns b)
    (hothers : ∀ b ∈ others, Returns b) :
    Returns (.ofTexts "controls_if" []
      (Block.armInputs 0 arms ++ Block.otherwiseInputs others)) := by
  intro p hp
  obtain ⟨a, arms, rfl⟩ := List.exists_cons_of_ne_nil hne
  obtain ⟨harm, hend, helse⟩ := chains_choice (a :: arms)
    (Block.chain_otherwise "controls_if" [] others)
  rw [List.length_cons, Nat.add_comm] at hend
  obtain ⟨hvalue, hvalues⟩ := List.forall_mem_cons.mp hvalues'
  obtain ⟨hbody, hbodies⟩ := List.forall_mem_cons.mp hbodies
  obtain ⟨e, he, -⟩ := hvalue.exists_represents
  obtain ⟨us, hphrase, hspelling⟩ := he.written.open
  obtain ⟨text, items, hrenders⟩ := exists_rendersAll hbody (p := p.deeper) hp
  obtain ⟨last, ws, n, hlast, hbehind⟩ :=
    exists_last hp helse hothers
  have hfuel : arms.length < (slots (Block.armInputs 0 (a :: arms) ++
      Block.otherwiseInputs others)).length := by
    rw [slots_length, List.length_append, Block.length_armInputs, List.length_cons]
    omega
  obtain ⟨heads, ws', n', hheads, hfollows⟩ := exists_followers hp Nat.one_pos hfuel hvalues hbodies
    (fun i hi => by
      rw [Nat.add_comm 1 i]
      exact harm (i + 1) (Nat.succ_lt_succ hi)) hend hbehind
  have harms := gives_arm (harm 0 (by simp)).1 (gives_open (harm 0 (by simp)).1 he "false")
    (gives_body (harm 0 (by simp)).2 hrenders.gives) hheads
  rw [if_pos rfl, ← Block.collect_append, ← Block.collect_append, ← List.flatMap_cons] at harms
  have hheader : ReadsAlone ("" ++ ("if" ++ " (" ++ e.coded.text ++ ")") ++ " ").toList
      ([] ++ (⟨.ifWord, "if"⟩ :: symbol .leftParen :: us ++ [symbol .rightParen])) := by
    rw [String.empty_append]
    exact reads_if hspelling
  have hlines := hfollows.lines_arm hp hheader hrenders.reads
  refine ⟨_, _, .branch default e (.block default (items.map Prod.snd)) n', ?_, hlines.joinLines,
    ?_, ⟨rfl, rfl⟩, ?_⟩
  · rw [part_statement (by decide) rfl, Block.collect_ofTexts, Block.collect_ofTexts]
    rw [Block.filterMap_arms fun a' ha' b hb => ((hvalues' a' ha').names_of_mem_walk b hb).1,
      Block.filterMap_arms fun a' ha' b hb => ((hvalues' a' ha').names_of_mem_walk b hb).2]
    exact harms.bind (hlast.map _)
  · have hclause := hfollows.clause_arm hphrase hrenders.clauses
    simpa [armWords] using hclause
  · have hback := hfollows.back_arm he hrenders.back
    change (Blocks.part (.branch default e (.block default (items.map Prod.snd)) n')).arms 0
      >>= _ = _
    rw [hback]
    rfl

end Choice

/-! ## Loops -/

section Loops

variable {p : Place} (hp : IsIndent p.indent)

/-- A letter with a number is a name that is no pin. -/
theorem numbered_spec (n : Nat) :
    Word.Firm ⟨.identifier, "i" ++ Number.decimal n⟩ ∧
      isAnalogPin ("i" ++ Number.decimal n) = false := by
  have hchars : ("i" ++ Number.decimal n).toList = 'i' :: Number.digits n := by
    simp [Number.decimal]
  have hdigits : ∀ c ∈ Number.digits n, c.isDigit = true :=
    fun c hc => Nat.isDigit_of_mem_toDigits (by decide) (by decide) hc
  have hkind : TokenKind.ofWord ("i" ++ Number.decimal n) = .identifier := by
    have hkeywords : ∀ entry ∈ TokenKind.keywords,
        entry.1.toList.tail.all Char.isDigit = false := by
      decide
    refine (TokenKind.ofWord_cases _).resolve_right ?_
    rintro ⟨entry, hentry, hspelled, -⟩
    have htail := hkeywords entry hentry
    rw [hspelled, hchars, List.tail_cons, List.all_eq_true.mpr hdigits] at htail
    cases htail
  refine ⟨firm_ofWord hkind ?_ ?_, ?_⟩
  · rw [hchars]
    rfl
  · rw [hchars, List.tail_cons]
    exact List.all_eq_true.mpr fun c hc => Text.isNameChar_of_isDigit (hdigits c hc)
  · rw [isAnalogPin, hchars]
    rfl

theorem counter_spec (loops : Nat) :
    Word.Firm ⟨.identifier, Statement.counter loops⟩ ∧
      isAnalogPin (Statement.counter loops) = false := by
  have hletters : ∀ name ∈ ["i", "j", "k"], (TokenKind.ofWord name = .identifier ∧
      name.toList.head?.any Text.isNameStart = true ∧
      name.toList.tail.all Text.isNameChar = true) ∧ isAnalogPin name = false := by
    decide
  have hletter : ∀ name ∈ ["i", "j", "k"], Word.Firm ⟨.identifier, name⟩ ∧
      isAnalogPin name = false := by
    intro name hname
    obtain ⟨⟨hkind, hhead, htail⟩, hpin⟩ := hletters name hname
    exact ⟨firm_ofWord hkind hhead htail, hpin⟩
  unfold Statement.counter
  split
  iterate 3 exact hletter _ (by decide)
  exact numbered_spec loops

def countInside (name times : String) : String :=
  "int " ++ name ++ " = 0; " ++ name ++ " < " ++ times ++ "; " ++ name ++ "++"

def countWords (name : String) (us : List Word) : List Word :=
  ([⟨.intType, "int"⟩] ++ ⟨.identifier, name⟩ :: symbol .assign :: [⟨.number, "0"⟩] ++
      [symbol .semicolon]) ++
    (⟨.identifier, name⟩ :: symbol .lessThan :: us) ++
    symbol .semicolon :: [⟨.identifier, name⟩, symbol .increment]

theorem reads_count {name times : String} {us : List Word}
    (hname : Word.Firm ⟨.identifier, name⟩) (htimes : Spelling times us true) :
    ReadsAs (countInside name times).toList (countWords name us) (tail true) := by
  have hspelling : Spelling name [⟨.identifier, name⟩] true :=
    (Spelling.word hname rfl rfl).pointed_true
  have hzero : Spelling "0" [⟨.number, "0"⟩] true :=
    (Spelling.word (IsNumeral.firm (by decide +kernel)) rfl rfl).pointed_true
  have htype : ReadsAlone ("int".toList ++ [' ']) [⟨.intType, "int"⟩] :=
    (firm_ofWord (by decide) (by decide) (by decide)).readsAs.blank (by decide)
  have hclose : ReadsAlone ([';'] ++ [' ']) [symbol .semicolon] :=
    (readsAs_symbol .semicolon rfl).blank rfl
  have hstart := Spelling.infixed (show TokenKind.assign.symbol? = some "=" from rfl)
    hspelling hzero
  have htest := Spelling.infixed (show TokenKind.lessThan.symbol? = some "<" from rfl)
    hspelling htimes
  have hstep := (Spelling.step (show TokenKind.increment.symbol? = some "++" from rfl) rfl
    hspelling).pointed_true
  have hback := htest.reads.append_cons (hclose.seq hstep.reads) (by decide)
  have hall := htype.seq (hstart.reads.append_cons (hclose.seq hback) (by decide))
  refine cast (congrArg₂ (ReadsAs · · _) ?_ ?_) hall
  · simp [countInside]
  · simp [countWords]

def countNode (name : String) (zero : Binary64) (times : Expr) (body : List Node) : Node :=
  .forLoop default (.declaration default "int" name (.literal default (.number zero) "0"))
    (.binary default "<" (.name default name) times)
    (.unary default "++" (.name default name) false) (.block default body)

theorem clause_count {name : String} {us : List Word} {times : Expr}
    (hpin : isAnalogPin name = false) {x : Binary64} (hzero : Number.double? "0" = some x)
    (htimes : Phrase 6 us times) {items : List (List Word × Node)}
    (hitems : ∀ a ∈ items, Clause a.1 a.2) :
    Clause (⟨.forWord, "for"⟩ :: symbol .leftParen :: countWords name us ++
        symbol .rightParen :: bracedWords items)
      (countNode name x times (items.map Prod.snd)) := by
  have hname := Phrase.name default hpin
  have hstart : Declared ([⟨.intType, "int"⟩] ++ ⟨.identifier, name⟩ :: symbol .assign ::
      [⟨.number, "0"⟩] ++ [symbol .semicolon])
      (.declaration default "int" name (.literal default (.number x) "0")) :=
    .valued default name (.one rfl)
      ((Phrase.number default hzero).loosenTo (Nat.le_refl 1) (by decide))
  have htest := Phrase.binary_symbol default (show 2 ≤ TokenKind.lessThan.joins by decide)
    (by decide) (show TokenKind.lessThan.symbol? = some "<" from rfl)
    (hname.loosenTo (by decide) (by decide)) htimes
  have hstep := Phrase.step_symbol default
    (show ExprGrammar.isTrailing .increment = true from rfl)
    (show TokenKind.increment.symbol? = some "++" from rfl)
    (hname.loosenTo (by decide) (by decide))
  have hclause := Clause.forLoop default default items (.declared hstart)
    (.some (htest.loosenTo (Nat.le_refl 1) (by decide)))
    (.some (hstep.loosenTo (Nat.le_refl 1) (by decide))) hitems
  simpa [countWords, countNode] using hclause

theorem binding_of_tight {e : Expr} (h : e.Written) (hbinding : 6 ≤ e.binding) :
    ∃ us, Phrase 6 us e ∧ Spelling e.coded.text us true := by
  obtain ⟨us, hphrase, hspelling, -⟩ := h
  exact ⟨us, hphrase.loosenTo (by decide) hbinding, hspelling⟩

theorem collect_loop {find? : Block → Option String} {type : String}
    {fields : List (String × String)} {name : String} {test : Block} {body : List Block}
    (hself : find? (.ofTexts type fields [.value name test, .chain "DO" body]) = none)
    (htest : ∀ b ∈ test.walk, find? b = none) :
    Block.collect find? [.ofTexts type fields [.value name test, .chain "DO" body]] =
      Block.collect find? body := by
  rw [Block.collect_ofTexts, hself, Input.walkAll, Input.walkAll, Input.walkAll, Input.walk,
    Input.walk, List.filterMap_append, List.filterMap_eq_nil_iff.mpr htest, List.append_nil]
  rfl

theorem gives_do {type : String} {fields : List (String × String)} {name : String}
    (hname : name ≠ "DO") {test : Block} {body : List Block} {p : Place} {text : String}
    {items : List (List Word × Node)} (h : RendersAll body p text items) :
    Gives (Shape.body ⟨type, fields.map fun f => (f.1, .text f.2),
        slots [.value name test, .chain "DO" body]⟩ p "DO") text
      (Block.collect Block.assigns? body) (Block.collect Block.declares? body) := by
  have hchain :
      (Block.ofTexts type fields [.value name test, .chain "DO" body]).chain "DO" = body :=
    (Block.chain_cons_of_ne type fields (.value name test) hname _).trans
      (Block.chain_cons_self type fields (.chain "DO" body) [])
  rw [Shape.body, chain_slots_eq]
  change Gives (Shape.statements p (parts ((Block.ofTexts type fields _).chain "DO"))) _ _ _
  rw [hchain]
  exact h.gives

theorem returns_repetition {times : Block} {body : List Block} (hvalue : times.IsCanonicalValue)
    (htight : times.isTight = true) (hbody : ∀ b ∈ body, Returns b) :
    Returns (.ofTexts "controls_repeat_ext" [] [.value "TIMES" times, .chain "DO" body]) := by
  intro p hp
  obtain ⟨e, he, -, hbinding⟩ := hvalue.exists_represents
  obtain ⟨us, hphrase, hspelling⟩ := binding_of_tight he.written (hbinding htight)
  obtain ⟨text, items, hrenders⟩ := exists_rendersAll hbody (p := p.deeper.inLoop) hp
  obtain ⟨hname, hpin⟩ := counter_spec p.loops
  obtain ⟨x, hx, hzero⟩ : ∃ x, Number.double? "0" = some x ∧ x.isZero = true :=
    (Option.any_eq_true _ _).mp (by decide +kernel)
  obtain ⟨hfirm, hblank⟩ := firm_keyword (.forWord, "for") (by decide)
  have hheader := reads_headerText hfirm hblank (reads_count hname hspelling)
  refine ⟨_, _, countNode (Statement.counter p.loops) x e (items.map Prod.snd), ?_,
    reads_braced hp hheader hrenders.reads, ?_, ⟨rfl, rfl⟩, ?_⟩
  · rw [part_statement (by decide) rfl,
      collect_loop rfl fun b hb => (hvalue.names_of_mem_walk b hb).1,
      collect_loop rfl fun b hb => (hvalue.names_of_mem_walk b hb).2]
    have hnumber : Gives (Shape.number ⟨"controls_repeat_ext", [],
        slots [.value "TIMES" times, .chain "DO" body]⟩ "TIMES" "10" .natural) e.coded.text [] [] :=
      gives_number rfl he "10" .natural (Or.inr rfl) nofun
    refine (hnumber.bind ((gives_do (by decide) hrenders).map _)).of_eq ?_
    refine congrArg (Statement.braced p · text) (String.toList_inj.mp ?_)
    simp [countInside]
  · have hclause := clause_count hpin hx hphrase hrenders.clauses
    simpa [bracedWords] using hclause
  · have hrepetitions : Blocks.repetitions?
        (.declaration default "int" (Statement.counter p.loops) (.literal default (.number x) "0"))
        (.binary default "<" (.name default (Statement.counter p.loops)) e)
        (.unary default "++" (.name default (Statement.counter p.loops)) false) = some e := by
      rw [Blocks.repetitions?_eq, Blocks.zeroStart?, if_pos hzero]
      simp [Blocks.below?, Blocks.stepped?]
    change Blocks.forLoop _ _ _ (Blocks.statements (items.map Prod.snd)) >>= _ = _
    rw [Blocks.forLoop, hrepetitions]
    change (Blocks.timesInput e >>= _) >>= _ = _
    rw [Blocks.timesInput, he.value?, hrenders.back]
    rfl

theorem returns_whileLoop {test : Block} {body : List Block} (hvalue : test.IsCanonicalValue)
    (hbody : ∀ b ∈ body, Returns b) :
    Returns (.ofTexts "controls_whileUntil" [("MODE", "WHILE")]
      [.value "BOOL" test, .chain "DO" body]) := by
  intro p hp
  obtain ⟨e, he, -⟩ := hvalue.exists_represents
  obtain ⟨us, hphrase, hspelling⟩ := he.written.open
  obtain ⟨text, items, hrenders⟩ := exists_rendersAll hbody (p := p.deeper) hp
  obtain ⟨hfirm, hblank⟩ := firm_keyword (.whileWord, "while") (by decide)
  have hheader := reads_headerText hfirm hblank hspelling.reads
  refine ⟨_, _, .whileLoop default e (.block default (items.map Prod.snd)), ?_,
    reads_braced hp hheader hrenders.reads, ?_, ⟨rfl, rfl⟩, ?_⟩
  · rw [part_statement (by decide) rfl,
      collect_loop rfl fun b hb => (hvalue.names_of_mem_walk b hb).1,
      collect_loop rfl fun b hb => (hvalue.names_of_mem_walk b hb).2]
    have htest : Gives (Statement.loopCondition ⟨"controls_whileUntil", [("MODE", .text "WHILE")],
        slots [.value "BOOL" test, .chain "DO" body]⟩) e.coded.text [] [] :=
      gives_open rfl he "false"
    exact htest.bind ((gives_do (by decide) hrenders).map _)
  · have hclause := Clause.whileLoop default default items hphrase hrenders.clauses
    simpa [bracedWords] using hclause
  · change (Blocks.valueIn "BOOL" e >>= fun condition =>
      Blocks.statements (items.map Prod.snd) >>= _) >>= _ = _
    rw [he.valueIn, hrenders.back]
    rfl

end Loops

end Code

/-- The code of a canonical statement is read back as the statement. -/
theorem Block.IsCanonical.returns {b : Block} (h : b.IsCanonical) : Returns b := by
  induction h with
  | pinMode hpin hplain hmode => exact returns_pinMode hpin hplain hmode
  | digitalWrite hpin hplain hstate => exact returns_digitalWrite hpin hplain hstate
  | analogWrite hpin hplain hvalue hmost => exact returns_analogWrite hpin hplain hvalue hmost
  | delay hraw =>
      exact returns_pause (by decide) rfl (by decide +kernel) (by decide) hraw fun _ _ _ => rfl
  | delayMicroseconds hraw =>
      exact returns_pause (by decide) rfl (by decide +kernel) (by decide) hraw fun _ _ _ => rfl
  | serialBegin hbaud => exact returns_serialBegin hbaud
  | serialPrint newline htext => exact returns_serialPrint htext newline
  | randomSeed hseed => exact returns_randomSeed hseed
  | call hdigital hanalog hcall hvalues => exact returns_valueCall hdigital hanalog hcall hvalues
  | query h => exact returns_query h
  | set hsafe hname hvalue => exact returns_set hvalue hsafe hname
  | declaration hdeclaration =>
      intro p hp
      obtain ⟨text, ws, n, hrenders, -⟩ := hdeclaration.declares p hp
      exact ⟨text, ws, n, hrenders⟩
  | choice hne hvalues _ _ ihbodies ihothers => exact returns_choice hne hvalues ihbodies ihothers
  | repetition hvalue htight _ ih => exact returns_repetition hvalue htight ih
  | whileLoop hvalue _ ih => exact returns_whileLoop hvalue ih

end InoBlocks
