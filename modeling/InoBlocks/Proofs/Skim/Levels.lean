import InoBlocks.Proofs.Code.Completes
import InoBlocks.Skim.Reader
import Mathlib.Data.List.Forall2

/-!
# How deep a sketch is skimmed

A reader hands the parts of a text on to the reader one level further down and puts what comes back
into one block at most.  So whatever relates the blocks of two readers, and can be carried from the
inputs of a block to the block, relates what they read one level up: `Reader.Relates.around`, of
which both the depth of a workspace and the texts at the limit of the levels are cases.
-/

namespace InoBlocks

namespace Text

/-! ## Blanks at the ends -/

theorem trimEnd_trimEnd (cs : List Char) : trimEnd (trimEnd cs) = trimEnd cs := by
  induction cs with
  | nil => rfl
  | cons c cs ih =>
      rw [trimEnd]
      split
      · split
        · rfl
        · rename_i hc
          rw [trimEnd, trimEnd, if_neg hc]
      · rename_i d ds hcs
        rw [hcs] at ih
        rw [trimEnd, ih]

theorem trim_trim (cs : List Char) : trim (trim cs) = trim cs := by
  have hstart : trimStart (trim cs) = trim cs := by
    rw [trim]
    cases hcs : trimStart cs with
    | nil => rfl
    | cons c ds =>
        have hc : ¬ isBlank c = true := by
          have hhead := List.head?_dropWhile_not isBlank cs
          rw [show cs.dropWhile isBlank = c :: ds from hcs] at hhead
          simpa using hhead
        rw [trimEnd]
        split
        · rw [if_neg hc, trimStart, List.dropWhile_cons_of_neg hc]
        · rw [trimStart, List.dropWhile_cons_of_neg hc]
  rw [trim, hstart, trim, trimEnd_trimEnd]

end Text

namespace Block

/-! ## Chains of nested blocks -/

def Holds (b c : Block) : Prop :=
  ∃ i ∈ b.inputs, c ∈ i.blocks

/-- Whether no chain of nested blocks from a block on has more than a number of them. -/
def Within : Nat → Block → Prop
  | 0, _ => False
  | levels + 1, b => ∀ c, b.Holds c → Within levels c

variable {levels : Nat} {b : Block}

theorem within_of_inputs (h : ∀ i ∈ b.inputs, ∀ c ∈ i.blocks, c.Within levels) :
    b.Within (levels + 1) :=
  fun c ⟨i, hi, hc⟩ => h i hi c hc

theorem within_leaf (h : b.inputs = []) : b.Within (levels + 1) :=
  within_of_inputs (by simp [h])

theorem Within.succ (h : b.Within levels) : b.Within (levels + 1) := by
  induction levels generalizing b with
  | zero => exact h.elim
  | succ levels ih => exact fun c hc => ih (h c hc)

theorem Within.forall_mem_walk (h : b.Within levels) : ∀ c ∈ b.walk, c.Within levels := by
  induction levels generalizing b with
  | zero => exact h.elim
  | succ levels ih =>
      obtain ⟨type, fields, inputs⟩ := b
      rw [walk, List.forall_mem_cons]
      exact ⟨h, Input.forall_mem_walkAll fun i hi c hc d hd => (ih (h c ⟨i, hi, hc⟩) d hd).succ⟩

theorem Within.length_le (h : b.Within levels) (bs : List Block)
    (hchain : (b :: bs).IsChain Holds) : (b :: bs).length ≤ levels := by
  induction levels generalizing b bs with
  | zero => exact h.elim
  | succ levels ih =>
      cases bs with
      | nil => simp
      | cons c bs =>
          rw [List.isChain_cons_cons] at hchain
          exact Nat.succ_le_succ (ih (h c hchain.1) bs hchain.2)

/-- The blocks on the way down through the values of first inputs, a number of them at most. -/
def trunk : Nat → Block → List Block
  | 0, _ => []
  | n + 1, b => b :: match b.inputs with
      | .value _ c :: _ => trunk n c
      | _ => []

theorem isChain_trunk (n : Nat) (b : Block) : (b.trunk n).IsChain Holds := by
  induction n generalizing b with
  | zero => exact .nil
  | succ n ih =>
      rw [trunk]
      split
      · rename_i name c is hinputs
        have hc : b.Holds c :=
          ⟨.value name c, hinputs ▸ List.mem_cons_self, List.mem_singleton_self c⟩
        have hchain := ih c
        cases n with
        | zero => exact .singleton b
        | succ n => exact List.isChain_cons_cons.mpr ⟨hc, hchain⟩
      · exact .singleton b

end Block

namespace Skim

open Text

/-! ## Two readers side by side -/

/-- Inputs of the same names in the same order whose values and chains are related. -/
inductive AlikeInputs (V : Block → Block → Prop) (C : List Block → List Block → Prop) :
    List Input → List Input → Prop where
  | nil : AlikeInputs V C [] []
  | value {b c : Block} {is js : List Input} (name : String) (h : V b c)
      (rest : AlikeInputs V C is js) : AlikeInputs V C (.value name b :: is) (.value name c :: js)
  | chain {bs cs : List Block} {is js : List Input} (name : String) (h : C bs cs)
      (rest : AlikeInputs V C is js) : AlikeInputs V C (.chain name bs :: is) (.chain name cs :: js)

/-- Two readers that read related blocks and chains from every text. -/
structure Reader.Relates (V : Block → Block → Prop) (C : List Block → List Block → Prop)
    (r s : Reader) : Prop where
  block : ∀ cs, C (r.block cs) (s.block cs)
  condition : ∀ cs, V (r.condition cs) (s.condition cs)
  value : ∀ cs, V (r.value cs) (s.value cs)

/-- A relation between blocks that those of one level have if what is inside them is related. -/
structure Encloses (V : Block → Block → Prop) (C : List Block → List Block → Prop)
    (W : Block → Block → Prop) : Prop where
  inside : ∀ {b c}, V b c → W b c
  leaf : ∀ type fields, V (.mk type fields []) (.mk type fields [])
  block : ∀ type fields {is js}, AlikeInputs V C is js → W (.mk type fields is) (.mk type fields js)

/-! ## Options -/

section Options

variable {α β γ : Type} {R : α → β → Prop}

theorem rel_orElse {a c : Option α} {b d : Option β} (hab : Option.Rel R a b)
    (hcd : Option.Rel R c d) : Option.Rel R (a <|> c) (b <|> d) := by
  cases hab with
  | some h => exact .some h
  | none => exact hcd

theorem rel_map (o : Option γ) {f : γ → α} {g : γ → β} (h : ∀ x, R (f x) (g x)) :
    Option.Rel R (o.map f) (o.map g) := by
  cases o with
  | some x => exact .some (h x)
  | none => exact .none

theorem rel_bind (o : Option γ) {f : γ → Option α} {g : γ → Option β}
    (h : ∀ x, Option.Rel R (f x) (g x)) : Option.Rel R (o.bind f) (o.bind g) := by
  cases o with
  | some x => exact h x
  | none => exact .none

theorem rel_findSome? (xs : List γ) {f : γ → Option α} {g : γ → Option β}
    (h : ∀ x, Option.Rel R (f x) (g x)) : Option.Rel R (xs.findSome? f) (xs.findSome? g) := by
  induction xs with
  | nil => exact .none
  | cons x xs ih =>
      rw [List.findSome?_cons, List.findSome?_cons]
      have hx := h x
      revert hx
      generalize f x = a
      generalize g x = b
      rintro (h | _)
      · exact .some h
      · exact ih

end Options

section Around

variable {V W : Block → Block → Prop} {C : List Block → List Block → Prop}
  (hup : Encloses V C W)

include hup

theorem Encloses.ofTexts (type : String) (fields : List (String × String)) {is js : List Input}
    (h : AlikeInputs V C is js) : W (.ofTexts type fields is) (.ofTexts type fields js) :=
  hup.block type _ h

/-! ## Values -/

theorem Encloses.rel_plainValue? (cs : List Char) :
    Option.Rel W (plainValue? cs) (plainValue? cs) := by
  unfold plainValue?
  repeat' split
  all_goals first
    | exact .none
    | exact .some (hup.ofTexts _ _ .nil)

section Values

variable {read look : List Char → Block} (h : ∀ cs, V (read cs) (look cs))

include h

theorem Encloses.rel_pinReading? (cs : List Char) :
    Option.Rel W (pinReading? read cs) (pinReading? look cs) :=
  rel_orElse (rel_map _ fun pin => hup.block _ _ (.value "PIN" (h pin) .nil))
    (rel_map _ fun pin => hup.block _ _ (.value "PIN" (h pin) .nil))

theorem Encloses.operation (type : String) (names : List (String × String)) (s : Split) :
    W (Skim.operation type names s read) (Skim.operation type names s look) :=
  hup.ofTexts _ _ (.value "A" (h _) (.value "B" (h _) .nil))

theorem Encloses.rel_operation? (cs : List Char) :
    Option.Rel W (operation? read cs) (operation? look cs) :=
  rel_findSome? _ fun _ => rel_map _ fun s => hup.operation h _ _ s

theorem Encloses.matchValue (cs : List Char) :
    W (Skim.matchValue read cs) (Skim.matchValue look cs) := by
  have hfound := rel_orElse (hup.rel_plainValue? cs)
    (rel_orElse (hup.rel_pinReading? h cs) (hup.rel_operation? h cs))
  unfold Skim.matchValue
  revert hfound
  generalize (plainValue? cs <|> pinReading? read cs <|> operation? read cs) = a
  generalize (plainValue? cs <|> pinReading? look cs <|> operation? look cs) = b
  rintro (h' | _)
  · exact h'
  · dsimp only
    split
    · exact hup.block _ _ (.value "BOOL" (h _) .nil)
    · split
      · exact hup.ofTexts _ _ .nil
      · split
        · exact hup.inside (h _)
        · exact hup.ofTexts _ _ .nil

end Values

/-! ## Statements -/

variable {r s : Reader} (h : r.Relates V C s)

include h

theorem Encloses.matchCondition (cs : List Char) :
    W (Skim.matchCondition r cs) (Skim.matchCondition s cs) := by
  unfold Skim.matchCondition
  split
  · exact hup.operation h.condition _ _ _
  · split
    · exact hup.operation h.value _ _ _
    · exact hup.inside (h.value cs)

theorem Encloses.rel_variableStatement? (cs : List Char) :
    Option.Rel W (variableStatement? r cs) (variableStatement? s cs) := by
  unfold variableStatement?
  split
  · exact .some (hup.ofTexts _ _ (.value "VALUE" (h.value _) .nil))
  · exact .some (hup.ofTexts _ _ .nil)
  · exact .some (hup.ofTexts _ _ (.value "VALUE" (h.value _) .nil))
  · exact .none

theorem Encloses.rel_callStatement? (cs : List Char) :
    Option.Rel W (callStatement? r cs) (callStatement? s cs) := by
  refine rel_orElse (rel_bind _ fun write => rel_bind _ fun level => .some ?_)
    (rel_orElse (rel_bind _ fun mode => ?_) (rel_orElse (rel_bind _ fun write => .some ?_)
      (rel_findSome? _ fun name => rel_map _ fun digits => ?_)))
  · exact hup.ofTexts _ _ (.value "PIN" (h.value _) .nil)
  · dsimp only
    split
    · exact .some (hup.ofTexts _ _ (.value "PIN" (h.value _) .nil))
    · exact .none
  · exact hup.block _ _ (.value "PIN" (h.value _) (.value "VALUE" (h.value _) .nil))
  · exact hup.ofTexts _ _ .nil

theorem Encloses.rel_statement? (cs : List Char) :
    Option.Rel W (statement? r cs) (statement? s cs) := by
  unfold statement?
  split
  · exact .none
  · have hfound := rel_orElse (hup.rel_variableStatement? h (bareStatement cs))
      (hup.rel_callStatement? h (bareStatement cs))
    refine .some ?_
    revert hfound
    generalize (variableStatement? r (bareStatement cs) <|> callStatement? r (bareStatement cs)) = a
    generalize (variableStatement? s (bareStatement cs) <|> callStatement? s (bareStatement cs)) = b
    rintro (h' | _)
    · exact h'
    · exact hup.ofTexts _ _ .nil

omit hup in
theorem rel_arms? (fuel number : Nat) (cs : List Char) :
    Option.Rel (AlikeInputs V C) (arms? r fuel number cs) (arms? s fuel number cs) := by
  induction fuel generalizing number cs with
  | zero => exact .none
  | succ fuel ih =>
      refine rel_bind _ fun parts => ?_
      have harm : ∀ {is js}, AlikeInputs V C is js →
          AlikeInputs V C
            (.value ("IF" ++ Number.decimal number) (r.condition parts.1) ::
              .chain ("DO" ++ Number.decimal number) (r.block (bodyAndRest parts.2).1) :: is)
            (.value ("IF" ++ Number.decimal number) (s.condition parts.1) ::
              .chain ("DO" ++ Number.decimal number) (s.block (bodyAndRest parts.2).1) :: js) :=
        fun rest => .value _ (h.condition _) (.chain _ (h.block _) rest)
      dsimp only
      split
      · exact .some (harm .nil)
      · split
        · have hothers := ih (number + 1) (trim ((bodyAndRest parts.2).2.drop 4))
          revert hothers
          generalize arms? r fuel _ _ = a
          generalize arms? s fuel _ _ = b
          rintro (hothers | _)
          · exact .some (harm hothers)
          · exact .none
        · exact .some (harm (.chain _ (h.block _) .nil))

theorem Encloses.choice (cs : List Char) : W (Skim.choice r cs) (Skim.choice s cs) := by
  have harms := rel_arms? h (cs.length + 1) 0 cs
  unfold Skim.choice
  revert harms
  generalize arms? r (cs.length + 1) 0 cs = a
  generalize arms? s (cs.length + 1) 0 cs = b
  rintro (his | _)
  · exact hup.block _ _ his
  · exact hup.ofTexts _ _ .nil

omit h in
theorem Encloses.countedLoop (header : List Char) {bs cs : List Block} (h : C bs cs) :
    W (Skim.countedLoop header bs) (Skim.countedLoop header cs) := by
  have hraw : W
      (.ofTexts "arduino_raw_block" [("CODE", "for (" ++ String.ofList header ++ ")")]
        [.chain "STATEMENTS" bs])
      (.ofTexts "arduino_raw_block" [("CODE", "for (" ++ String.ofList header ++ ")")]
        [.chain "STATEMENTS" cs]) :=
    hup.ofTexts _ _ (.chain _ h .nil)
  unfold Skim.countedLoop
  split
  · exact hup.block _ _ (.value _ (hup.leaf _ _) (.chain _ h .nil))
  · dsimp only
    split
    · split
      · exact hraw
      · exact hup.ofTexts _ _ (.value _ (hup.leaf _ _) (.value _ (hup.leaf _ _)
          (.value _ (hup.leaf _ _) (.chain _ h .nil))))
    · exact hraw

theorem Encloses.rel_chunk? (cs : List Char) : Option.Rel W (chunk? r cs) (chunk? s cs) := by
  unfold chunk?
  split
  · exact .some (hup.choice h cs)
  · split
    · split
      · exact .some (hup.countedLoop _ (h.block _))
      · exact .some (hup.ofTexts _ _ .nil)
    · split
      · split
        · exact .some (hup.ofTexts _ _
            (.value _ (h.condition _) (.chain _ (h.block _) .nil)))
        · exact .some (hup.ofTexts _ _ .nil)
      · exact hup.rel_statement? h cs

/-- What relates the blocks of two readers relates what they read one level up. -/
theorem Reader.Relates.around : r.around.Relates W (List.Forall₂ W) s.around where
  block := fun _ => List.rel_filterMap
    (R := Eq) (fun chunk _ heq => heq ▸ hup.rel_chunk? h chunk) (List.forall₂_refl _)
  condition := fun _ => hup.matchCondition h _
  value := fun _ => hup.matchValue h.value _

end Around

/-! ## Texts that are read -/

/-- The statements of a text without comments, read by a reader of some levels. -/
def stepsOf : (levels : Nat) → List Char → List Block
  | 0, cs => [.rawStatement (String.ofList cs)]
  | levels + 1, cs => (statements cs).filterMap (chunk? (reader levels))

theorem reader_block (levels : Nat) (cs : List Char) :
    (reader levels).block cs = if clean cs = [] then [] else stepsOf levels (clean cs) := by
  have hclean : trim (clean cs) = clean cs := trim_trim _
  cases levels with
  | zero =>
      change rawReader.block cs = _
      unfold rawReader
      dsimp only
      split
      · rename_i hnil
        rw [if_pos hnil]
      · rename_i hsome
        rw [if_neg hsome, rawStatement, hclean]
        rfl
  | succ levels =>
      change (statements (clean cs)).filterMap (chunk? (reader levels)) = _
      split
      · rename_i hnil
        rw [hnil]
        rfl
      · rfl

theorem reader_condition_trim (levels : Nat) (cs : List Char) :
    (reader levels).condition (trim cs) = (reader levels).condition cs := by
  cases levels with
  | zero => exact congrArg rawExpression (trim_trim cs)
  | succ levels => exact congrArg (matchCondition (reader levels)) (trim_trim cs)

theorem reader_value_trim (levels : Nat) (cs : List Char) :
    (reader levels).value (trim cs) = (reader levels).value cs := by
  cases levels with
  | zero => exact congrArg rawExpression (trim_trim cs)
  | succ levels => exact congrArg (matchValue (reader levels).value) (trim_trim cs)

/-! ## Depth -/

/-- What is inside a block is one level further down. -/
theorem encloses_within (levels : Nat) :
    Encloses (fun b _ => b.Within (levels + 1)) (fun bs _ => ∀ b ∈ bs, b.Within (levels + 1))
      (fun b _ => b.Within (levels + 2)) where
  inside := Block.Within.succ
  leaf := fun _ _ => Block.within_leaf rfl
  block := fun _ _ is _ h => by
    refine Block.within_of_inputs (show ∀ i ∈ is, _ from ?_)
    induction h with
    | nil => simp
    | value name h _ ih => exact List.forall_mem_cons.mpr ⟨by simpa [Input.blocks] using h, ih⟩
    | chain name h _ ih => exact List.forall_mem_cons.mpr ⟨h, ih⟩

/-- A reader of some levels reads blocks of so many levels and a raw one. -/
theorem reader_within (levels : Nat) :
    (reader levels).Relates (fun b _ => b.Within (levels + 1))
      (fun bs _ => ∀ b ∈ bs, b.Within (levels + 1)) (reader levels) := by
  induction levels with
  | zero =>
      refine ⟨fun cs b hb => ?_, fun _ => Block.within_leaf rfl, fun _ => Block.within_leaf rfl⟩
      rw [reader_block] at hb
      split at hb
      · cases hb
      · obtain rfl := List.mem_singleton.mp hb
        exact Block.within_leaf rfl
  | succ levels ih =>
      obtain ⟨hblock, hcondition, hvalue⟩ := ih.around (encloses_within levels)
      refine ⟨fun cs => ?_, hcondition, hvalue⟩
      have hchain := hblock cs
      rw [List.forall₂_same] at hchain
      exact hchain

/-! ## Texts at the limit -/

mutual

/-- A block and what it is if the texts of some raw blocks in it are read on, for some more
levels. -/
inductive ReadsOn (more : Nat) : Block → Block → Prop where
  | condition (cs : List Char) : ReadsOn more (rawExpression cs) ((reader more).condition cs)
  | value (cs : List Char) : ReadsOn more (rawExpression cs) ((reader more).value cs)
  | block (type : String) (fields : List (String × Scalar)) {is js : List Input}
      (h : AlikeInputs (ReadsOn more) (ChainReadsOn more) is js) :
      ReadsOn more (.mk type fields is) (.mk type fields js)

/-- A chain and what it is if the texts of some raw blocks in it are read on. -/
inductive ChainReadsOn (more : Nat) : List Block → List Block → Prop where
  | chain (cs : List Char) : ChainReadsOn more [.rawStatement (String.ofList cs)] (stepsOf more cs)
  | steps {bs cs : List Block} (h : List.Forall₂ (ReadsOn more) bs cs) : ChainReadsOn more bs cs

end

/-- A reader of no level keeps the text that another one reads. -/
theorem rawReader_readsOn (more : Nat) :
    (reader 0).Relates (ReadsOn more) (ChainReadsOn more) (reader more) where
  block := fun cs => by
    rw [reader_block, reader_block]
    split
    · exact .steps .nil
    · exact .chain (clean cs)
  condition := fun cs => reader_condition_trim more cs ▸ .condition (trim cs)
  value := fun cs => reader_value_trim more cs ▸ .value (trim cs)

/-- A reader of more levels reads on what one of fewer levels keeps raw, and reads all else as the
other one does. -/
theorem reader_readsOn (levels more : Nat) :
    (reader levels).Relates (ReadsOn more) (ChainReadsOn more) (reader (levels + more)) := by
  induction levels with
  | zero =>
      rw [Nat.zero_add]
      exact rawReader_readsOn more
  | succ levels ih =>
      have hup : Encloses (ReadsOn more) (ChainReadsOn more) (ReadsOn more) :=
        ⟨id, fun type fields => .block type fields .nil, fun type fields => .block type fields⟩
      rw [Nat.add_right_comm]
      obtain ⟨hblock, hcondition, hvalue⟩ := ih.around hup
      exact ⟨fun cs => .steps (hblock cs), hcondition, hvalue⟩

/-! ## Sketches -/

/-- A sketch as a workspace, with some number of levels read. -/
def workspaceOf (levels : Nat) (code : String) : Workspace where
  setup := ((functionBody? "setup".toList code.toList).map (reader levels).block).getD []
  loop := ((functionBody? "loop".toList code.toList).map (reader levels).block).getD []

theorem workspaceOf_maxLevels (code : String) : workspaceOf maxLevels code = workspace code := by
  have hbody : ∀ name : String,
      ((functionBody? name.toList code.toList).map sketchReader.block).getD [] =
        functionBlocks name code.toList := by
    intro name
    unfold functionBlocks
    cases functionBody? name.toList code.toList <;> rfl
  rw [workspace, ← hbody "setup", ← hbody "loop"]
  rfl

theorem within_of_mem_workspace {code : String} {b : Block} (h : b ∈ (workspace code).walk) :
    b.Within (maxLevels + 1) := by
  have hbody : ∀ name, ∀ b ∈ Block.walkAll (functionBlocks name code.toList),
      b.Within (maxLevels + 1) := by
    intro name
    refine Block.forall_mem_walkAll fun b hb => Block.Within.forall_mem_walk ?_
    unfold functionBlocks at hb
    split at hb
    · exact (reader_within maxLevels).block _ b hb
    · cases hb
  rw [Workspace.walk, List.mem_append, List.mem_append] at h
  obtain (h | h) | h := h
  · exact hbody "setup" b h
  · exact hbody "loop" b h
  · cases h

theorem body_readsOn (levels more : Nat) (body? : Option (List Char)) :
    ChainReadsOn more ((body?.map (reader levels).block).getD [])
      ((body?.map (reader (levels + more)).block).getD []) := by
  cases body? with
  | none => exact .steps .nil
  | some body => exact (reader_readsOn levels more).block body

/-- No chain of nested blocks in a workspace is longer than the levels that are read and one raw
block.  What is cut off at the limit is kept: if more levels are read, the workspace is the same but
for raw expressions and raw statements in it, of which the text that they keep is read on. -/
theorem workspace_bounded (code : String) :
    (∀ bs : List Block, bs.IsChain Block.Holds → (∀ b ∈ bs.head?, b ∈ (workspace code).walk) →
      bs.length ≤ maxLevels + 1) ∧
    ∀ more,
      ChainReadsOn more (workspace code).setup (workspaceOf (maxLevels + more) code).setup ∧
      ChainReadsOn more (workspace code).loop (workspaceOf (maxLevels + more) code).loop := by
  refine ⟨fun bs hchain hhead => ?_, fun more => ⟨?_, ?_⟩⟩
  · cases bs with
    | nil => simp
    | cons b bs => exact (within_of_mem_workspace (hhead b rfl)).length_le bs hchain
  · exact (workspaceOf_maxLevels code) ▸ body_readsOn maxLevels more _
  · exact (workspaceOf_maxLevels code) ▸ body_readsOn maxLevels more _

/-- An assignment of a value behind sixty-five exclamation marks. -/
def deniedText : String :=
  "void setup() \x7b\n  x = " ++ String.ofList (List.replicate 65 '!') ++ "y;\n\x7d\n"

/-- An assignment, as many negations as there are levels left, and the rest in a raw block. -/
theorem workspace_bounded_denied :
    ∃ b, (workspace deniedText).setup = [b] ∧
      (b.trunk 100).map Block.type =
        "variables_set" :: List.replicate 63 "logic_negate" ++ ["arduino_raw_expression"] ∧
      (b.trunk 100).getLast?.bind (Block.field? · "CODE") = some "!!y" ∧
      (b.trunk 100).length ≤ maxLevels + 1 ∧
      ChainReadsOn 2 [b] (workspaceOf (maxLevels + 2) deniedText).setup := by
  obtain ⟨hdepth, hmore⟩ := workspace_bounded deniedText
  have htrunk : (workspace deniedText).setup.map (fun b => ((b.trunk 100).map Block.type,
        (b.trunk 100).getLast?.bind (Block.field? · "CODE"))) =
      [("variables_set" :: List.replicate 63 "logic_negate" ++ ["arduino_raw_expression"],
        some "!!y")] := by
    decide +kernel
  obtain ⟨b, hsetup, hb⟩ := List.map_eq_singleton_iff.mp htrunk
  obtain ⟨htypes, hcode⟩ := Prod.mk.inj hb
  refine ⟨b, hsetup, htypes, hcode, ?_, hsetup ▸ (hmore 2).1⟩
  refine hdepth _ (b.isChain_trunk 100) fun c hc => ?_
  obtain rfl : b = c := Option.some.inj hc
  rw [Workspace.walk, hsetup, Block.walkAll]
  obtain ⟨type, fields, inputs⟩ := b
  exact List.mem_append_left _ (List.mem_append_left _ List.mem_cons_self)

end Skim

end InoBlocks
