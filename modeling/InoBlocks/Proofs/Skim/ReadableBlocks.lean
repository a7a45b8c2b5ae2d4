import InoBlocks.Proofs.Exchange.NamedSketch
import InoBlocks.Skim.Reader

/-!
# Skimmed blocks are filled and named

Whatever a text is, skimming it gives blocks whose inputs are filled and whose parts have names:
by induction on the levels that are followed, with all that is read one level further down as the
hypothesis.
-/

namespace InoBlocks

namespace Skim

open Block
open Blocks (IsValue IsStep)
open Input (AreNamed)

/-! ## Building blocks -/

/-- A block with names that may stand as a value. -/
structure IsOperand (b : Block) : Prop where
  value : IsValue b
  named : b.IsNamed

/-- A block with names that may stand as a statement. -/
structure IsLine (b : Block) : Prop where
  step : IsStep b
  named : b.IsNamed

/-- Inputs that have some names, each filled as its name asks for. -/
structure AreFilled (is : List Input) (names : List String) : Prop where
  fits : ∀ i ∈ is, i.Fits
  named : AreNamed is names

namespace AreFilled

variable {is : List Input} {names : List String}

theorem nil : AreFilled [] [] :=
  ⟨by simp, .nil⟩

theorem value {name : String} {b : Block} (hname : Input.isBodyName name = false) (h : IsOperand b)
    (his : AreFilled is names) : AreFilled (.value name b :: is) (name :: names) :=
  ⟨List.forall_mem_cons.mpr ⟨Input.fits_value hname h.value.1 h.value.2, his.fits⟩,
    his.named.value h.named⟩

theorem chain {name : String} {bs : List Block} (hname : Input.isBodyName name = true)
    (h : ∀ b ∈ bs, IsLine b) (his : AreFilled is names) :
    AreFilled (.chain name bs :: is) (name :: names) :=
  ⟨List.forall_mem_cons.mpr ⟨Input.fits_chain hname fun b hb => (h b hb).step, his.fits⟩,
    his.named.chain fun b hb => (h b hb).named⟩

end AreFilled

section Build

variable {type : String} {fields : List (String × String)} {is : List Input} {inputs : List String}

theorem isOperand_ofTexts (names : List String) (htype : (Code.Value.template? type).isSome = true)
    (h : DistinctNames type names inputs) (hfields : fields.map Prod.fst = names)
    (his : AreFilled is inputs) : IsOperand (.ofTexts type fields is) :=
  ⟨⟨htype, isFilled_ofTexts type fields his.fits⟩, isNamed_ofTexts names h hfields his.named⟩

theorem isLine_ofTexts (names : List String)
    (htype : ((Code.Statement.template? type).isSome || (Code.Value.template? type).isSome) = true)
    (h : DistinctNames type names inputs) (hfields : fields.map Prod.fst = names)
    (his : AreFilled is inputs) : IsLine (.ofTexts type fields is) :=
  ⟨⟨htype, isFilled_ofTexts type fields his.fits⟩, isNamed_ofTexts names h hfields his.named⟩

theorem isOperand_mk (htype : (Code.Value.template? type).isSome = true)
    (h : DistinctNames type [] inputs) (his : AreFilled is inputs) : IsOperand (.mk type [] is) :=
  show IsOperand (.ofTexts type [] is) from isOperand_ofTexts [] htype h rfl his

theorem isLine_mk
    (htype : ((Code.Statement.template? type).isSome || (Code.Value.template? type).isSome) = true)
    (h : DistinctNames type [] inputs) (his : AreFilled is inputs) : IsLine (.mk type [] is) :=
  show IsLine (.ofTexts type [] is) from isLine_ofTexts [] htype h rfl his

end Build

theorem isOperand_number (text : String) : IsOperand (.number text) :=
  isOperand_ofTexts ["NUM"] rfl (by decide) rfl .nil

theorem isOperand_raw (cs : List Char) : IsOperand (rawExpression cs) :=
  isOperand_ofTexts ["CODE"] rfl (by decide) rfl .nil

theorem isLine_raw (cs : List Char) : IsLine (rawStatement cs) :=
  isLine_ofTexts ["CODE"] rfl (by decide) rfl .nil

/-! ## Values -/

theorem forall_mem_orElse {α : Type} {p : α → Prop} {a b : Option α} (ha : ∀ x ∈ a, p x)
    (hb : ∀ x ∈ b, p x) : ∀ x ∈ (a <|> b), p x := by
  cases a with
  | none => exact hb
  | some x => exact ha

section Values

variable {read : List Char → Block} (hread : ∀ cs, IsOperand (read cs))

include hread

theorem isOperand_operation {table : String × List (String × String)}
    (htable : table ∈ operatorTables) (s : Split) :
    IsOperand (operation table.1 table.2 s read) := by
  have htype : ∀ table ∈ operatorTables, (Code.Value.template? table.1).isSome = true := by decide
  exact isOperand_ofTexts ["OP"] (htype table htable) (Blocks.operatorTables_distinct htable) rfl
    (.value (by decide) (hread _) (.value (by decide) (hread _) .nil))

theorem isOperand_operation? (cs : List Char) : ∀ b ∈ operation? read cs, IsOperand b := by
  intro b hb
  obtain ⟨table, htable, hsplit⟩ := List.exists_of_findSome?_eq_some hb
  obtain ⟨s, -, rfl⟩ := Option.map_eq_some_iff.mp hsplit
  exact isOperand_operation hread htable s

theorem isOperand_pinReading? (cs : List Char) : ∀ b ∈ pinReading? read cs, IsOperand b := by
  refine forall_mem_orElse ?_ ?_ <;> intro b hb
  · obtain ⟨pin, -, rfl⟩ := Option.map_eq_some_iff.mp hb
    exact isOperand_mk rfl (by decide) (.value (by decide) (hread pin) .nil)
  · obtain ⟨pin, -, rfl⟩ := Option.map_eq_some_iff.mp hb
    exact isOperand_mk rfl (by decide) (.value (by decide) (hread pin) .nil)

omit hread in
theorem isOperand_plainValue? (cs : List Char) : ∀ b ∈ plainValue? cs, IsOperand b := by
  intro b hb
  unfold plainValue? at hb
  split at hb
  · cases hb
    exact isOperand_number _
  · split at hb
    · cases hb
      exact isOperand_ofTexts ["TEXT"] rfl (by decide) rfl .nil
    · split at hb
      · cases hb
        exact isOperand_ofTexts ["BOOL"] rfl (by decide) rfl .nil
      · split at hb
        · cases hb
          exact isOperand_ofTexts ["BOOL"] rfl (by decide) rfl .nil
        · split at hb <;> cases hb
          exact isOperand_raw cs

theorem isOperand_matchValue (cs : List Char) : IsOperand (matchValue read cs) := by
  unfold matchValue
  split
  · rename_i b hb
    exact forall_mem_orElse (isOperand_plainValue? cs) (forall_mem_orElse
      (isOperand_pinReading? hread cs) (isOperand_operation? hread cs)) b hb
  · split
    · exact isOperand_mk rfl (by decide) (.value (by decide) (hread _) .nil)
    · split
      · exact isOperand_ofTexts ["VAR"] rfl (by decide) rfl .nil
      · split
        · exact hread _
        · exact isOperand_raw cs

end Values

/-! ## Statements -/

/-- All that a reader reads is filled and named. -/
structure Reader.IsSound (r : Reader) : Prop where
  block : ∀ cs, ∀ b ∈ r.block cs, IsLine b
  condition : ∀ cs, IsOperand (r.condition cs)
  value : ∀ cs, IsOperand (r.value cs)

section Statements

variable {r : Reader} (hr : r.IsSound)

include hr

theorem isOperand_matchCondition (cs : List Char) : IsOperand (matchCondition r cs) := by
  unfold matchCondition
  split
  · rename_i s _
    have htable : ("logic_operation", connectiveNames) ∈ operatorTables := by decide
    exact isOperand_operation hr.condition htable s
  · split
    · rename_i s _
      have htable : ("logic_compare", comparisonNames) ∈ operatorTables := by decide
      exact isOperand_operation hr.value htable s
    · exact hr.value cs

theorem isLine_variableStatement? (cs : List Char) : ∀ b ∈ variableStatement? r cs, IsLine b := by
  intro b hb
  unfold variableStatement? at hb
  split at hb <;> cases hb
  · exact isLine_ofTexts ["TYPE", "VAR"] rfl (by decide) rfl (.value (by decide) (hr.value _) .nil)
  · exact isLine_ofTexts ["TYPE", "VAR"] rfl (by decide) rfl .nil
  · exact isLine_ofTexts ["VAR"] rfl (by decide) rfl (.value (by decide) (hr.value _) .nil)

theorem isLine_callStatement? (cs : List Char) : ∀ b ∈ callStatement? r cs, IsLine b := by
  refine forall_mem_orElse ?_ (forall_mem_orElse ?_ (forall_mem_orElse ?_ ?_)) <;> intro b hb
  · obtain ⟨⟨pin, word⟩, -, hb⟩ := Option.bind_eq_some_iff.mp hb
    obtain ⟨level, -, hb⟩ := Option.bind_eq_some_iff.mp hb
    cases hb
    exact isLine_ofTexts ["STATE"] rfl (by decide) rfl (.value (by decide) (hr.value _) .nil)
  · obtain ⟨⟨pin, word⟩, -, hb⟩ := Option.bind_eq_some_iff.mp hb
    dsimp only at hb
    split at hb <;> cases hb
    exact isLine_ofTexts ["MODE"] rfl (by decide) rfl (.value (by decide) (hr.value _) .nil)
  · obtain ⟨⟨pin, value⟩, -, hb⟩ := Option.bind_eq_some_iff.mp hb
    cases hb
    exact isLine_mk rfl (by decide)
      (.value (by decide) (hr.value _) (.value (by decide) (hr.value _) .nil))
  · obtain ⟨name, hname, hb⟩ := List.exists_of_findSome?_eq_some hb
    obtain ⟨digits, -, rfl⟩ := Option.map_eq_some_iff.mp hb
    simp only [List.mem_cons, List.not_mem_nil, or_false] at hname
    rcases hname with rfl | rfl
    · exact isLine_ofTexts ["TIME"] rfl (by decide) rfl .nil
    · exact isLine_ofTexts ["TIME"] rfl (by decide) rfl .nil

theorem isLine_statement? (cs : List Char) : ∀ b ∈ statement? r cs, IsLine b := by
  intro b hb
  unfold statement? at hb
  split at hb
  · cases hb
  · cases hb
    have hfound := forall_mem_orElse (isLine_variableStatement? hr (bareStatement cs))
      (isLine_callStatement? hr (bareStatement cs))
    cases h : variableStatement? r (bareStatement cs) <|> callStatement? r (bareStatement cs) with
    | none => exact isLine_raw _
    | some b => exact hfound b h

theorem areFilled_arms? (fuel number : Nat) (cs : List Char) :
    ∀ is ∈ arms? r fuel number cs, ∃ names, Branch.Names number names ∧ AreFilled is names := by
  induction fuel generalizing number cs with
  | zero => exact fun is his => nomatch his
  | succ fuel ih =>
      intro is his
      have harm : ∀ condition body {is names}, AreFilled is names →
          AreFilled (.value (Branch.condition number) (r.condition condition) ::
            .chain (Branch.statements number) (r.block body) :: is)
            (Branch.condition number :: Branch.statements number :: names) :=
        fun condition body _ _ his => .value (Input.isBodyName_condition _) (hr.condition condition)
          (.chain (Input.isBodyName_arm _) (hr.block body) his)
      rw [arms?] at his
      obtain ⟨⟨condition, rest⟩, -, his⟩ := Option.bind_eq_some_iff.mp his
      dsimp only at his
      split at his
      · cases his
        exact ⟨_, .arm number (.none _), harm _ _ .nil⟩
      · split at his
        · obtain ⟨others, hothers, his⟩ := Option.bind_eq_some_iff.mp his
          cases his
          obtain ⟨names, hnames, hfilled⟩ := ih _ _ others hothers
          exact ⟨_, .arm number hnames, harm _ _ hfilled⟩
        · cases his
          exact ⟨_, .arm number (.otherwise _), harm _ _ (.chain (by decide) (hr.block _) .nil)⟩

theorem isLine_choice (cs : List Char) : IsLine (choice r cs) := by
  unfold choice
  split
  · rename_i is his
    obtain ⟨names, hnames, hfilled⟩ := areFilled_arms? hr _ 0 cs is his
    exact isLine_mk rfl hnames.distinct hfilled
  · exact isLine_raw cs

omit hr in
theorem isLine_countedLoop (header : List Char) {body : List Block} (h : ∀ b ∈ body, IsLine b) :
    IsLine (countedLoop header body) := by
  have hraw : IsLine (.ofTexts "arduino_raw_block"
      [("CODE", "for (" ++ String.ofList header ++ ")")] [.chain "STATEMENTS" body]) :=
    isLine_ofTexts ["CODE"] rfl (by decide) rfl (.chain (by decide) h .nil)
  unfold countedLoop
  split
  · exact isLine_mk rfl (by decide)
      (.value (by decide) (isOperand_number _) (.chain (by decide) h .nil))
  · dsimp only
    split
    · split
      · exact hraw
      · exact isLine_ofTexts ["VAR"] rfl (by decide) rfl
          (.value (by decide) (isOperand_number _) (.value (by decide) (isOperand_number _)
            (.value (by decide) (isOperand_number _) (.chain (by decide) h .nil))))
    · exact hraw

theorem isLine_chunk? (cs : List Char) : ∀ b ∈ chunk? r cs, IsLine b := by
  intro b hb
  unfold chunk? at hb
  split at hb
  · cases hb
    exact isLine_choice hr cs
  · split at hb
    · split at hb <;> cases hb
      · exact isLine_countedLoop _ (hr.block _)
      · exact isLine_raw cs
    · split at hb
      · split at hb <;> cases hb
        · exact isLine_ofTexts ["MODE"] rfl (by decide) rfl
            (.value (by decide) (hr.condition _) (.chain (by decide) (hr.block _) .nil))
        · exact isLine_raw cs
      · exact isLine_statement? hr cs b hb

theorem isSound_around : r.around.IsSound where
  block := fun cs b hb => by
    obtain ⟨chunk, -, hchunk⟩ := List.mem_filterMap.mp hb
    exact isLine_chunk? hr chunk b hchunk
  condition := fun cs => isOperand_matchCondition hr _
  value := fun cs => isOperand_matchValue hr.value _

end Statements

/-! ## Sketches -/

theorem isSound_rawReader : rawReader.IsSound where
  block := fun cs b hb => by
    unfold rawReader at hb
    dsimp only at hb
    split at hb
    · cases hb
    · obtain rfl := List.mem_singleton.mp hb
      exact isLine_raw _
  condition := fun _ => isOperand_raw _
  value := fun _ => isOperand_raw _

theorem isSound_reader (levels : Nat) : (reader levels).IsSound := by
  induction levels with
  | zero => exact isSound_rawReader
  | succ levels ih => exact isSound_around ih

theorem isLine_functionBlocks (name : String) (cs : List Char) :
    ∀ b ∈ functionBlocks name cs, IsLine b := by
  unfold functionBlocks
  split
  · exact (isSound_reader maxLevels).block _
  · simp

theorem isFilledWorkspace_workspace (code : String) : Code.IsFilledWorkspace (workspace code) where
  setup := fun b hb => (isLine_functionBlocks "setup" _ b hb).step
  loop := fun b hb => (isLine_functionBlocks "loop" _ b hb).step
  globals := by simp [workspace]

theorem isNamed_workspace (code : String) : (workspace code).IsNamed where
  setup := fun b hb => (isLine_functionBlocks "setup" _ b hb).named
  loop := fun b hb => (isLine_functionBlocks "loop" _ b hb).named
  globals := by simp [workspace]

end Skim

end InoBlocks
