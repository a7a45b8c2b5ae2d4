import InoBlocks.Code.Descent
import InoBlocks.Exchange.Workspace
import InoBlocks.Proofs.Code.FilledBlocks
import Mathlib.Data.List.Nodup
import Mathlib.Data.List.Perm.Subperm

/-!
# The branches of a choice

A choice has an arm for each number from zero on, as far as branches are given without a gap: the
first number that has neither a condition nor statements ends the arms, and what stands behind it
is left out.  Up to there no branch is lost, and the arms come in the order of their numbers.

A branch needs an input of its own, so there are no more of them than inputs, and the walk over the
numbers comes to its end.
-/

namespace InoBlocks

namespace Code

/-- What two computations in a row return was returned by each of them. -/
theorem Gen.bind_eq_ok {α β : Type} {g : Gen α} {f : α → Gen β} {c c' : Context} {b : β}
    (h : (g >>= f) c = .ok (b, c')) : ∃ a c₁, g c = .ok (a, c₁) ∧ f a c₁ = .ok (b, c') := by
  change (g c >>= fun result => f result.1 result.2) = _ at h
  cases hg : g c with
  | error fault =>
      rw [hg] at h
      cases h
  | ok result =>
      rw [hg] at h
      exact ⟨result.1, result.2, rfl, h⟩

end Code

namespace Branch

theorem decimal_injective : Function.Injective Number.decimal := by
  intro m n h
  have hdigits : Nat.toDigits 10 m = Nat.toDigits 10 n := String.ofList_injective h
  simpa using congrArg (fun ds => Nat.ofDigitChars 10 ds 0) hdigits

theorem condition_injective : Function.Injective condition := by
  intro m n h
  simp only [condition, String.append_right_inj] at h
  exact decimal_injective h

theorem statements_injective : Function.Injective statements := by
  intro m n h
  simp only [statements, String.append_right_inj] at h
  exact decimal_injective h

theorem condition_ne_statements (m n : Nat) : condition m ≠ statements n := by
  intro h
  have hchars := congrArg String.toList h
  simp [condition, statements] at hchars

end Branch

namespace Block

def branchInput (b : Block) (n : Nat) : String :=
  if b.chain (Branch.condition n) = [] then Branch.statements n else Branch.condition n

theorem branchInput_injective (b : Block) : Function.Injective b.branchInput := by
  intro m n h
  unfold branchInput at h
  split at h <;> split at h
  · exact Branch.statements_injective h
  · exact absurd h.symm (Branch.condition_ne_statements n m)
  · exact absurd h (Branch.condition_ne_statements m n)
  · exact Branch.condition_injective h

theorem mem_inputs_of_chain {b : Block} {name : String} (h : b.chain name ≠ []) :
    name ∈ b.inputs.map Input.name := by
  unfold chain input? at h
  cases hfind : b.inputs.find? fun i => i.name == name with
  | none => simp [hfind] at h
  | some i =>
      have hname := List.find?_some hfind
      exact List.mem_map.mpr ⟨i, List.mem_of_find?_eq_some hfind, by simpa using hname⟩

theorem branchInput_mem {b : Block} {n : Nat} (h : b.HasBranch n) :
    b.branchInput n ∈ b.inputs.map Input.name := by
  unfold branchInput
  split
  · rename_i hnone
    exact mem_inputs_of_chain (h.resolve_left (not_not.mpr hnone))
  · rename_i hsome
    exact mem_inputs_of_chain hsome

theorem exists_gap (b : Block) : ∃ n, 0 < n ∧ n ≤ b.inputs.length + 1 ∧ ¬ b.HasBranch n := by
  by_contra hall
  have hsubset : (List.range' 1 (b.inputs.length + 1)).map b.branchInput ⊆
      b.inputs.map Input.name := by
    intro name hname
    obtain ⟨n, hn, rfl⟩ := List.mem_map.mp hname
    rw [List.mem_range'_1] at hn
    apply branchInput_mem
    by_contra hgap
    exact hall ⟨n, by omega, by omega, hgap⟩
  have hnodup : ((List.range' 1 (b.inputs.length + 1)).map b.branchInput).Nodup :=
    List.Nodup.map b.branchInput_injective List.nodup_range'
  have hle := (hnodup.subperm hsubset).length_le
  simp only [List.length_map, List.length_range'] at hle
  omega

end Block

namespace Code

theorem chain_slots_eq (type : String) (fields : List (String × Scalar)) (inputs : List Input)
    (name : String) :
    Shape.chain ⟨type, fields, slots inputs⟩ name =
      parts ((Block.mk type fields inputs).chain name) := by
  unfold Shape.chain Block.chain Block.input? Block.inputs
  dsimp only
  induction inputs with
  | nil => rfl
  | cons i is ih =>
      rw [slots, slot_eq, List.find?_cons]
      by_cases hname : i.name = name
      · simp [hname, parts_eq_map]
      · have hname' : (i.name == name) = false := by simpa using hname
        have hother : (name == i.name) = false := by simpa using fun h => hname h.symm
        simpa [List.lookup_cons, hname', hother] using ih

/-! ## Arms -/

/-- The code of the condition of a branch: of the block in its input, or `false` if there is
none. -/
def ConditionText (b : Block) (n : Nat) (text : String) : Prop :=
  match b.chain (Branch.condition n) with
  | [] => text = "false"
  | first :: _ => ∃ c operand c', (part first).value c = .ok (operand, c') ∧ text = operand.text

def BodyText (bs : List Block) (p : Place) (text : String) : Prop :=
  ∃ c c', Shape.statements p.deeper (parts bs) c = .ok (text, c')

/-- An arm has the condition of a branch in its header, and the statements of the branch. -/
structure ArmOf (b : Block) (p : Place) (n : Nat) (arm : Statement.Arm) : Prop where
  header : ∃ test, ConditionText b n test ∧
    arm.1 = (if n = 0 then "if" else "else if") ++ " (" ++ test ++ ")"
  body : BodyText (b.chain (Branch.statements n)) p arm.2

/-- Arms of the branches from a number on, in their order. -/
structure ArmsFrom (b : Block) (p : Place) (number : Nat) (arms : List Statement.Arm) : Prop where
  filled : ∀ i < arms.length, 0 < number + i → b.HasBranch (number + i)
  arm : ∀ i (h : i < arms.length), ArmOf b p (number + i) arms[i]

theorem ArmsFrom.nil (b : Block) (p : Place) (number : Nat) : ArmsFrom b p number [] :=
  ⟨nofun, nofun⟩

theorem ArmsFrom.cons {b : Block} {p : Place} {number : Nat} {arm : Statement.Arm}
    {arms : List Statement.Arm} (hfilled : 0 < number → b.HasBranch number)
    (harm : ArmOf b p number arm) (h : ArmsFrom b p (number + 1) arms) :
    ArmsFrom b p number (arm :: arms) := by
  constructor
  · intro i hi hpos
    cases i with
    | zero => exact hfilled hpos
    | succ i =>
        have hnext := h.filled i (by simpa using hi) (by omega)
        rwa [Nat.add_right_comm] at hnext
  · intro i hi
    cases i with
    | zero => exact harm
    | succ i =>
        have hnext := h.arm i (by simpa using hi)
        rwa [Nat.add_right_comm] at hnext

section Arms

variable {s : Shape} {b : Block} (hs : ∀ name, s.chain name = parts (b.chain name))

include hs

theorem chain_isEmpty (name : String) : (s.chain name).isEmpty = true ↔ b.chain name = [] := by
  rw [hs, parts_eq_map, List.isEmpty_iff, List.map_eq_nil_iff]

/-- Where an input is asked for its one part, that is the part of the block in it. -/
theorem target_eq_ok {name : String} {c c' : Context} {found : Option Part}
    (h : s.target name c = .ok (found, c')) : found = (b.chain name).head?.map part := by
  unfold Shape.target at h
  rw [hs, parts_eq_map] at h
  cases hchain : b.chain name with
  | nil =>
      rw [hchain] at h
      cases h
      rfl
  | cons first rest =>
      cases rest with
      | nil =>
          rw [hchain] at h
          cases h
          rfl
      | cons second rest =>
          rw [hchain] at h
          cases h

theorem value_eq_ok {n : Nat} {c c' : Context} {text : String}
    (h : s.value (Branch.condition n) "false" Binding.unknown c = .ok (text, c')) :
    ConditionText b n text := by
  obtain ⟨found, c₁, htarget, hrest⟩ := Gen.bind_eq_ok h
  have hfound := target_eq_ok hs htarget
  unfold ConditionText
  cases hchain : b.chain (Branch.condition n) with
  | nil =>
      rw [hchain] at hfound
      subst hfound
      cases hrest
      rfl
  | cons first rest =>
      rw [hchain] at hfound
      subst hfound
      obtain ⟨operand, c₂, hoperand, hguarded⟩ := Gen.bind_eq_ok hrest
      cases hguarded
      refine ⟨c₁, operand, _, hoperand, ?_⟩
      simp [Expr.guarded, Binding.unknown]

theorem isGap_iff (n : Nat) {test : Option Part}
    (htest : test = (b.chain (Branch.condition n)).head?.map part) :
    (decide (0 < n) && test.isNone && (s.chain (Branch.statements n)).isEmpty) = true ↔
      0 < n ∧ ¬ b.HasBranch n := by
  simp only [Bool.and_eq_true, decide_eq_true_eq, chain_isEmpty hs, htest, Option.isNone_map,
    Option.isNone_iff_eq_none, List.head?_eq_none_iff, Block.HasBranch, not_or, not_not, and_assoc]

/-- By induction on the numbers that are tried: the arms that are there, and why there are no
more. -/
theorem arms_eq_ok (p : Place) (fuel number : Nat) {c c' : Context} {arms : List Statement.Arm}
    (h : Statement.arms s p fuel number c = .ok (arms, c')) :
    ArmsFrom b p number arms ∧
      (arms.length = fuel ∨ 0 < number + arms.length ∧ ¬ b.HasBranch (number + arms.length)) := by
  induction fuel generalizing number c c' arms with
  | zero =>
      cases h
      exact ⟨.nil b p number, Or.inl rfl⟩
  | succ fuel ih =>
      obtain ⟨test, c₁, htarget, hrest⟩ := Gen.bind_eq_ok h
      have htest := target_eq_ok hs htarget
      dsimp only at hrest
      change (if (decide (0 < number) && test.isNone &&
        (s.chain (Branch.statements number)).isEmpty) = true then _ else _ :
          Gen (List Statement.Arm)) _ = _ at hrest
      by_cases hgap : 0 < number ∧ ¬ b.HasBranch number
      · rw [if_pos ((isGap_iff hs number htest).mpr hgap)] at hrest
        cases hrest
        exact ⟨.nil b p number, Or.inr hgap⟩
      · rw [if_neg (mt (isGap_iff hs number htest).mp hgap)] at hrest
        obtain ⟨value, c₂, hvalue, hrest⟩ := Gen.bind_eq_ok hrest
        obtain ⟨body, c₃, hbody, hrest⟩ := Gen.bind_eq_ok hrest
        obtain ⟨rest, c₄, hnext, hrest⟩ := Gen.bind_eq_ok hrest
        cases hrest
        obtain ⟨harms, hend⟩ := ih (number + 1) hnext
        have hbody' : BodyText (b.chain (Branch.statements number)) p body := by
          refine ⟨c₂, c₃, ?_⟩
          rw [← hs]
          exact hbody
        have hfilled : 0 < number → b.HasBranch number := by
          intro hpos
          by_contra hnone
          exact hgap ⟨hpos, hnone⟩
        have hlength : number + (rest.length + 1) = number + 1 + rest.length := by omega
        refine ⟨.cons hfilled ⟨⟨value, value_eq_ok hs hvalue, rfl⟩, hbody'⟩ harms, ?_⟩
        rw [List.length_cons, hlength]
        exact hend.imp_left fun h => by rw [h]

end Arms

/-! ## Choices -/

/-- The last arm, there if a block has statements for it. -/
def LastArm (b : Block) (p : Place) (arms : List Statement.Arm) : Prop :=
  if b.chain "ELSE" = [] then arms = []
  else ∃ body, BodyText (b.chain "ELSE") p body ∧ arms = [("else", body)]

theorem otherwise_eq_ok {s : Shape} {b : Block} (hs : ∀ name, s.chain name = parts (b.chain name))
    {p : Place} {c c' : Context} {arms : List Statement.Arm}
    (h : Statement.otherwise s p c = .ok (arms, c')) : LastArm b p arms := by
  unfold Statement.otherwise at h
  unfold LastArm
  by_cases hnone : b.chain "ELSE" = []
  · rw [if_pos ((chain_isEmpty hs "ELSE").mpr hnone)] at h
    cases h
    rw [if_pos hnone]
  · rw [if_neg (mt (chain_isEmpty hs "ELSE").mp hnone)] at h
    obtain ⟨body, c₁, hbody, hrest⟩ := Gen.bind_eq_ok h
    cases hrest
    rw [if_neg hnone]
    refine ⟨body, ⟨c, c', ?_⟩, rfl⟩
    rw [← hs]
    exact hbody

/-- The text of a choice: an arm for each branch up to the first number without one, in the order
of the numbers, and the last arm behind them. -/
structure IsChoice (b : Block) (p : Place) (text : String) (conditional last : List Statement.Arm) :
    Prop where
  text : text = Text.joinLines (Statement.armLines p "" (conditional ++ last))
  arms : ArmsFrom b p 0 conditional
  nonempty : 0 < conditional.length
  gap : ¬ b.HasBranch conditional.length
  last : LastArm b p last

namespace IsChoice

variable {b : Block} {p : Place} {text : String} {conditional last : List Statement.Arm}

theorem hasBranch (h : IsChoice b p text conditional last) {m : Nat} (hpos : 0 < m)
    (hm : m < conditional.length) : b.HasBranch m := by
  simpa using h.arms.filled m hm (by omega)

/-- A branch has its arm exactly if there is no gap in the numbers before it. -/
theorem lt_iff (h : IsChoice b p text conditional last) {n : Nat} (hn : b.HasBranch n) :
    n < conditional.length ↔ ∀ m, 0 < m → m < n → b.HasBranch m := by
  constructor
  · intro hlt m hpos hm
    exact h.hasBranch hpos (by omega)
  · intro hall
    by_contra hle
    by_cases heq : n = conditional.length
    · exact h.gap (heq ▸ hn)
    · exact h.gap (hall _ h.nonempty (by omega))

end IsChoice

theorem slots_length (is : List Input) : (slots is).length = is.length := by
  rw [slots_eq_map, List.length_map]

/-- The arms of a choice end at a gap, since there are numbers enough to come to one. -/
theorem isChoice_of_ok {type : String} {fields : List (String × Scalar)} {inputs : List Input}
    {p : Place} {c c' : Context} {text : String}
    (h : Statement.choice ⟨type, fields, slots inputs⟩ p c = .ok (text, c')) :
    ∃ conditional last, IsChoice (.mk type fields inputs) p text conditional last := by
  have hs := chain_slots_eq type fields inputs
  obtain ⟨conditional, c₁, harms, hrest⟩ := Gen.bind_eq_ok h
  obtain ⟨last, c₂, hlast, hrest⟩ := Gen.bind_eq_ok hrest
  cases hrest
  obtain ⟨hfrom, hend⟩ := arms_eq_ok hs p _ 0 harms
  obtain ⟨n, hpos, hn, hgap⟩ := Block.exists_gap (.mk type fields inputs)
  have hlength : (slots inputs).length = inputs.length := slots_length inputs
  have hend' : 0 < conditional.length ∧
      ¬ Block.HasBranch (.mk type fields inputs) conditional.length := by
    rcases hend with hfuel | hstop
    · dsimp only at hfuel
      have hn' : n ≤ conditional.length := by
        rw [hfuel, hlength]
        exact hn
      have hlast : ¬ n < conditional.length := fun hlt =>
        hgap (by simpa using hfrom.filled n hlt (by omega))
      have heq : n = conditional.length := by omega
      exact ⟨by omega, heq ▸ hgap⟩
    · simpa using hstop
  exact ⟨conditional, last, rfl, hfrom, hend'.1, hend'.2, otherwise_eq_ok hs hlast⟩

/-- Generating a choice leaves out a branch exactly if there is a gap in the numbers before it. -/
theorem choice_keeps (fields : List (String × Scalar)) (inputs : List Input) (p : Place)
    {c c' : Context} {text : String}
    (h : (part (.mk "controls_if" fields inputs)).statement p c = .ok (text, c')) :
    ∃ conditional last, IsChoice (.mk "controls_if" fields inputs) p text conditional last ∧
      ∀ n, Block.HasBranch (.mk "controls_if" fields inputs) n →
        (n < conditional.length ↔
          ∀ m, 0 < m → m < n → Block.HasBranch (.mk "controls_if" fields inputs) m) := by
  change Statement.choice ⟨"controls_if", fields, slots inputs⟩ p c = .ok (text, c') at h
  obtain ⟨conditional, last, hchoice⟩ := isChoice_of_ok h
  exact ⟨conditional, last, hchoice, fun n hn => hchoice.lt_iff hn⟩

/-- A choice with branches zero and two, and none of number one. -/
def gapped : Block :=
  .mk "controls_if" [] [
    .value "IF0" (.ofTexts "variables_get" [("VAR", "a")] []),
    .chain "DO0" [.ofTexts "arduino_delay" [("TIME", "1")] []],
    .value "IF2" (.ofTexts "variables_get" [("VAR", "b")] []),
    .chain "DO2" [.ofTexts "arduino_delay" [("TIME", "2")] []]]

theorem choice_keeps_gapped :
    (part gapped).statement ⟨"  ", 0, 0⟩ {} = .ok ("if (a) \x7b\n  delay(1);\n\x7d", {}) ∧
      ∃ conditional last,
        IsChoice gapped ⟨"  ", 0, 0⟩ "if (a) \x7b\n  delay(1);\n\x7d" conditional last ∧
          ¬ 2 < conditional.length := by
  have hrun : (part gapped).statement ⟨"  ", 0, 0⟩ {} =
      .ok ("if (a) \x7b\n  delay(1);\n\x7d", {}) := by rfl
  obtain ⟨conditional, last, hchoice, hkeeps⟩ := choice_keeps _ _ _ hrun
  have htwo : gapped.HasBranch 2 := by decide
  have hone : ¬ gapped.HasBranch 1 := by decide
  exact ⟨hrun, conditional, last, hchoice, fun hlt =>
    hone ((hkeeps 2 htwo).mp hlt 1 (by omega) (by omega))⟩

/-- The exchange text counts a further arm that the sketch does not have. -/
theorem generate_gapped :
    (Workspace.generate { loop := [gapped] } { header := false }).map Generated.code =
        .ok ("void setup() \x7b\n  // setup code\n\x7d\n\nvoid loop() \x7b\n" ++
          "  if (a) \x7b\n    delay(1);\n  \x7d\n\x7d\n") ∧
      Exchange.mutation gapped.type gapped.inputs = [.mk "mutation" [("elseif", "1")] "" []] := by
  exact ⟨by decide +kernel, by rfl⟩

end Code

end InoBlocks
