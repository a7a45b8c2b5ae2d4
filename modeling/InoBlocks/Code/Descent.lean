import InoBlocks.Code.Generate
import InoBlocks.Stack

/-!
# The way along blocks

A template reads some inputs of its block and leaves the others alone.  `Block.uses` says which
inputs these are and in what order they are read, and `Block.follow` which blocks are come to in one
of them.  From the template of a block to that of a block in one of its inputs there are some calls,
by the way in which the input is read: `Block.descent` and `Code.descent` say how many are under way
at a time.
-/

namespace InoBlocks

/-! ## Inputs that are read -/

namespace Branch

def condition (n : Nat) : String :=
  "IF" ++ Number.decimal n

def statements (n : Nat) : String :=
  "DO" ++ Number.decimal n

end Branch

/-- An input that a template reads, as a value or for its statements. -/
inductive Use where
  | value (name : String)
  | body (name : String)

def Use.name : Use → String
  | value n | body n => n

namespace Block

/-- Whether a block has a branch of some number: a condition or statements. -/
def HasBranch (b : Block) (n : Nat) : Prop :=
  b.chain (Branch.condition n) ≠ [] ∨ b.chain (Branch.statements n) ≠ []

instance (b : Block) (n : Nat) : Decidable (b.HasBranch n) :=
  inferInstanceAs (Decidable (_ ∨ _))

/-- The numbers of the branches that are read: from zero on, up to the first that is not there. -/
def branches (b : Block) : List Nat :=
  (List.range (b.inputs.length + 1)).takeWhile fun n => n = 0 ∨ b.HasBranch n

def branchUses (n : Nat) : List Use :=
  [.value (Branch.condition n), .body (Branch.statements n)]

/-- The inputs that the template of a block reads, in the order in which they are read. -/
def uses (b : Block) : List Use :=
  match b.type with
  | "arduino_pinmode" | "arduino_digitalwrite" | "arduino_digitalread" | "arduino_analogread" =>
      [.value "PIN"]
  | "arduino_analogwrite" => [.value "PIN", .value "VALUE"]
  | "arduino_delay" | "arduino_delayMicroseconds" => [.value "TIME"]
  | "arduino_serial_begin" => [.value "BAUD"]
  | "arduino_serial_print" => [.value "TEXT"]
  | "arduino_random_seed" => [.value "SEED"]
  | "variables_set" | "variables_define" | "arduino_abs" | "arduino_sqrt" => [.value "VALUE"]
  | "controls_if" => b.branches.flatMap branchUses ++ [.body "ELSE"]
  | "controls_repeat_ext" => [.value "TIMES", .body "DO"]
  | "controls_whileUntil" => [.value "BOOL", .body "DO"]
  | "controls_for" => [.value "FROM", .value "TO", .value "BY", .body "DO"]
  | "arduino_raw_block" => [.body "STATEMENTS"]
  | "arduino_map" =>
      [.value "VALUE", .value "FROM_LOW", .value "FROM_HIGH", .value "TO_LOW", .value "TO_HIGH"]
  | "arduino_constrain" => [.value "VALUE", .value "MIN", .value "MAX"]
  | "arduino_min" | "arduino_max" | "logic_compare" | "logic_operation" | "math_arithmetic" =>
      [.value "A", .value "B"]
  | "arduino_pow" => [.value "BASE", .value "EXPONENT"]
  | "arduino_random" => [.value "MIN", .value "MAX"]
  | "logic_negate" => [.value "BOOL"]
  | "math_single" | "math_trig" => [.value "NUM"]
  | _ => []

def isDeclaring (b : Block) : Bool :=
  b.type == "variables_declare" || b.type == "variables_define"

/-- Whether a block becomes a function beside the two of a sketch, if it is a top block. -/
def isRawTop (b : Block) : Bool :=
  b.type == "arduino_raw_statement" || b.type == "arduino_raw_block"

def isStatement (b : Block) : Bool :=
  (Code.Statement.template? b.type).isSome

/-- Whether several blocks or a statement stand where a value is read. -/
def isMisfit (b : Block) : Use → Bool
  | .value name =>
      match b.chain name with
      | [] => false
      | [c] => c.isStatement
      | _ => true
  | .body _ => false

/-- The blocks that are come to in an input; none if it holds no value where one is read. -/
def follow (b : Block) (u : Use) : List Block :=
  if b.isMisfit u then [] else b.chain u.name

theorem exists_input_of_mem_chain {b c : Block} {name : String} (h : c ∈ b.chain name) :
    ∃ i ∈ b.inputs, c ∈ i.blocks := by
  unfold chain input? at h
  cases hfind : b.inputs.find? fun i => i.name == name with
  | none => simp [hfind] at h
  | some i => exact ⟨i, List.mem_of_find?_eq_some hfind, by simpa [hfind] using h⟩

theorem mem_chain_of_mem_follow {b c : Block} {u : Use} (h : c ∈ b.follow u) :
    c ∈ b.chain u.name := by
  unfold follow at h
  split at h
  · cases h
  · exact h

theorem sizeOf_lt_of_mem_blocks {i : Input} {c : Block} (h : c ∈ i.blocks) :
    sizeOf c < sizeOf i := by
  cases i with
  | value name b =>
      obtain rfl := List.mem_singleton.mp h
      simp only [Input.value.sizeOf_spec]
      omega
  | chain name bs =>
      have hlt : sizeOf c < sizeOf bs := List.sizeOf_lt_of_mem h
      simp only [Input.chain.sizeOf_spec]
      omega
  | vacant name => cases h

theorem sizeOf_lt_of_mem_chain {b c : Block} {name : String} (h : c ∈ b.chain name) :
    sizeOf c < sizeOf b := by
  obtain ⟨i, hi, hc⟩ := exists_input_of_mem_chain h
  obtain ⟨type, fields, inputs⟩ := b
  have hinput : sizeOf i < sizeOf inputs := List.sizeOf_lt_of_mem hi
  have hblock := sizeOf_lt_of_mem_blocks hc
  simp only [Block.mk.sizeOf_spec]
  omega

/-! ## Calls -/

/-- How an input is read: the calls up to the template of a block in it, and the types of blocks that
are read by their field, without coming to their template. -/
structure Way where
  calls : Nat
  plain : List String := []

/-- The way in which the template of a block reads an input. -/
def way (b : Block) : Use → Way
  | .body _ => ⟨3, []⟩
  | .value name =>
      match b.type with
      | "arduino_pinmode" | "arduino_digitalwrite" | "arduino_digitalread" | "arduino_analogread" =>
          ⟨4, ["math_number", "text"]⟩
      | "arduino_analogwrite" =>
          if name == "PIN" then ⟨4, ["math_number", "text"]⟩ else ⟨3, ["math_number"]⟩
      | "arduino_delay" | "arduino_delayMicroseconds" | "arduino_serial_begin"
      | "controls_repeat_ext" | "controls_for" => ⟨3, ["math_number"]⟩
      | "logic_compare" | "logic_operation" => ⟨4, []⟩
      | "math_arithmetic" => ⟨if b.field? "OP" == some "POWER" then 3 else 4, []⟩
      | "arduino_map" | "arduino_constrain" | "arduino_min" | "arduino_max" | "arduino_abs"
      | "arduino_pow" | "arduino_sqrt" | "arduino_random" => ⟨5, []⟩
      | _ => ⟨3, []⟩

/-- The calls beneath the template of a block that come to no other block: raw text is looked at
again behind each operator in front of it. -/
def ownCalls (b : Block) : Nat :=
  if b.type == "arduino_raw_expression" then
    rawCalls (Text.trimmed ((b.field? "CODE").getD "")).toList
  else
    0

/-- The calls beneath the template of a block. -/
def descent (b : Block) : Descent :=
  if b.type == "" then
    .refusal 0
  else
    Descent.andThen ⟨b.ownCalls, false⟩ <| .inOrder <| b.uses.map fun u =>
      if b.isMisfit u then
        .refusal ((b.way u).calls - 1)
      else
        .inOrder <| (b.follow u).attach.map fun c =>
          if (b.way u).plain.contains c.1.type then .flat
          else c.1.descent.beneath (b.way u).calls
termination_by sizeOf b
decreasing_by exact sizeOf_lt_of_mem_chain (mem_chain_of_mem_follow c.2)

/-- The calls for an input, beneath the template of its block. -/
def descentBy (b : Block) (u : Use) : Descent :=
  if b.isMisfit u then
    .refusal ((b.way u).calls - 1)
  else
    .inOrder <| (b.follow u).map fun c =>
      if (b.way u).plain.contains c.type then .flat else c.descent.beneath (b.way u).calls

theorem descent_eq {b : Block} (h : b.type ≠ "") :
    b.descent = Descent.andThen ⟨b.ownCalls, false⟩ (.inOrder (b.uses.map b.descentBy)) := by
  rw [descent, if_neg (by simpa using h)]
  congr 2
  refine List.map_congr_left fun u _ => ?_
  rw [descentBy]
  split
  · rfl
  · congr 1
    simp only [List.map_subtype, List.unattach_attach]

end Block

namespace Code

def topDescent (b : Block) : Descent :=
  if b.isDeclaring || b.isRawTop then b.descent.beneath 4 else .flat

def sectionDescent (roots : List Block) (s : Section) : Descent :=
  match roots.find? fun b => b.type == s.type with
  | some root => .inOrder ((root.chain s.input).map fun b => b.descent.beneath 5)
  | none => .flat

/-- The calls for a sketch from top blocks. -/
def descent (roots : List Block) : Descent :=
  .inOrder (roots.map topDescent ++ [sectionDescent roots .setup, sectionDescent roots .loop])

/-- A sketch from top blocks, where there is room for so many calls. -/
def generateWithin (room : Nat) (style : Style) (roots : List Block) :
    Except (Halt GenerateFault) Generated :=
  Room.within room (descent roots).calls fun _ => generate style roots

end Code

/-- A workspace as a sketch, where there is room for so many calls. -/
def Workspace.generateWithin (w : Workspace) (room : Nat) (style : Code.Style) :
    Except (Halt Code.GenerateFault) Code.Generated :=
  Code.generateWithin room style w.roots

end InoBlocks
