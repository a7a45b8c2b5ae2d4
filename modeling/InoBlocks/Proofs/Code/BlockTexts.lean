import InoBlocks.Code.Generate
import InoBlocks.Proofs.Code.StatementTexts

/-!
# The texts of blocks

A block without raw text in it makes the text of a value, and lines that close their braces,
however deep it is nested.
-/

namespace InoBlocks

namespace Code

open Check Text

/-- Whether a type of block has a template, or is that of the block around one of the two
functions. -/
def IsKnownType (type : String) : Prop :=
  (Statement.template? type).isSome ∨ (Value.template? type).isSome ∨
    type = Section.setup.type ∨ type = Section.loop.type

def rawTypes : List String :=
  ["arduino_raw_statement", "arduino_raw_expression", "arduino_raw_block"]

def IsTemplated (b : Block) : Prop :=
  IsKnownType b.type ∧ b.type ∉ rawTypes

instance (b : Block) : Decidable (IsTemplated b) :=
  inferInstanceAs (Decidable ((_ ∨ _ ∨ _ ∨ _) ∧ _))

theorem valueText_comment {s : String} (hstar : '*' ∉ s.toList) (hfeed : '\n' ∉ s.toList) :
    ValueText ("/*" ++ s ++ "*/") := by
  refine ⟨_, .comment hstar hfeed, ?_⟩
  have hblank : ∀ n, trim (List.replicate n ' ') = [] := by
    intro n
    have hall : isAllBlank (List.replicate n ' ') = true := by
      refine List.all_eq_true.mpr fun c hc => ?_
      obtain rfl := (List.mem_replicate.mp hc).2
      decide
    have htrim := trim_append_of_isAllBlank hall []
    rwa [List.append_nil] at htrim
  rw [hblank]
  exact fun _ => Nat.zero_le _

/-! ## Shapes -/

/-- A shape without raw text, with good parts in its inputs, is a good part. -/
theorem GoodShape.toPart {s : Shape} (h : GoodShape s) (hknown : IsKnownType s.type)
    (hraw : s.type ∉ rawTypes) : GoodPart s.toPart := by
  have hcomment : Statement.template? s.type = none → Value.template? s.type = none →
      '*' ∉ s.unsupported.toList ∧ '\n' ∉ s.unsupported.toList := by
    intro hstatement hvalue
    have hroot : ∀ type ∈ [Section.setup.type, Section.loop.type],
        '*' ∉ ("unsupported block: " ++ type).toList ∧
          '\n' ∉ ("unsupported block: " ++ type).toList := by
      decide
    refine hroot s.type ?_
    rcases hknown with hsome | hsome | heq
    · simp [hstatement] at hsome
    · simp [hvalue] at hsome
    · simpa using heq
  simp only [rawTypes, List.mem_cons, List.not_mem_nil, or_false, not_or] at hraw
  constructor
  · change Makes s.operand _
    unfold Shape.operand
    split
    · exact .malformed _ _ _
    · split
      · rename_i template htemplate
        exact makes_valueTemplate h htemplate hraw.2.1
      · rename_i hvalue
        split
        · exact .malformed _ _ _
        · rename_i hstatement
          obtain ⟨hstar, hfeed⟩ := hcomment (by simpa using hstatement) hvalue
          refine (Makes.modify fun c hc => hc.warn _).bind fun _ _ => makes_atom ?_
          have htext := valueText_comment (s := " " ++ s.unsupported ++ " ") (by simpa using hstar)
            (by simpa using hfeed)
          refine cast (congrArg ValueText ?_) htext
          rw [← String.toList_inj]
          simp
  · intro p hp
    change Makes (s.statement p) _
    unfold Shape.statement
    split
    · exact .malformed _ _ _
    · split
      · rename_i template htemplate
        exact makes_statementTemplate h hp htemplate hraw.1 hraw.2.2
      · rename_i template hstatement htemplate
        exact (makes_valueTemplate h htemplate hraw.2.1).map fun operand hoperand =>
          line_clause hp hoperand
      · rename_i hstatement hvalue
        obtain ⟨-, hfeed⟩ := hcomment hstatement hvalue
        refine (Makes.modify fun c hc => hc.warn _).map fun _ _ => line_placed hp ?_
        exact .comment (by simp) (by simpa using hfeed) 0

/-! ## Blocks -/

mutual

theorem goodPart_part (b : Block) (h : ∀ c ∈ b.walk, IsTemplated c) : GoodPart (part b) := by
  obtain ⟨type, fields, inputs⟩ := b
  rw [Block.walk, List.forall_mem_cons] at h
  obtain ⟨⟨hknown, hraw⟩, hinputs⟩ := h
  rw [part]
  refine GoodShape.toPart (fun name q hq => ?_) hknown hraw
  rw [Shape.chain] at hq
  cases hlookup : (slots inputs).lookup name with
  | none => simp [hlookup] at hq
  | some chain =>
      rw [hlookup] at hq
      obtain ⟨front, back, hslots, -⟩ := List.lookup_eq_some_iff.mp hlookup
      exact goodPart_slots inputs hinputs (name, chain) (by rw [hslots]; simp) q hq

theorem goodPart_slots (is : List Input) (h : ∀ c ∈ Input.walkAll is, IsTemplated c) :
    ∀ slot ∈ slots is, ∀ q ∈ slot.2, GoodPart q := by
  match is with
  | [] => exact fun slot hslot => nomatch hslot
  | i :: is =>
      rw [Input.walkAll, List.forall_mem_append] at h
      exact List.forall_mem_cons.mpr ⟨goodPart_slot i h.1, goodPart_slots is h.2⟩

theorem goodPart_slot (i : Input) (h : ∀ c ∈ i.walk, IsTemplated c) :
    ∀ q ∈ (slot i).2, GoodPart q := by
  match i with
  | .value name b => exact List.forall_mem_singleton.mpr (goodPart_part b h)
  | .chain name bs => exact goodPart_parts bs h
  | .vacant name => exact fun q hq => nomatch hq

theorem goodPart_parts (bs : List Block) (h : ∀ c ∈ Block.walkAll bs, IsTemplated c) :
    ∀ q ∈ parts bs, GoodPart q := by
  match bs with
  | [] => exact fun q hq => nomatch hq
  | b :: bs =>
      rw [Block.walkAll, List.forall_mem_append] at h
      exact List.forall_mem_cons.mpr ⟨goodPart_part b h.1, goodPart_parts bs h.2⟩

end

end Code

end InoBlocks
