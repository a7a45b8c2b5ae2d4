import InoBlocks.Proofs.Code.Branches
import InoBlocks.Proofs.Exchange.RoundTrip

/-!
# Named blocks

What the exchange form asks of a block, the characters in its fields aside: it and its parts have
names, no two fields and no two inputs share one, and its fields hold text.  Where the inputs are
filled besides, only those characters can stand in the way of a block.
-/

namespace InoBlocks

open Exchange

/-! ## Names -/

/-- A type, and names of fields and of inputs, that can be told apart in the exchange form. -/
structure DistinctNames (type : String) (fields inputs : List String) : Prop where
  given : ∀ name ∈ type :: (fields ++ inputs), IsGiven name
  fields : fields.Nodup
  inputs : inputs.Nodup

instance (type : String) (fields inputs : List String) :
    Decidable (DistinctNames type fields inputs) :=
  decidable_of_iff ((∀ name ∈ type :: (fields ++ inputs), IsGiven name) ∧ fields.Nodup ∧
    inputs.Nodup) ⟨fun h => ⟨h.1, h.2.1, h.2.2⟩, fun h => ⟨h.given, h.fields, h.inputs⟩⟩

namespace Branch

theorem isGiven_prefixed {front : String} (h : IsGiven front) (n : Nat) :
    IsGiven (front ++ Number.decimal n) := by
  refine ⟨fun hempty => h.1 (String.append_eq_empty_iff.mp hempty).1, ?_⟩
  rw [String.toList_append]
  intro c hc
  rcases List.mem_append.mp hc with hc | hc
  · exact h.2 c hc
  · exact carried_decimal n c hc

/-- The names of the inputs of a choice, from the arm of some number on. -/
inductive Names : Nat → List String → Prop where
  | none (n : Nat) : Names n []
  | otherwise (n : Nat) : Names n ["ELSE"]
  | arm (n : Nat) {names : List String} : Names (n + 1) names →
      Names n (condition n :: statements n :: names)

theorem Names.given {n : Nat} {names : List String} (h : Names n names) :
    ∀ name ∈ names, IsGiven name := by
  induction h with
  | none => simp
  | otherwise => decide
  | arm n _ ih =>
      refine List.forall_mem_cons.mpr ⟨?_, List.forall_mem_cons.mpr ⟨?_, ih⟩⟩
      · exact isGiven_prefixed (by decide) n
      · exact isGiven_prefixed (by decide) n

/-- The names of an arm do not come again behind it. -/
theorem Names.not_mem {n : Nat} {names : List String} (h : Names n names) {m : Nat} (hm : m < n) :
    condition m ∉ names ∧ statements m ∉ names := by
  induction h with
  | none => simp
  | otherwise => simp [condition, statements, ← String.toList_inj]
  | arm n _ ih =>
      obtain ⟨hcondition, hstatements⟩ := ih (Nat.lt_succ_of_lt hm)
      have hne : m ≠ n := Nat.ne_of_lt hm
      simp only [List.mem_cons, not_or]
      exact ⟨⟨fun h => hne (condition_injective h), condition_ne_statements m n, hcondition⟩,
        ⟨fun h => condition_ne_statements n m h.symm, fun h => hne (statements_injective h),
          hstatements⟩⟩

theorem Names.nodup {n : Nat} {names : List String} (h : Names n names) : names.Nodup := by
  induction h with
  | none => exact List.nodup_nil
  | otherwise => exact List.nodup_singleton _
  | arm n hrest ih =>
      obtain ⟨hcondition, hstatements⟩ := hrest.not_mem (Nat.lt_succ_self n)
      rw [List.nodup_cons, List.nodup_cons, List.mem_cons, not_or]
      exact ⟨⟨condition_ne_statements n n, hcondition⟩, hstatements, ih⟩

theorem Names.distinct {n : Nat} {names : List String} (h : Names n names) :
    DistinctNames "controls_if" [] names where
  given := List.forall_mem_cons.mpr ⟨by decide, h.given⟩
  fields := List.nodup_nil
  inputs := h.nodup

end Branch

/-! ## Blocks -/

namespace Block

/-- A block whose own parts can be told apart and whose fields hold text. -/
structure HasNames (b : Block) : Prop where
  distinct : DistinctNames b.type (b.fields.map Prod.fst) (b.inputs.map Input.name)
  texts : ∀ f ∈ b.fields, ∃ s, f.2 = .text s

def IsNamed (b : Block) : Prop :=
  ∀ c ∈ b.walk, c.HasNames

end Block

namespace Input

/-- Inputs that have some names and hold blocks with names. -/
structure AreNamed (is : List Input) (names : List String) : Prop where
  names : is.map Input.name = names
  blocks : ∀ i ∈ is, ∀ b ∈ i.blocks, b.IsNamed

namespace AreNamed

variable {is js : List Input} {names others : List String}

theorem nil : AreNamed [] [] :=
  ⟨rfl, by simp⟩

theorem cons {i : Input} (h : ∀ b ∈ i.blocks, b.IsNamed) (his : AreNamed is names) :
    AreNamed (i :: is) (i.name :: names) :=
  ⟨by rw [List.map_cons, his.names], List.forall_mem_cons.mpr ⟨h, his.blocks⟩⟩

theorem value {name : String} {b : Block} (h : b.IsNamed) (his : AreNamed is names) :
    AreNamed (.value name b :: is) (name :: names) :=
  his.cons (List.forall_mem_singleton.mpr h)

theorem chain {name : String} {bs : List Block} (h : ∀ b ∈ bs, b.IsNamed)
    (his : AreNamed is names) : AreNamed (.chain name bs :: is) (name :: names) :=
  his.cons h

end AreNamed

end Input

namespace Block

theorem isNamed_ofTexts {type : String} {fields : List (String × String)} {is : List Input}
    {inputs : List String} (names : List String) (h : DistinctNames type names inputs)
    (hfields : fields.map Prod.fst = names) (his : Input.AreNamed is inputs) :
    (ofTexts type fields is).IsNamed := by
  have hnames : (fields.map fun f => (f.1, Scalar.text f.2)).map Prod.fst = names := by
    rw [List.map_map, ← hfields]
    rfl
  rw [IsNamed, ofTexts, walk, List.forall_mem_cons]
  refine ⟨⟨?_, ?_⟩, Input.forall_mem_walkAll his.blocks⟩
  · exact hnames.symm ▸ his.names.symm ▸ h
  · intro f hf
    obtain ⟨g, -, rfl⟩ := List.mem_map.mp hf
    exact ⟨g.2, rfl⟩

theorem isNamed_leaf {type : String} {fields : List (String × String)} (names : List String)
    (h : DistinctNames type names []) (hfields : fields.map Prod.fst = names) :
    (ofTexts type fields []).IsNamed :=
  isNamed_ofTexts names h hfields .nil

end Block

/-- A workspace whose blocks have names. -/
structure Workspace.IsNamed (w : Workspace) : Prop where
  setup : ∀ b ∈ w.setup, b.IsNamed
  loop : ∀ b ∈ w.loop, b.IsNamed
  globals : ∀ b ∈ w.globals, b.IsNamed

/-! ## What the exchange form keeps -/

/-- A block that the exchange form keeps if it keeps those in it: its parts have names, its inputs
are filled, and its fields hold characters that are carried. -/
structure Block.IsReadable (b : Block) : Prop where
  names : b.HasNames
  filled : ∀ i ∈ b.inputs, i.isFilled = true
  carried : ∀ f ∈ b.fields, Carried f.2.toText.toList

mutual

theorem Block.isKept_of_readable (b : Block) (h : ∀ c ∈ b.walk, c.IsReadable) : b.IsKept := by
  match b with
  | .mk type fields inputs =>
      rw [Block.walk, List.forall_mem_cons] at h
      obtain ⟨⟨hnames, hfilled, hcarried⟩, hinputs⟩ := h
      have hgiven := hnames.distinct.given
      simp only [Block.type, Block.fields, Block.inputs, List.forall_mem_cons,
        List.forall_mem_append] at hgiven
      obtain ⟨htype, hfieldNames, hinputNames⟩ := hgiven
      refine ⟨htype, fun f hf => ⟨hfieldNames _ (List.mem_map_of_mem hf), ?_⟩,
        hnames.distinct.fields, hnames.distinct.inputs, ?_⟩
      · obtain ⟨s, hs⟩ := hnames.texts f hf
        have hf' := hcarried f hf
        rw [hs] at hf' ⊢
        exact hf'
      · exact Input.areKept_of_readable inputs hfilled
          (fun i hi => hinputNames _ (List.mem_map_of_mem hi)) hinputs

theorem Input.areKept_of_readable (is : List Input) (hfilled : ∀ i ∈ is, i.isFilled = true)
    (hnames : ∀ i ∈ is, IsGiven i.name) (h : ∀ c ∈ Input.walkAll is, c.IsReadable) :
    Input.AreKept is := by
  match is with
  | [] => trivial
  | i :: is =>
      obtain ⟨hi, hfilled⟩ := List.forall_mem_cons.mp hfilled
      obtain ⟨hname, hnames⟩ := List.forall_mem_cons.mp hnames
      rw [Input.walkAll, List.forall_mem_append] at h
      exact ⟨Input.isKept_of_readable i hi hname h.1,
        Input.areKept_of_readable is hfilled hnames h.2⟩

theorem Input.isKept_of_readable (i : Input) (hfilled : i.isFilled = true) (hname : IsGiven i.name)
    (h : ∀ c ∈ i.walk, c.IsReadable) : i.IsKept := by
  match i with
  | .value _ b => exact ⟨hname, b.isKept_of_readable h⟩
  | .chain _ bs => exact ⟨hname, Block.areKept_of_readable bs h⟩
  | .vacant _ => cases hfilled

theorem Block.areKept_of_readable (bs : List Block) (h : ∀ c ∈ Block.walkAll bs, c.IsReadable) :
    Block.AreKept bs := by
  match bs with
  | [] => trivial
  | b :: bs =>
      rw [Block.walkAll, List.forall_mem_append] at h
      exact ⟨b.isKept_of_readable h.1, Block.areKept_of_readable bs h.2⟩

end

/-- The characters in its fields decide whether the exchange form keeps a filled workspace. -/
theorem Workspace.IsNamed.isKept {w : Workspace} (h : w.IsNamed)
    (hfilled : Code.IsFilledWorkspace w)
    (hcarried : ∀ b ∈ w.walk, ∀ f ∈ b.fields, Carried f.2.toText.toList) : w.IsKept := by
  simp only [walk, List.forall_mem_append] at hcarried
  obtain ⟨⟨hsetup, hloop⟩, hglobals⟩ := hcarried
  have hregion : ∀ {bs : List Block}, (∀ b ∈ bs, b.IsNamed) → (∀ b ∈ bs, b.IsFilled) →
      (∀ b ∈ Block.walkAll bs, ∀ f ∈ b.fields, Carried f.2.toText.toList) → Block.AreKept bs := by
    intro bs hnamed hfilled hcarried
    refine Block.areKept_of_readable bs fun c hc => ⟨?_, ?_, hcarried c hc⟩
    · exact Block.forall_mem_walkAll hnamed c hc
    · exact Block.forall_mem_walkAll hfilled c hc
  refine ⟨?_, ?_, ?_, ?_⟩
  · exact hregion h.setup (fun b hb => (hfilled.setup b hb).2) hsetup
  · exact hregion h.loop (fun b hb => (hfilled.loop b hb).2) hloop
  · exact hregion h.globals (fun b hb => (hfilled.globals b hb).2) hglobals
  · intro b hb
    rcases (hfilled.globals b hb).1 with htype | htype <;> rw [htype] <;> decide

end InoBlocks
