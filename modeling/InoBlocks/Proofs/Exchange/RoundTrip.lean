import InoBlocks.Proofs.Exchange.ElementReading
import InoBlocks.Proofs.Text.Ascii

/-!
# Workspaces read back

Exchange text holds the workspace that it was written for: the blocks, their fields and inputs in
order, and the three regions.  What markup adds on its way is passed over when it is read: the
white space between elements, the places of top blocks, and the arms of a choice counted in an
element of their own.
-/

namespace InoBlocks

def Exchange.IsGiven (s : String) : Prop :=
  s ≠ "" ∧ Exchange.Carried s.toList

instance (s : String) : Decidable (Exchange.IsGiven s) :=
  inferInstanceAs (Decidable (_ ∧ _))

def Scalar.IsKept : Scalar → Prop
  | .text s => Exchange.Carried s.toList
  | _ => False

instance : (s : Scalar) → Decidable s.IsKept
  | .text s => inferInstanceAs (Decidable (Exchange.Carried s.toList))
  | .integer _ | .real _ | .flag _ | .null => inferInstanceAs (Decidable False)

mutual

/-- A block that the exchange form keeps: it and all it holds have names, the names of its fields
and those of its inputs are distinct, its fields hold text, and no input is vacant. -/
def Block.IsKept : Block → Prop
  | .mk type fields inputs =>
      Exchange.IsGiven type ∧ (∀ f ∈ fields, Exchange.IsGiven f.1 ∧ f.2.IsKept) ∧
        (fields.map (·.1)).Nodup ∧ (inputs.map Input.name).Nodup ∧ Input.AreKept inputs

def Input.IsKept : Input → Prop
  | .value name block => Exchange.IsGiven name ∧ block.IsKept
  | .chain name blocks => Exchange.IsGiven name ∧ Block.AreKept blocks
  | .vacant _ => False

def Input.AreKept : List Input → Prop
  | [] => True
  | i :: is => i.IsKept ∧ Input.AreKept is

def Block.AreKept : List Block → Prop
  | [] => True
  | b :: bs => b.IsKept ∧ Block.AreKept bs

end

mutual

def Block.decideIsKept : (b : Block) → Decidable b.IsKept
  | .mk _ _ inputs =>
      have := Input.decideAreKept inputs
      inferInstanceAs (Decidable (_ ∧ _))

def Input.decideIsKept : (i : Input) → Decidable i.IsKept
  | .value _ block =>
      have := block.decideIsKept
      inferInstanceAs (Decidable (_ ∧ _))
  | .chain _ blocks =>
      have := Block.decideAreKept blocks
      inferInstanceAs (Decidable (_ ∧ _))
  | .vacant _ => inferInstanceAs (Decidable False)

def Input.decideAreKept : (is : List Input) → Decidable (Input.AreKept is)
  | [] => inferInstanceAs (Decidable True)
  | i :: is =>
      have := i.decideIsKept
      have := Input.decideAreKept is
      inferInstanceAs (Decidable (_ ∧ _))

def Block.decideAreKept : (bs : List Block) → Decidable (Block.AreKept bs)
  | [] => inferInstanceAs (Decidable True)
  | b :: bs =>
      have := b.decideIsKept
      have := Block.decideAreKept bs
      inferInstanceAs (Decidable (_ ∧ _))

end

instance (bs : List Block) : Decidable (Block.AreKept bs) :=
  Block.decideAreKept bs

/-- A workspace that the exchange form keeps.  A declaration that is typed like the block around a
region would be read as that region. -/
structure Workspace.IsKept (w : Workspace) : Prop where
  setup : Block.AreKept w.setup
  loop : Block.AreKept w.loop
  globals : Block.AreKept w.globals
  distinct : ∀ b ∈ w.globals, b.type ≠ Workspace.setupType ∧ b.type ≠ Workspace.loopType

namespace Exchange

/-! ## What is written is sound -/

theorem isPlainName_of_check {s : String}
    (h : (match s.toList with | c :: cs => isNameStart c && cs.all isNameChar | [] => false) =
      true) : IsPlainName s := by
  cases hs : s.toList with
  | nil => simp [hs] at h
  | cons c cs =>
      rw [hs, Bool.and_eq_true, List.all_eq_true] at h
      exact ⟨c, cs, hs, h⟩

theorem carried_decimal (n : Nat) : Carried (Number.decimal n).toList := by
  intro c hc
  rw [Number.decimal, String.toList_ofList] at hc
  have hdigit := Nat.isDigit_of_mem_toDigits (by decide) (by decide) hc
  rw [Text.isDigit_iff] at hdigit
  have hreturn : c ≠ '\r' := by
    rintro rfl
    exact absurd hdigit (by decide)
  simp [isCarried, isXmlChar, hreturn]
  omega

theorem soundAttributes_nil : SoundAttributes [] := by
  constructor <;> simp

theorem SoundAttributes.cons {name value : String} {attributes : List (String × String)}
    (h : SoundAttributes attributes) (hname : IsPlainName name) (hvalue : Carried value.toList)
    (hnew : name ∉ attributes.map (·.1)) (hfree : name = "xmlns" → isFree value.toList = true) :
    SoundAttributes ((name, value) :: attributes) where
  plain := List.forall_mem_cons.mpr ⟨hname, h.plain⟩
  carried := List.forall_mem_cons.mpr ⟨hvalue, h.carried⟩
  distinct := List.nodup_cons.mpr ⟨hnew, h.distinct⟩
  free := List.forall_mem_cons.mpr ⟨hfree, h.free⟩

theorem soundAttributes_type {type : String} (h : IsGiven type) : SoundAttributes [("type", type)] :=
  soundAttributes_nil.cons (isPlainName_of_check (by decide)) h.2 (by simp) (by simp)

theorem soundAttributes_name {name : String} (h : IsGiven name) : SoundAttributes [("name", name)] :=
  soundAttributes_nil.cons (isPlainName_of_check (by decide)) h.2 (by simp) (by simp)

theorem soundAttributes_placed {type : String} (h : IsGiven type) (x y : Nat) :
    SoundAttributes (("type", type) :: position x y) :=
  ((soundAttributes_nil.cons (isPlainName_of_check (by decide)) (carried_decimal y) (by simp)
      (by simp)).cons (isPlainName_of_check (by decide)) (carried_decimal x) (by simp)
        (by simp)).cons (isPlainName_of_check (by decide)) h.2 (by simp) (by simp)

theorem areSound_iff {es : List Element} : Element.AreSound es ↔ ∀ e ∈ es, e.IsSound := by
  induction es with
  | nil => simp [Element.AreSound]
  | cons e es ih => simp [Element.AreSound, ih]

theorem soundAttributes_arms (further : Nat) (otherwise : Bool) :
    SoundAttributes ((if further = 0 then [] else [("elseif", Number.decimal further)]) ++
      (if otherwise then [("else", "1")] else [])) := by
  have helse : SoundAttributes (if otherwise then [("else", "1")] else []) := by
    split
    · exact soundAttributes_nil.cons (isPlainName_of_check (by decide)) (by decide) (by simp)
        (by simp)
    · exact soundAttributes_nil
  split
  · exact helse
  · refine helse.cons (isPlainName_of_check (by decide)) (carried_decimal further) ?_ (by simp)
    split <;> simp

theorem mutation_eq {type : String} {inputs : List Input} {e : Element}
    (he : e ∈ mutation type inputs) :
    ∃ attributes, e = .mk "mutation" attributes "" [] ∧ SoundAttributes attributes := by
  simp only [mutation, List.mem_ite_nil_right, List.mem_singleton] at he
  exact ⟨_, he.2, soundAttributes_arms _ _⟩

theorem isSound_fieldElement {f : String × Scalar} (hname : IsGiven f.1)
    (hvalue : f.2.IsKept) : (fieldElement f).IsSound := by
  obtain ⟨name, value⟩ := f
  refine ⟨isPlainName_of_check (by decide), soundAttributes_name hname, ?_, trivial⟩
  cases value with
  | text s => exact hvalue
  | integer _ | real _ | flag _ | null => exact hvalue.elim

theorem isSound_linked {e : Element} {next : Option Element} (he : e.IsSound)
    (hnext : ∀ n ∈ next, n.IsSound) : (linked e next).IsSound := by
  obtain ⟨name, attributes, text, children⟩ := e
  cases next with
  | none => exact he
  | some n =>
      obtain ⟨hname, hattributes, htext, hchildren⟩ := he
      refine ⟨hname, hattributes, htext, areSound_iff.mpr fun c hc => ?_⟩
      rcases List.mem_append.mp hc with hc | hc
      · exact areSound_iff.mp hchildren c hc
      · rw [List.mem_singleton] at hc
        subst hc
        exact ⟨isPlainName_of_check (by decide), soundAttributes_nil, by decide, hnext n rfl, trivial⟩

mutual

theorem isSound_blockElement {b : Block} (hb : b.IsKept) : (blockElement b).IsSound := by
  match b with
  | .mk type fields inputs =>
      obtain ⟨htype, hfields, -, -, hinputs⟩ := hb
      refine ⟨isPlainName_of_check (by decide), soundAttributes_type htype, by decide,
        areSound_iff.mpr fun e he => ?_⟩
      rw [List.mem_append, List.mem_append] at he
      rcases he with (he | he) | he
      · obtain ⟨attributes, rfl, hattributes⟩ := mutation_eq he
        exact ⟨isPlainName_of_check (by decide), hattributes, by decide, trivial⟩
      · obtain ⟨f, hf, rfl⟩ := List.mem_map.mp he
        exact isSound_fieldElement (hfields f hf).1 (hfields f hf).2
      · exact isSound_inputElements hinputs e he

theorem isSound_inputElements {is : List Input} (his : Input.AreKept is) :
    ∀ e ∈ inputElements is, e.IsSound := by
  match is with
  | [] => simp [inputElements]
  | i :: is =>
      obtain ⟨hi, hmore⟩ := his
      intro e he
      rw [inputElements, List.mem_append] at he
      rcases he with he | he
      · exact isSound_inputElement hi e he
      · exact isSound_inputElements hmore e he

theorem isSound_inputElement {i : Input} (hi : i.IsKept) : ∀ e ∈ inputElement i, e.IsSound := by
  match i with
  | .value name b =>
      obtain ⟨hname, hb⟩ := hi
      intro e he
      rw [inputElement, List.mem_singleton] at he
      subst he
      exact ⟨isPlainName_of_check (by decide), soundAttributes_name hname, by decide,
        isSound_blockElement hb, trivial⟩
  | .chain name bs =>
      obtain ⟨hname, hbs⟩ := hi
      intro e he
      rw [inputElement, List.mem_singleton] at he
      subst he
      refine ⟨isPlainName_of_check (by decide), soundAttributes_name hname, by decide,
        areSound_iff.mpr fun e he => ?_⟩
      exact isSound_chainElement hbs e (Option.mem_toList.mp he)
  | .vacant name => exact hi.elim

theorem isSound_chainElement {bs : List Block} (hbs : Block.AreKept bs) :
    ∀ e ∈ chainElement bs, e.IsSound := by
  match bs with
  | [] => simp [chainElement]
  | b :: bs =>
      obtain ⟨hb, hmore⟩ := hbs
      intro e he
      rw [chainElement, Option.mem_some_iff] at he
      subst he
      exact isSound_linked (isSound_blockElement hb) (isSound_chainElement hmore)

end

/-! ## What is read -/

/-- What an element gives where it has been written at a level. -/
def readAt (level : Nat) (e : Element) : Reading :=
  reading (e.settled level)

theorem readings_settledAll (level : Nat) (es : List Element) :
    readings (Element.settledAll level es) = es.map (readAt level) := by
  induction es with
  | nil => rfl
  | cons e es ih => rw [Element.settledAll, readings, ih, List.map_cons, readAt]

theorem readAt_mk (level : Nat) (name : String) (attributes : List (String × String))
    (text : String) (children : List Element) :
    readAt level (.mk name attributes text children) =
      .ofParts name (attributes.filter fun a => a.1 != "xmlns")
        (if children.isEmpty then text else String.ofList ('\n' :: Element.indent (level + 1)))
        (children.map (readAt (level + 1))) := by
  rw [readAt, Element.settled, reading, readings_settledAll]

theorem name_readAt (level : Nat) (e : Element) : (readAt level e).name = e.name := by
  obtain ⟨name, attributes, text, children⟩ := e
  rw [readAt_mk]
  rfl

/-! ### Blocks -/

theorem put_new {α : Type} {name : String} {entries : List (String × α)}
    (h : name ∉ entries.map (·.1)) (value : α) :
    put name value entries = entries ++ [(name, value)] := by
  induction entries with
  | nil => rfl
  | cons entry entries ih =>
      rw [List.map_cons, List.mem_cons, not_or] at h
      have hne : (entry.1 == name) = false := beq_false_of_ne (Ne.symm h.1)
      rw [put, hne, if_neg Bool.false_ne_true, ih h.2, List.cons_append]

/-- An input as it is kept while the rest of its block is read. -/
def entryOf : Input → String × (String → Input)
  | .value name block => (name, (.value · block))
  | .chain name blocks => (name, (.chain · blocks))
  | .vacant name => (name, .vacant)

theorem map_entryOf (is : List Input) : (is.map entryOf).map (fun e => e.2 e.1) = is := by
  induction is with
  | nil => rfl
  | cons i is ih => cases i <;> simpa [entryOf] using ih

theorem exists_text {value : Scalar} (h : value.IsKept) : ∃ text : String, value = .text text := by
  cases value with
  | text s => exact ⟨s, rfl⟩
  | integer _ | real _ | flag _ | null => exact h.elim

theorem given?_readAt (level : Nat) (kind text : String) (children : List Element) {name : String}
    (hname : name ≠ "") :
    (readAt level (.mk kind [("name", name)] text children)).given? "name" = some name := by
  have hlookup : (readAt level (.mk kind [("name", name)] text children)).attribute? "name" =
      some name := by
    rw [readAt_mk]
    rfl
  rw [Reading.given?, hlookup, Option.filter_some, bne_iff_ne.mpr hname, if_pos rfl]

theorem takeUp_field (type : String) (level : Nat) (done : Reading.Contents) {name text : String}
    (hname : name ≠ "") (hnew : name ∉ done.fields.map (·.1)) :
    Reading.takeUp type done (readAt level (fieldElement (name, .text text))) =
      .ok { done with fields := done.fields ++ [(name, .text text)] } := by
  have htext : (readAt level (fieldElement (name, .text text))).text = text := by
    rw [fieldElement, readAt_mk]
    rfl
  rw [Reading.takeUp, htext, name_readAt, fieldElement, given?_readAt level _ _ _ hname]
  simp [Element.name, put_new hnew]

theorem takeUp_fields (type : String) (level : Nat) (done : Reading.Contents)
    {fields : List (String × Scalar)}
    (hfields : ∀ f ∈ fields, IsGiven f.1 ∧ f.2.IsKept)
    (hnew : ((done.fields ++ fields).map (·.1)).Nodup) :
    ((fields.map fieldElement).map (readAt level)).foldlM (Reading.takeUp type) done =
      .ok { done with fields := done.fields ++ fields } := by
  induction fields generalizing done with
  | nil => simp [pure, Except.pure]
  | cons f fields ih =>
      obtain ⟨name, value⟩ := f
      obtain ⟨⟨hname, hvalue⟩, hmore⟩ := List.forall_mem_cons.mp hfields
      obtain ⟨text, rfl⟩ := exists_text hvalue
      have hfresh : name ∉ done.fields.map (·.1) := by
        intro hmem
        rw [List.map_append, List.nodup_append] at hnew
        exact hnew.2.2 name hmem name (by simp) rfl
      rw [List.map_cons, List.map_cons, List.foldlM_cons,
        takeUp_field type level done hname.1 hfresh]
      have := ih { done with fields := done.fields ++ [(name, .text text)] } hmore
        (by simpa using hnew)
      rwa [List.append_assoc, List.singleton_append] at this

theorem takeUp_value (type : String) (done : Reading.Contents) {r : Reading} {name : String}
    {b : Block} (hkind : r.name = "value") (hname : r.given? "name" = some name)
    (hheld : r.heldBlock = some (.ok b)) (hnew : name ∉ done.inputs.map (·.1)) :
    Reading.takeUp type done r =
      .ok { done with inputs := done.inputs ++ [entryOf (.value name b)] } := by
  simp [Reading.takeUp, hkind, hname, hheld, put_new hnew, entryOf, bind, Except.bind, pure,
    Except.pure]

/-- Statements are taken up behind the other inputs. -/
theorem takeUp_statement (type : String) (done : Reading.Contents) {r : Reading} {name : String}
    {bs : List Block} (hkind : r.name = "statement") (hname : r.given? "name" = some name)
    (hheld : r.heldChain.getD (.ok []) = .ok bs) (hnew : name ∉ done.inputs.map (·.1)) :
    Reading.takeUp type done r =
      .ok { done with inputs := done.inputs ++ [entryOf (.chain name bs)] } := by
  cases hchain : r.heldChain with
  | none =>
      rw [hchain] at hheld
      injection hheld with hheld
      subst hheld
      simp [Reading.takeUp, hkind, hname, hchain, put_new hnew, entryOf]
  | some chain =>
      rw [hchain] at hheld
      have hheld : chain = .ok bs := hheld
      simp [Reading.takeUp, hkind, hname, hchain, hheld, put_new hnew, entryOf, bind, Except.bind,
        pure, Except.pure]

/-- What is neither a field nor an input is passed over. -/
theorem takeUp_others {type : String} {rs : List Reading} (done : Reading.Contents)
    (h : ∀ r ∈ rs, r.name ≠ "field" ∧ r.name ≠ "value" ∧ r.name ≠ "statement") :
    rs.foldlM (Reading.takeUp type) done = .ok done := by
  induction rs with
  | nil => rfl
  | cons r rs ih =>
      obtain ⟨hr, hmore⟩ := List.forall_mem_cons.mp h
      have hother : Reading.takeUp type done r = .ok done := by simp [Reading.takeUp, hr]
      rw [List.foldlM_cons, hother]
      exact ih hmore

/-- The element of a block with more attributes behind its own and more children behind its
contents. -/
def blockWith (b : Block) (more : List (String × String)) (nexts : List Element) : Element :=
  .mk "block" (("type", b.type) :: more) "" ((blockElement b).children ++ nexts)

def nextElement (e : Element) : Element :=
  .mk "next" [] "" [e]

theorem linked_blockElement (b : Block) (next : Option Element) :
    linked (blockElement b) next = blockWith b [] (next.map nextElement).toList := by
  obtain ⟨type, fields, inputs⟩ := b
  cases next <;>
    simp [linked, blockWith, blockElement, Element.withChild, Element.name, Element.attributes,
      Element.text, Element.children, Block.type, nextElement]

theorem withAttributes_blockElement (b : Block) (more : List (String × String)) :
    (blockElement b).withAttributes more = blockWith b more [] := by
  obtain ⟨type, fields, inputs⟩ := b
  simp [blockWith, blockElement, Element.withAttributes, Element.name, Element.attributes,
    Element.text, Element.children, Block.type]

theorem name_of_mem_inputElements {is : List Input} {e : Element} (he : e ∈ inputElements is) :
    e.name = "value" ∨ e.name = "statement" := by
  induction is with
  | nil => simp [inputElements] at he
  | cons i is ih =>
      rw [inputElements, List.mem_append] at he
      rcases he with he | he
      · cases i <;> simp [inputElement] at he <;> subst he <;> simp [Element.name]
      · exact ih he

/-- No part of a block is taken for what follows it. -/
theorem name_of_mem_children {b : Block} {e : Element} (he : e ∈ (blockElement b).children) :
    e.name ≠ "next" := by
  obtain ⟨type, fields, inputs⟩ := b
  simp only [blockElement, Element.children, List.mem_append, List.mem_map] at he
  rcases he with (he | ⟨f, -, rfl⟩) | he
  · obtain ⟨attributes, rfl, -⟩ := mutation_eq he
    simp [Element.name]
  · simp [fieldElement, Element.name]
  · rcases name_of_mem_inputElements he with h | h <;> rw [h] <;> decide

theorem block_readAt {b : Block} (htype : b.type ≠ "") (more : List (String × String))
    (nexts : List Element) (level : Nat) :
    (readAt level (blockWith b more nexts)).block =
      (do
        let contents ← (((blockElement b).children ++ nexts).map (readAt (level + 1))).foldlM
          (Reading.takeUp b.type) {}
        return .mk b.type contents.fields (contents.inputs.map fun i => i.2 i.1)) := by
  have hlookup : ((("type", b.type) :: more).filter fun a => a.1 != "xmlns").lookup "type" =
      some b.type := by
    simp
  simp only [blockWith, readAt_mk, Reading.ofParts, hlookup, Option.filter_some,
    bne_iff_ne.mpr htype, if_true, Reading.readBlock]

/-- What follows the first block of a chain is what its `next` holds. -/
theorem chain_readAt {b : Block} (more : List (String × String)) (level : Nat) (e : Option Element)
    {bs : List Block}
    (hblock : (readAt level (blockWith b more (e.map nextElement).toList)).block = .ok b)
    (hname : ∀ n ∈ e, n.name = "block")
    (hchain : (e.map fun n => (readAt (level + 2) n).chain).getD (.ok []) = .ok bs) :
    (readAt level (blockWith b more (e.map nextElement).toList)).chain = .ok (b :: bs) := by
  have hfind : (((blockElement b).children ++ (e.map nextElement).toList).map
      (readAt (level + 1))).find? (·.name == "next") = e.map (readAt (level + 1) ∘ nextElement) := by
    have hnone : ((blockElement b).children.map (readAt (level + 1))).find? (·.name == "next") =
        none := by
      rw [List.find?_eq_none]
      intro r hr
      obtain ⟨c, hc, rfl⟩ := List.mem_map.mp hr
      rw [name_readAt]
      simpa using name_of_mem_children hc
    rw [List.map_append, List.find?_append, hnone]
    cases e <;> simp [name_readAt, nextElement, Element.name]
  have hread : (readAt level (blockWith b more (e.map nextElement).toList)).chain =
      Reading.readChain (readAt level (blockWith b more (e.map nextElement).toList)).block
        (((blockElement b).children ++ (e.map nextElement).toList).map (readAt (level + 1))) := by
    rw [blockWith, readAt_mk]
    rfl
  rw [hread, hblock, Reading.readChain, hfind]
  cases e with
  | none =>
      injection hchain with hchain
      subst hchain
      rfl
  | some n =>
      have hheld : (readAt (level + 1) (nextElement n)).heldChain =
          some (readAt (level + 2) n).chain := by
        rw [nextElement, readAt_mk]
        simp [Reading.ofParts, Reading.held?, name_readAt, hname n rfl]
      have hchain : (readAt (level + 2) n).chain = .ok bs := hchain
      simp only [Option.map_some, Function.comp_apply, Option.bind_some, hheld, hchain]
      rfl

theorem blockElement_eq (b : Block) : blockElement b = blockWith b [] [] :=
  linked_blockElement b none

/-- The chain in an element is read from the block in it. -/
theorem heldChain_readAt (level : Nat) (kind : String) (attributes : List (String × String))
    {e : Option Element} (hname : ∀ n ∈ e, n.name = "block") :
    (readAt level (.mk kind attributes "" e.toList)).heldChain =
      e.map fun n => (readAt (level + 1) n).chain := by
  rw [readAt_mk]
  cases e with
  | none => rfl
  | some n => simp [Reading.ofParts, Reading.held?, name_readAt, hname n rfl]

/-! ### Inputs -/

mutual

/-- A block is read as it is, whatever stands behind its contents. -/
theorem block_readAt_kept {b : Block} (hb : b.IsKept) (more : List (String × String))
    (nexts : List Element) (hnexts : ∀ n ∈ nexts, n.name = "next") (level : Nat) :
    (readAt level (blockWith b more nexts)).block = .ok b := by
  match b with
  | .mk type fields inputs =>
      obtain ⟨htype, hfields, hfieldNames, hinputNames, hinputs⟩ := hb
      have hmutation : ∀ r ∈ (mutation type inputs).map (readAt (level + 1)),
          r.name ≠ "field" ∧ r.name ≠ "value" ∧ r.name ≠ "statement" := by
        intro r hr
        obtain ⟨e, he, rfl⟩ := List.mem_map.mp hr
        obtain ⟨attributes, rfl, -⟩ := mutation_eq he
        simp [name_readAt, Element.name]
      have hbehind : ∀ r ∈ nexts.map (readAt (level + 1)),
          r.name ≠ "field" ∧ r.name ≠ "value" ∧ r.name ≠ "statement" := by
        intro r hr
        obtain ⟨e, he, rfl⟩ := List.mem_map.mp hr
        simp [name_readAt, hnexts e he]
      have hfold : (((blockElement (.mk type fields inputs)).children ++ nexts).map
          (readAt (level + 1))).foldlM (Reading.takeUp type) {} =
            .ok ⟨fields, inputs.map entryOf⟩ := by
        have hfields := takeUp_fields type (level + 1) {} hfields (by simpa using hfieldNames)
        have hinputs := takeUp_inputElements hinputs type (level + 1) ⟨fields, []⟩
          (by simpa using hinputNames)
        simp only [List.nil_append] at hfields hinputs
        simp only [blockElement, Element.children, List.map_append, List.foldlM_append,
          takeUp_others _ hmutation, bind, Except.bind, hfields, hinputs, takeUp_others _ hbehind]
      have htype : (Block.mk type fields inputs).type ≠ "" := htype.1
      rw [block_readAt htype more nexts level]
      have hinputs := map_entryOf inputs
      simp only [Block.type, hfold, bind, Except.bind, hinputs]
      rfl

theorem takeUp_inputElements {is : List Input} (his : Input.AreKept is) (type : String)
    (level : Nat) (done : Reading.Contents)
    (hnew : (done.inputs.map (·.1) ++ is.map Input.name).Nodup) :
    ((inputElements is).map (readAt level)).foldlM (Reading.takeUp type) done =
      .ok { done with inputs := done.inputs ++ is.map entryOf } := by
  match is with
  | [] => simp [inputElements, pure, Except.pure]
  | i :: is =>
      obtain ⟨hi, hmore⟩ := his
      have hfresh : i.name ∉ done.inputs.map (·.1) := fun hmem =>
        (List.nodup_append.mp hnew).2.2 i.name hmem i.name (by simp) rfl
      have hname : (entryOf i).1 = i.name := by cases i <;> rfl
      have := takeUp_inputElements hmore type level
        { done with inputs := done.inputs ++ [entryOf i] } (by simpa [hname] using hnew)
      rw [inputElements, List.map_append, List.foldlM_append,
        takeUp_inputElement hi type level done hfresh]
      rwa [List.append_assoc, List.singleton_append] at this

theorem takeUp_inputElement {i : Input} (hi : i.IsKept) (type : String) (level : Nat)
    (done : Reading.Contents) (hnew : i.name ∉ done.inputs.map (·.1)) :
    ((inputElement i).map (readAt level)).foldlM (Reading.takeUp type) done =
      .ok { done with inputs := done.inputs ++ [entryOf i] } := by
  match i with
  | .value name b =>
      obtain ⟨hname, hb⟩ := hi
      have hblock := block_readAt_kept hb [] [] (by simp) (level + 1)
      have hheld : (readAt level (.mk "value" [("name", name)] "" [blockWith b [] []])).heldBlock =
          some (.ok b) := by
        rw [readAt_mk]
        simp [Reading.ofParts, Reading.held?, name_readAt, blockWith, Element.name] at hblock ⊢
        exact hblock
      rw [inputElement, blockElement_eq, List.map_singleton, List.foldlM_cons,
        takeUp_value type done (name_readAt _ _) (given?_readAt level _ _ _ hname.1) hheld hnew]
      rfl
  | .chain name bs =>
      obtain ⟨hname, hbs⟩ := hi
      obtain ⟨hblock, hchain⟩ := chainElement_read hbs (level + 1)
      rw [← heldChain_readAt level "statement" [("name", name)] hblock] at hchain
      rw [inputElement, List.map_singleton, List.foldlM_cons,
        takeUp_statement type done (name_readAt _ _) (given?_readAt level _ _ _ hname.1) hchain hnew]
      rfl
  | .vacant name => exact hi.elim

theorem chainElement_read {bs : List Block} (hbs : Block.AreKept bs) (level : Nat) :
    (∀ e ∈ chainElement bs, e.name = "block") ∧
      ((chainElement bs).map fun e => (readAt level e).chain).getD (.ok []) = .ok bs := by
  match bs with
  | [] => exact ⟨by simp [chainElement], rfl⟩
  | b :: bs =>
      obtain ⟨hb, hmore⟩ := hbs
      obtain ⟨hname, hrest⟩ := chainElement_read hmore (level + 2)
      have hnexts : ∀ n ∈ ((chainElement bs).map nextElement).toList, n.name = "next" := by
        cases chainElement bs <;> simp [nextElement, Element.name]
      have hblock := block_readAt_kept hb [] _ hnexts level
      rw [chainElement, linked_blockElement]
      exact ⟨by simp [blockWith, Element.name], chain_readAt [] level (chainElement bs) hblock hname hrest⟩

end

/-! ## Workspaces -/

theorem isSound_regionElement {type input : String} {blocks : List Block} (y : Nat)
    (htype : IsGiven type) (hinput : IsGiven input) (hblocks : Block.AreKept blocks) :
    (regionElement type input blocks y).IsSound := by
  refine ⟨isPlainName_of_check (by decide), soundAttributes_placed htype 50 y, by decide, ?_, trivial⟩
  refine ⟨isPlainName_of_check (by decide), soundAttributes_name hinput, by decide, ?_⟩
  exact areSound_iff.mpr fun e he => isSound_chainElement hblocks e (Option.mem_toList.mp he)

theorem isSound_placed {b : Block} (hb : b.IsKept) (x y : Nat) :
    ((blockElement b).withAttributes (position x y)).IsSound := by
  obtain ⟨type, fields, inputs⟩ := b
  have hsound := isSound_blockElement hb
  exact ⟨hsound.1, soundAttributes_placed hb.1 x y, hsound.2.2⟩

theorem areKept_iff {bs : List Block} : Block.AreKept bs ↔ ∀ b ∈ bs, b.IsKept := by
  induction bs with
  | nil => simp [Block.AreKept]
  | cons b bs ih => simp [Block.AreKept, ih]

theorem isSound_workspaceElement {w : Workspace} (hw : w.IsKept) : (workspaceElement w).IsSound := by
  refine ⟨isPlainName_of_check (by decide), ?_, by decide, ?_, ?_, ?_⟩
  · exact soundAttributes_nil.cons (isPlainName_of_check (by decide)) (by decide) (by simp)
      (by decide)
  · exact isSound_regionElement 50 (by decide) (by decide) hw.setup
  · exact isSound_regionElement 300 (by decide) (by decide) hw.loop
  · refine areSound_iff.mpr fun e he => ?_
    obtain ⟨⟨b, i⟩, hb, rfl⟩ := List.mem_map.mp he
    exact isSound_placed (areKept_iff.mp hw.globals b (List.fst_mem_of_mem_zipIdx hb)) _ _

/-- The statements of a top block that has one input. -/
theorem regionBlocks_eq {e : Element} {r : Reading} {input : String}
    (hread : readings e.children = [r]) (hkind : r.name = "statement")
    (hname : r.attribute? "name" = some input) :
    regionBlocks input e = r.heldChain.getD (.ok []) := by
  cases h : r.heldChain <;> simp [regionBlocks, hread, hkind, hname, h]

theorem regionBlocks_settled {type input : String} {blocks : List Block} (y level : Nat)
    (hblocks : Block.AreKept blocks) :
    regionBlocks input ((regionElement type input blocks y).settled level) = .ok blocks := by
  obtain ⟨hname, hchain⟩ := chainElement_read hblocks (level + 2)
  rw [← heldChain_readAt (level + 1) "statement" [("name", input)] hname] at hchain
  rw [regionBlocks_eq (r := readAt (level + 1)
    (.mk "statement" [("name", input)] "" (chainElement blocks).toList)) _ (name_readAt _ _),
    hchain]
  · rw [readAt_mk]
    rfl
  · rw [regionElement, Element.settled, Element.children, readings_settledAll]
    rfl

theorem type_settled (level : Nat) (name type text : String) (more : List (String × String))
    (children : List Element) :
    ((Element.mk name (("type", type) :: more) text children).settled level).attribute? "type" =
      some type := by
  simp [Element.settled, Element.attribute?, Element.attributes]

theorem name_settled (level : Nat) (e : Element) : (e.settled level).name = e.name := by
  obtain ⟨name, attributes, text, children⟩ := e
  rfl

/-- The first top block of a region is taken up as the region. -/
theorem takeUpTop_setup (done : Regions) (hdone : done.setup = none) (y level : Nat)
    {blocks : List Block} (hblocks : Block.AreKept blocks) :
    takeUpTop done ((regionElement Workspace.setupType Workspace.setupInput blocks y).settled level) =
      .ok { done with setup := some blocks } := by
  rw [takeUpTop, name_settled, regionBlocks_settled y level hblocks, hdone, regionElement,
    type_settled]
  simp [Element.name, bind, Except.bind, pure, Except.pure]

theorem takeUpTop_loop (done : Regions) (hdone : done.loop = none) (y level : Nat)
    {blocks : List Block} (hblocks : Block.AreKept blocks) :
    takeUpTop done ((regionElement Workspace.loopType Workspace.loopInput blocks y).settled level) =
      .ok { done with loop := some blocks } := by
  have hne : (some Workspace.loopType == some Workspace.setupType) = false := by decide
  rw [takeUpTop, name_settled, regionBlocks_settled y level hblocks, hdone, regionElement,
    type_settled, hne]
  simp [Element.name, bind, Except.bind, pure, Except.pure]

theorem takeUpTop_global (done : Regions) {b : Block} (hb : b.IsKept)
    (hsetup : b.type ≠ Workspace.setupType) (hloop : b.type ≠ Workspace.loopType) (x y level : Nat) :
    takeUpTop done (((blockElement b).withAttributes (position x y)).settled level) =
      .ok { done with globals := done.globals ++ [b] } := by
  have hchain := chain_readAt (position x y) level none
    (block_readAt_kept hb _ [] (by simp) level) (by simp) rfl
  have hchain : (reading ((blockWith b (position x y) []).settled level)).chain = .ok [b] := hchain
  have htype : ((blockWith b (position x y) []).settled level).attribute? "type" = some b.type :=
    type_settled _ _ _ _ _ _
  rw [withAttributes_blockElement, takeUpTop, name_settled, hchain, htype]
  simp [blockWith, Element.name, hsetup, hloop, bind, Except.bind, pure, Except.pure]

theorem takeUpTop_globals (done : Regions) {bs : List Block} (hbs : Block.AreKept bs)
    (hdistinct : ∀ b ∈ bs, b.type ≠ Workspace.setupType ∧ b.type ≠ Workspace.loopType)
    (first level : Nat) :
    (Element.settledAll level ((bs.zipIdx first).map fun (b, i) =>
        (blockElement b).withAttributes (position 400 (50 + i * 80)))).foldlM takeUpTop done =
      .ok { done with globals := done.globals ++ bs } := by
  induction bs generalizing done first with
  | nil => simp [Element.settledAll, pure, Except.pure]
  | cons b bs ih =>
      obtain ⟨hb, hmore⟩ := hbs
      obtain ⟨⟨hsetup, hloop⟩, hrest⟩ := List.forall_mem_cons.mp hdistinct
      have := ih { done with globals := done.globals ++ [b] } hmore hrest (first + 1)
      rw [List.append_assoc, List.singleton_append] at this
      rw [List.zipIdx_cons, List.map_cons, Element.settledAll, List.foldlM_cons,
        takeUpTop_global done hb hsetup hloop]
      exact this

/-- The two functions and the other blocks of a workspace are taken up from its element. -/
theorem takeUp_workspaceElement {w : Workspace} (hw : w.IsKept) :
    ((workspaceElement w).settled 0).children.foldlM takeUpTop {} =
      .ok ⟨some w.setup, some w.loop, w.globals⟩ := by
  have hchildren : ((workspaceElement w).settled 0).children = Element.settledAll 1
      (regionElement Workspace.setupType Workspace.setupInput w.setup 50 ::
        regionElement Workspace.loopType Workspace.loopInput w.loop 300 ::
          globalElements w.globals) := rfl
  have hglobals := takeUpTop_globals ⟨some w.setup, some w.loop, []⟩ hw.globals hw.distinct 0 1
  simp only [hchildren, Element.settledAll, List.foldlM_cons, globalElements,
    takeUpTop_setup {} rfl 50 1 hw.setup, takeUpTop_loop ⟨some w.setup, none, []⟩ rfl 300 1 hw.loop,
    bind, Except.bind]
  exact hglobals

/-- Exchange text holds the workspace that it was written for. -/
theorem decode_encode {w : Workspace} (hw : w.IsKept) : decode (encode w) = .ok w := by
  have hname : ((workspaceElement w).settled 0).name = "xml" := name_settled 0 _
  rw [decode, encode, element?_toText (isSound_workspaceElement hw)]
  simp only [hname, takeUp_workspaceElement hw, bind, Except.bind]
  rfl

end Exchange

end InoBlocks
