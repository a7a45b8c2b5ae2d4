import InoBlocks.Code.Descent
import InoBlocks.Proofs.Code.Coded
import InoBlocks.Proofs.Code.FilledBlocks
import InoBlocks.Proofs.Sketch.ProperSketch
import InoBlocks.Sketch.Calls

/-!
# Sketches become filled blocks

Converting a sketch that was read from a text finds no fault in it, whatever faults reading recovered
from, and every input of the blocks it gives is filled.  So the way from a text to blocks and back to
a text breaks off only where there is no room for its calls.
-/

namespace InoBlocks

open Code

/-! ## Building filled blocks -/

/-- An input is filled, with blocks whose inputs are filled. -/
def Input.Fits (i : Input) : Prop :=
  i.isFilled = true ∧ ∀ b ∈ i.blocks, b.IsFilled

theorem Block.isFilled_ofTexts (type : String) (fields : List (String × String)) {is : List Input}
    (h : ∀ i ∈ is, i.Fits) : (Block.ofTexts type fields is).IsFilled := by
  rw [Block.IsFilled, Block.ofTexts, Block.walk, List.forall_mem_cons]
  exact ⟨fun i hi => (h i hi).1, Input.forall_mem_walkAll fun i hi => (h i hi).2⟩

theorem Input.fits_value {name : String} {b : Block} (hname : isBodyName name = false)
    (hvalue : b.hasValue = true) (hfilled : b.IsFilled) : (Input.value name b).Fits := by
  refine ⟨?_, List.forall_mem_singleton.mpr hfilled⟩
  rw [isFilled, hname, hvalue]
  rfl

theorem Input.fits_chain {name : String} {bs : List Block} (hname : isBodyName name = true)
    (h : ∀ b ∈ bs, b.isCoded = true ∧ b.IsFilled) : (Input.chain name bs).Fits := by
  refine ⟨?_, fun b hb => (h b hb).2⟩
  rw [isFilled, hname, Bool.true_and, List.all_eq_true]
  exact fun b hb => (h b hb).1

namespace Blocks

/-! ## Expressions -/

/-- A block that may stand as a value, with all its inputs filled. -/
def IsValue (b : Block) : Prop :=
  b.hasValue = true ∧ b.IsFilled

/-- A block that may stand as a statement, with all its inputs filled. -/
def IsStep (b : Block) : Prop :=
  b.isCoded = true ∧ b.IsFilled

theorem isValue_leaf {type : String} (fields : List (String × String))
    (htype : (Value.template? type).isSome = true) : IsValue (.ofTexts type fields []) :=
  ⟨htype, Block.isFilled_ofTexts type fields (by simp)⟩

theorem isValue_raw (code : String) : IsValue (.rawExpression code) :=
  isValue_leaf _ rfl

theorem isValue_literal (value : LiteralValue) (raw : String) : IsValue (literal value raw) := by
  cases value with
  | number x => exact isValue_leaf _ rfl
  | text s =>
      rcases Expr.literal_cases s raw with ⟨-, h, -⟩ | ⟨-, ⟨truth, h, -⟩ | ⟨h, -⟩⟩ <;> rw [h]
      · exact isValue_leaf _ rfl
      · exact isValue_leaf _ rfl
      · exact isValue_leaf _ rfl

theorem valueCall?_inputs {id type : String} {names : List String}
    (h : valueCall? id = some (type, names)) :
    (Value.template? type).isSome = true ∧ ∀ name ∈ names, Input.isBodyName name = false := by
  unfold valueCall? at h
  split at h <;> cases h <;> exact ⟨rfl, by decide⟩

theorem serialQuery?_type {method type : String} (h : serialQuery? method = some type) :
    (Value.template? type).isSome = true := by
  unfold serialQuery? at h
  split at h <;> cases h <;> rfl

theorem operator?_type {operator type name : String}
    (h : Block.operator? operator = some (type, name)) :
    (Value.template? type).isSome = true := by
  obtain ⟨table, htable, hname⟩ := List.exists_of_findSome?_eq_some h
  obtain ⟨_, -, hpair⟩ := Option.map_eq_some_iff.mp hname
  cases hpair
  simp only [Block.operatorTables, List.mem_cons, List.not_mem_nil, or_false] at htable
  rcases htable with rfl | rfl | rfl <;> rfl

theorem fits_inputs {names : List String} {es : List Expr}
    (hnames : ∀ name ∈ names, Input.isBodyName name = false)
    (hes : ∀ e ∈ es, ∃ b, expression? e = some b ∧ IsValue b) :
    ∀ i ∈ inputs names es, i.Fits := by
  induction names generalizing es with
  | nil => simp [inputs]
  | cons name names ih =>
      cases es with
      | nil => simp [inputs]
      | cons e es =>
          obtain ⟨hname, hnames⟩ := List.forall_mem_cons.mp hnames
          obtain ⟨⟨b, hb, hvalue⟩, hes⟩ := List.forall_mem_cons.mp hes
          rw [inputs, hb]
          exact List.forall_mem_cons.mpr
            ⟨Input.fits_value hname hvalue.1 hvalue.2, ih hnames hes⟩

/-- A call becomes a block with its arguments in the inputs, or raw text. -/
theorem isValue_call (l : Location) (callee : Expr) {arguments : List Expr}
    (hargs : ∀ a ∈ arguments, ∃ b, expression? a = some b ∧ IsValue b) :
    ∃ b, expression? (.call l callee arguments) = some b ∧ IsValue b := by
  obtain ⟨b, hb⟩ : ∃ b, expression? (.call l callee arguments) = some b := by
    rw [expression?.eq_def]
    dsimp only
    split <;> split <;> first
      | exact ⟨_, rfl⟩
      | (split <;> exact ⟨_, rfl⟩)
  refine ⟨b, hb, ?_⟩
  rcases Expr.expression?_call hb with ⟨_, id, type, names, -, hcall, -, rfl⟩ |
    ⟨type, hquery, -, rfl⟩ | rfl
  · obtain ⟨htype, hnames⟩ := valueCall?_inputs hcall
    exact ⟨htype, Block.isFilled_ofTexts _ _ (fits_inputs hnames hargs)⟩
  · obtain ⟨method, -, hmethod⟩ := Option.bind_eq_some_iff.mp hquery
    exact isValue_leaf _ (serialQuery?_type hmethod)
  · exact isValue_leaf _ rfl

/-- A proper expression becomes a block that has a value. -/
theorem exists_expression? {e : Expr} (h : e.Proper) :
    ∃ b, expression? e = some b ∧ IsValue b := by
  induction h with
  | name => exact ⟨_, rfl, isValue_leaf _ rfl⟩
  | pin => exact ⟨_, rfl, isValue_leaf _ rfl⟩
  | number => exact ⟨_, rfl, isValue_literal _ _⟩
  | string => exact ⟨_, rfl, isValue_literal _ _⟩
  | constant => exact ⟨_, rfl, isValue_literal _ _⟩
  | member => exact ⟨_, rfl, isValue_leaf _ rfl⟩
  | call l hcallee hargs ih ihs => exact isValue_call l _ ihs
  | step => exact ⟨_, by rw [expression?, if_neg (by simp)], isValue_raw _⟩
  | leading l hop hsymbol hoperand ih =>
      obtain ⟨b, hb, hvalue⟩ := ih
      rw [expression?, hb]
      split
      · refine ⟨_, rfl, rfl, Block.isFilled_ofTexts _ _ (List.forall_mem_singleton.mpr ?_)⟩
        exact Input.fits_value (by decide) hvalue.1 hvalue.2
      · exact ⟨_, rfl, isValue_raw _⟩
  | binary l hlow hhigh hsymbol hleft hright ihl ihr =>
      obtain ⟨b, hb, hvalue⟩ := ihl
      obtain ⟨b', hb', hvalue'⟩ := ihr
      rw [expression?, hb, hb']
      split
      · rename_i hoperator
        refine ⟨_, rfl, operator?_type hoperator, Block.isFilled_ofTexts _ _ ?_⟩
        simp only [valueInput, List.forall_mem_cons]
        exact ⟨Input.fits_value (by decide) hvalue.1 hvalue.2,
          Input.fits_value (by decide) hvalue'.1 hvalue'.2, by simp⟩
      · exact ⟨_, rfl, isValue_raw _⟩
  | assign => exact ⟨_, rfl, isValue_raw _⟩

/-! ## Statements -/

/-- A conversion succeeds, and what it gives has a property. -/
def Converts {α : Type} (x : Convert α) (p : α → Prop) : Prop :=
  ∃ a, x = .ok a ∧ p a

namespace Converts

variable {α β : Type} {x : Convert α} {f : α → Convert β} {p : α → Prop} {q : β → Prop}

theorem ok {a : α} (h : p a) : Converts (.ok a) p :=
  ⟨a, rfl, h⟩

theorem bind (hx : Converts x p) (hf : ∀ a, p a → Converts (f a) q) : Converts (x >>= f) q := by
  obtain ⟨a, rfl, ha⟩ := hx
  exact hf a ha

end Converts

theorem converts_raw {e : Expr} (h : e.Proper) : Converts (raw e) IsStep := by
  rw [raw, checked, h.sourceFault?_eq_none]
  exact .ok ⟨rfl, Block.isFilled_ofTexts _ _ (by simp)⟩

theorem converts_valueIn {name : String} {e : Expr} (hname : Input.isBodyName name = false)
    (h : e.Proper) : Converts (valueIn name e) Input.Fits := by
  obtain ⟨b, hb, hvalue⟩ := exists_expression? h
  rw [valueIn, value?, checked, h.sourceFault?_eq_none]
  refine .ok ?_
  rw [hb]
  exact Input.fits_value hname hvalue.1 hvalue.2

theorem converts_valuesIn {names : List String} {es : List Expr}
    (hnames : ∀ name ∈ names, Input.isBodyName name = false) (hes : ∀ e ∈ es, e.Proper) :
    Converts (valuesIn names es) fun is => ∀ i ∈ is, i.Fits := by
  induction names generalizing es with
  | nil => exact .ok (by simp)
  | cons name names ih =>
      cases es with
      | nil => exact .ok (by simp)
      | cons e es =>
          obtain ⟨hname, hnames⟩ := List.forall_mem_cons.mp hnames
          obtain ⟨he, hes⟩ := List.forall_mem_cons.mp hes
          refine (converts_valueIn hname he).bind fun i hi => (ih hnames hes).bind fun is his => ?_
          exact .ok (List.forall_mem_cons.mpr ⟨hi, his⟩)

theorem converts_single {type name : String} {e : Expr} (fields : List (String × String))
    (htype : ((Statement.template? type).isSome || (Value.template? type).isSome) = true)
    (hname : Input.isBodyName name = false) (h : e.Proper) :
    Converts (do return Block.ofTexts type fields [← valueIn name e]) IsStep :=
  (converts_valueIn hname h).bind fun _ hi =>
    .ok ⟨htype, Block.isFilled_ofTexts _ _ (List.forall_mem_singleton.mpr hi)⟩

theorem statementCall?_inputs {id type : String} {names : List String}
    (h : statementCall? id = some (type, names)) :
    ((Statement.template? type).isSome || (Value.template? type).isSome) = true ∧
      ∀ name ∈ names, Input.isBodyName name = false := by
  unfold statementCall? at h
  split at h
  · cases h
    exact ⟨rfl, by decide⟩
  · cases h
    exact ⟨rfl, by decide⟩
  · cases h
  · cases h
  · obtain ⟨htype, hnames⟩ := valueCall?_inputs h
    exact ⟨by rw [htype, Bool.or_true], hnames⟩

theorem converts_namedCall {whole : Expr} {arguments : List Expr} (name : String)
    (hwhole : whole.Proper) (hargs : ∀ a ∈ arguments, a.Proper) :
    Converts (namedCall whole name arguments) IsStep := by
  unfold namedCall
  split
  · split
    · exact converts_single _ rfl (by decide) (hargs _ (by simp))
    · exact converts_raw hwhole
  · split
    · exact converts_single _ rfl (by decide) (hargs _ (by simp))
    · exact converts_raw hwhole
  · exact .ok ⟨rfl, Block.isFilled_ofTexts _ _ (by simp)⟩
  · exact .ok ⟨rfl, Block.isFilled_ofTexts _ _ (by simp)⟩
  · split
    · rename_i type names hcall
      obtain ⟨htype, hnames⟩ := statementCall?_inputs hcall
      split
      · exact (converts_valuesIn hnames hargs).bind fun is his =>
          .ok ⟨htype, Block.isFilled_ofTexts _ _ his⟩
      · exact converts_raw hwhole
    · exact converts_raw hwhole

theorem converts_serialCall {whole : Expr} {arguments : List Expr} (method : String)
    (hwhole : whole.Proper) (hargs : ∀ a ∈ arguments, a.Proper) :
    Converts (serialCall whole method arguments) IsStep := by
  unfold serialCall
  split
  · exact converts_single _ rfl (by decide) (hargs _ (by simp))
  · exact converts_single _ rfl (by decide) (hargs _ (by simp))
  · exact converts_single _ rfl (by decide) (hargs _ (by simp))
  · split
    · rename_i type hquery
      refine .ok ⟨?_, Block.isFilled_ofTexts _ _ (by simp)⟩
      have htype := serialQuery?_type hquery
      rw [Block.isCoded, Block.hasValue]
      exact Bool.or_eq_true_iff.mpr (Or.inr htype)
    · exact converts_raw hwhole
  · exact converts_raw hwhole

theorem converts_effect {e : Expr} (h : e.Proper) : Converts (effect e) IsStep := by
  unfold effect
  split
  · cases h with
    | call _ hcallee hargs => exact converts_namedCall _ (.call _ hcallee hargs) hargs
  · split
    · cases h with
      | call _ hcallee hargs => exact converts_serialCall _ (.call _ hcallee hargs) hargs
    · exact converts_raw h
  · cases h with
    | assign l hop hsymbol hleft hright => exact converts_single _ rfl (by decide) hright
  · exact converts_raw h

theorem isEmpty_of_proper {e : Expr} (h : e.Proper) : e.isEmpty = false := by
  cases h <;> rfl

theorem converts_declaration {e : Expr} (type name : String) (h : e.ProperIfAny) :
    Converts (declaration type name e) fun b => IsStep b ∧
      (b.type = "variables_declare" ∨ b.type = "variables_define") := by
  unfold declaration
  rcases h with rfl | h
  · exact .ok ⟨⟨rfl, Block.isFilled_ofTexts _ _ (by simp)⟩, Or.inl rfl⟩
  · rw [if_neg (by rw [isEmpty_of_proper h]; decide)]
    refine (converts_valueIn (by decide) h).bind fun i hi => .ok ⟨⟨rfl, ?_⟩, Or.inr rfl⟩
    exact Block.isFilled_ofTexts _ _ (List.forall_mem_singleton.mpr hi)

/-! ## Loops -/

theorem converts_checked {e : Expr} (h : e.ProperIfAny) : Converts (checked e) fun _ => True := by
  rw [checked]
  rcases h with rfl | h
  · exact .ok trivial
  · rw [h.sourceFault?_eq_none]
    exact .ok trivial

theorem converts_loopHeader {init : Node} {test update : Expr} (hinit : init.IsInit)
    (htest : test.ProperIfAny) (hupdate : update.ProperIfAny) :
    Converts (loopHeader init test update) fun _ => True := by
  unfold loopHeader
  rw [hinit.sourceFault?_eq_none]
  exact (converts_checked htest).bind fun _ _ => (converts_checked hupdate).bind fun _ _ => .ok trivial

theorem proper_of_repetitions? {init : Node} {test update bound : Expr}
    (htest : test.ProperIfAny) (h : repetitions? init test update = some bound) :
    bound.Proper := by
  unfold repetitions? at h
  split at h
  · split at h
    · cases h
      rcases htest with htest | htest
      · cases htest
      · cases htest with
        | binary l hlow hhigh hsymbol hleft hright => exact hright
    · cases h
  · cases h

theorem converts_forLoop {init : Node} {test update : Expr} {body : Convert (List Block)}
    (hinit : init.IsInit) (htest : test.ProperIfAny) (hupdate : update.ProperIfAny)
    (hbody : Converts body fun bs => ∀ b ∈ bs, IsStep b) :
    Converts (forLoop init test update body) IsStep := by
  unfold forLoop
  split
  · rename_i bound hbound
    have hproper := proper_of_repetitions? htest hbound
    obtain ⟨b, hb, hvalue⟩ := exists_expression? hproper
    have htimes : Converts (timesInput bound) Input.Fits := by
      rw [timesInput, value?, checked, hproper.sourceFault?_eq_none]
      refine .ok ?_
      rw [hb]
      exact Input.fits_value (by decide) hvalue.1 hvalue.2
    refine htimes.bind fun times htimes => hbody.bind fun bs hbs =>
      .ok ⟨rfl, Block.isFilled_ofTexts _ _ ?_⟩
    exact List.forall_mem_cons.mpr ⟨htimes,
      List.forall_mem_singleton.mpr (Input.fits_chain (by decide) hbs)⟩
  · refine (converts_loopHeader hinit htest hupdate).bind fun header _ => hbody.bind fun bs hbs =>
      .ok ⟨rfl, Block.isFilled_ofTexts _ _ ?_⟩
    exact List.forall_mem_singleton.mpr (Input.fits_chain (by decide) hbs)

theorem converts_whileLoop {test : Expr} {body : Convert (List Block)} (htest : test.Proper)
    (hbody : Converts body fun bs => ∀ b ∈ bs, IsStep b) :
    Converts (whileLoop test body) IsStep := by
  refine (converts_valueIn (by decide) htest).bind fun i hi => hbody.bind fun bs hbs =>
    .ok ⟨rfl, Block.isFilled_ofTexts _ _ ?_⟩
  exact List.forall_mem_cons.mpr ⟨hi,
    List.forall_mem_singleton.mpr (Input.fits_chain (by decide) hbs)⟩

theorem converts_arm {test : Expr} {body : Convert (List Block)} (number : Nat)
    (htest : test.Proper) (hbody : Converts body fun bs => ∀ b ∈ bs, IsStep b) :
    Converts (arm number test body) fun is => ∀ i ∈ is, i.Fits := by
  refine (converts_valueIn (Input.isBodyName_condition _) htest).bind fun i hi =>
    hbody.bind fun bs hbs => .ok ?_
  exact List.forall_mem_cons.mpr ⟨hi,
    List.forall_mem_singleton.mpr (Input.fits_chain (Input.isBodyName_arm _) hbs)⟩

/-! ## Bodies -/

/-- A part converts in both places it may stand in. -/
structure PartConverts (p : Part) : Prop where
  body : Converts (p.body ()) fun bs => ∀ b ∈ bs, IsStep b
  arms : ∀ number, Converts (p.arms number) fun is => ∀ i ∈ is, i.Fits

namespace PartConverts

theorem ofBody {body : Unit → Convert (List Block)}
    (h : Converts (body ()) fun bs => ∀ b ∈ bs, IsStep b) : PartConverts (Part.ofBody body) where
  body := h
  arms _ := h.bind fun _ hbs =>
    .ok (List.forall_mem_singleton.mpr (Input.fits_chain (by decide) hbs))

theorem ofBlock {block : Unit → Convert Block} (h : Converts (block ()) IsStep) :
    PartConverts (Part.ofBlock block) :=
  ofBody (h.bind fun _ hb => .ok (List.forall_mem_singleton.mpr hb))

theorem ofArms {arms : Nat → Convert (List Input)}
    (h : ∀ number, Converts (arms number) fun is => ∀ i ∈ is, i.Fits) :
    PartConverts (Part.ofArms arms) where
  body := (h 0).bind fun _ his =>
    .ok (List.forall_mem_singleton.mpr ⟨rfl, Block.isFilled_ofTexts _ _ his⟩)
  arms := h

theorem empty : PartConverts (part .empty) where
  body := .ok (by simp)
  arms _ := .ok (by simp)

theorem of_ne_empty {n : Node} (h : n ≠ .empty → PartConverts (part n)) :
    PartConverts (part n) := by
  by_cases hn : n = .empty
  · exact hn ▸ empty
  · exact h hn

end PartConverts

theorem isEmpty_of_isStatement {n : Node} (h : n.IsStatement) : n.isEmpty = false := by
  cases h <;> rfl

theorem converts_statements {ns : List Node} (h : ∀ n ∈ ns, n.IsStatement ∧ PartConverts (part n)) :
    Converts (statements ns) fun bs => ∀ b ∈ bs, IsStep b := by
  induction ns with
  | nil => exact .ok (by simp)
  | cons n ns ih =>
      obtain ⟨⟨hn, hpart⟩, hns⟩ := List.forall_mem_cons.mp h
      have hrest : ∀ first, (∀ b ∈ first, IsStep b) →
          Converts (do return first ++ (← statements ns)) fun bs => ∀ b ∈ bs, IsStep b :=
        fun first hfirst => (ih hns).bind fun rest hrest =>
          .ok (List.forall_mem_append.mpr ⟨hfirst, hrest⟩)
      rw [statements, isEmpty_of_isStatement hn, if_neg Bool.false_ne_true]
      cases n.isBlock with
      | true => exact (Converts.ok (by simp)).bind hrest
      | false => exact hpart.body.bind hrest

/-- Every statement converts, in either place it may stand in. -/
theorem converts_part {n : Node} (h : n.IsStatement) : PartConverts (part n) := by
  induction h with
  | effect l h =>
      rw [part]
      exact .ofBlock (converts_effect h)
  | exit l h =>
      rw [part]
      exact .ofBody (.ok (by simp))
  | declaration l type name h =>
      rw [part]
      refine .ofBlock ?_
      obtain ⟨b, hb, hstep, -⟩ := converts_declaration type name h
      exact ⟨b, hb, hstep⟩
  | block l h ih =>
      rw [part]
      exact .ofBody (converts_statements fun n hn => ⟨h n hn, ih n hn⟩)
  | branch l htest hthen helse ihthen ihelse =>
      rw [part]
      refine .ofArms fun number => ?_
      refine (converts_arm number htest (PartConverts.of_ne_empty ihthen).body).bind
        fun first hfirst => ?_
      exact ((PartConverts.of_ne_empty ihelse).arms (number + 1)).bind fun rest hrest =>
        .ok (List.forall_mem_append.mpr ⟨hfirst, hrest⟩)
  | forLoop l hinit htest hupdate hbody ih =>
      rw [part]
      exact .ofBlock (converts_forLoop hinit htest hupdate (PartConverts.of_ne_empty ih).body)
  | whileLoop l htest hbody ih =>
      rw [part]
      exact .ofBlock (converts_whileLoop htest (PartConverts.of_ne_empty ih).body)

/-! ## Programs -/

theorem converts_takeUp {done : Converted} (hdone : IsFilledWorkspace done.workspace) {n : Node}
    (hn : n.IsTopLevel) : Converts (takeUp done n) fun c => IsFilledWorkspace c.workspace := by
  cases hn with
  | function l name type ps hbody =>
      rw [takeUp]
      split
      · exact (converts_part hbody).body.bind fun bs hbs => .ok { hdone with setup := hbs }
      · split
        · exact (converts_part hbody).body.bind fun bs hbs => .ok { hdone with loop := hbs }
        · exact .ok hdone
  | declaration l type name h =>
      rw [takeUp]
      refine (converts_declaration type name h).bind fun b hb => .ok ⟨hdone.setup, hdone.loop, ?_⟩
      exact List.forall_mem_append.mpr ⟨hdone.globals, List.forall_mem_singleton.mpr ⟨hb.2, hb.1.2⟩⟩

theorem converts_ofProgram {p : Program} (h : ∀ n ∈ p.body, n.IsTopLevel) :
    Converts (ofProgram p) fun c => IsFilledWorkspace c.workspace := by
  have hfold : ∀ (ns : List Node) (done : Converted), (∀ n ∈ ns, n.IsTopLevel) →
      IsFilledWorkspace done.workspace →
      Converts (ns.foldlM takeUp done) fun c => IsFilledWorkspace c.workspace := by
    intro ns
    induction ns with
    | nil => exact fun done _ hdone => .ok hdone
    | cons n ns ih =>
        intro done hns hdone
        obtain ⟨hn, hns⟩ := List.forall_mem_cons.mp hns
        rw [List.foldlM_cons]
        exact (converts_takeUp hdone hn).bind fun c hc => ih c hns hc
  exact hfold p.body {} h ⟨by simp, by simp, by simp⟩

end Blocks

theorem Code.IsFilledWorkspace.roots {w : Workspace} (h : IsFilledWorkspace w) :
    ∀ b ∈ Block.walkAll w.roots, ∀ i ∈ b.inputs, i.isFilled = true := by
  have hregion : ∀ {type name : String} {bs : List Block}, Input.isBodyName name = true →
      (∀ b ∈ bs, b.isCoded = true ∧ b.IsFilled) →
      (Block.ofTexts type [] [.chain name bs]).IsFilled := fun hname hbs =>
    Block.isFilled_ofTexts _ _ (List.forall_mem_singleton.mpr (Input.fits_chain hname hbs))
  refine Block.forall_mem_walkAll (List.forall_mem_cons.mpr ⟨?_, List.forall_mem_cons.mpr ⟨?_, ?_⟩⟩)
  · exact hregion (by decide) h.setup
  · exact hregion (by decide) h.loop
  · exact fun b hb => (h.globals b hb).2

end InoBlocks
