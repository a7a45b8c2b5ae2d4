import InoBlocks.Proofs.Code.FilledSketch
import InoBlocks.Proofs.Exchange.Named

/-!
# Sketches become named blocks

Every block that a sketch is converted to has names, of whatever nodes the sketch is made.
-/

namespace InoBlocks

namespace Blocks

open Block
open Input (AreNamed)

/-! ## Tables of blocks -/

theorem valueCall?_distinct {id type : String} {names : List String}
    (h : valueCall? id = some (type, names)) : DistinctNames type [] names := by
  unfold valueCall? at h
  split at h <;> cases h <;> decide

theorem statementCall?_distinct {id type : String} {names : List String}
    (h : statementCall? id = some (type, names)) : DistinctNames type [] names := by
  unfold statementCall? at h
  split at h
  · cases h
    decide
  · cases h
    decide
  · cases h
  · cases h
  · exact valueCall?_distinct h

theorem serialQuery?_distinct {method type : String} (h : serialQuery? method = some type) :
    DistinctNames type [] [] := by
  unfold serialQuery? at h
  split at h <;> cases h <;> decide

theorem operatorTables_distinct {table : String × List (String × String)}
    (h : table ∈ Block.operatorTables) : DistinctNames table.1 ["OP"] ["A", "B"] := by
  have hall : ∀ table ∈ Block.operatorTables, DistinctNames table.1 ["OP"] ["A", "B"] := by decide
  exact hall table h

theorem operator?_distinct {operator type name : String}
    (h : Block.operator? operator = some (type, name)) : DistinctNames type ["OP"] ["A", "B"] := by
  obtain ⟨table, htable, hname⟩ := List.exists_of_findSome?_eq_some h
  obtain ⟨_, -, hpair⟩ := Option.map_eq_some_iff.mp hname
  cases hpair
  exact operatorTables_distinct htable

/-! ## Expressions -/

theorem isNamed_rawExpression (code : String) : (Block.rawExpression code).IsNamed :=
  isNamed_leaf ["CODE"] (by decide) rfl

theorem isNamed_number (text : String) : (Block.number text).IsNamed :=
  isNamed_leaf ["NUM"] (by decide) rfl

theorem isNamed_truth (value : Bool) : (Block.truth value).IsNamed :=
  isNamed_leaf ["BOOL"] (by decide) rfl

theorem isNamed_variableGet (name : String) : (Block.variableGet name).IsNamed :=
  isNamed_leaf ["VAR"] (by decide) rfl

theorem isNamed_text (text : String) : (Block.ofTexts "text" [("TEXT", text)] []).IsNamed :=
  isNamed_leaf ["TEXT"] (by decide) rfl

theorem isNamed_literal (value : LiteralValue) (raw : String) : (literal value raw).IsNamed := by
  cases value with
  | number x => exact isNamed_number raw
  | text s =>
      rcases Expr.literal_cases s raw with ⟨-, h, -⟩ | ⟨-, ⟨truth, h, -⟩ | ⟨h, -⟩⟩ <;> rw [h]
      · exact isNamed_text s
      · exact isNamed_truth truth
      · exact isNamed_rawExpression raw

theorem areNamed_valueInput {is : List Input} {names : List String} (name : String)
    {b? : Option Block} (h : ∀ b ∈ b?, b.IsNamed) (his : AreNamed is names) :
    AreNamed (valueInput name b? :: is) (name :: names) := by
  cases b? with
  | none => exact his.cons fun b hb => nomatch hb
  | some b => exact his.value (h b rfl)

mutual

theorem isNamed_expression? (e : Expr) : ∀ b ∈ expression? e, b.IsNamed := by
  intro b hb
  match e with
  | .empty => cases hb
  | .name .. =>
      cases hb
      exact isNamed_variableGet _
  | .literal .. =>
      cases hb
      exact isNamed_literal _ _
  | .pin .. =>
      cases hb
      exact isNamed_rawExpression _
  | .member .. =>
      cases hb
      exact isNamed_rawExpression _
  | .assign .. =>
      cases hb
      exact isNamed_rawExpression _
  | .foreign .. =>
      cases hb
      exact isNamed_rawExpression _
  | .call l callee arguments =>
      rcases Expr.expression?_call hb with ⟨_, id, type, names, -, hcall, hlength, rfl⟩ |
        ⟨type, hquery, -, rfl⟩ | rfl
      · exact isNamed_ofTexts [] (valueCall?_distinct hcall) rfl
          (areNamed_inputs names arguments hlength)
      · obtain ⟨method, -, hmethod⟩ := Option.bind_eq_some_iff.mp hquery
        exact isNamed_leaf [] (serialQuery?_distinct hmethod) rfl
      · exact isNamed_rawExpression _
  | .unary l operator operand before =>
      rw [expression?] at hb
      split at hb <;> cases hb
      · exact isNamed_ofTexts [] (by decide) rfl
          (areNamed_valueInput "BOOL" (isNamed_expression? operand) .nil)
      · exact isNamed_rawExpression _
  | .binary l operator left right =>
      rw [expression?] at hb
      split at hb <;> cases hb
      · rename_i hoperator
        exact isNamed_ofTexts ["OP"] (operator?_distinct hoperator) rfl
          (areNamed_valueInput "A" (isNamed_expression? left)
            (areNamed_valueInput "B" (isNamed_expression? right) .nil))
      · exact isNamed_rawExpression _

theorem areNamed_inputs (names : List String) (es : List Expr) (h : es.length = names.length) :
    AreNamed (inputs names es) names := by
  match names, es with
  | [], [] => exact .nil
  | name :: names, e :: es =>
      exact areNamed_valueInput name (isNamed_expression? e)
        (areNamed_inputs names es (Nat.succ.inj h))

end

/-! ## Statements -/

/-- What a conversion gives, if it succeeds, has a property. -/
def Gets {α : Type} (x : Convert α) (p : α → Prop) : Prop :=
  ∀ a, x = .ok a → p a

namespace Gets

variable {α β : Type} {x : Convert α} {f : α → Convert β} {p : α → Prop} {q : β → Prop}

theorem ok {a : α} (h : p a) : Gets (.ok a) p := by
  rintro _ ⟨⟩
  exact h

theorem error {fault : ConvertFault} : Gets (.error fault) p := nofun

theorem bind (hx : Gets x p) (hf : ∀ a, p a → Gets (f a) q) : Gets (x >>= f) q := by
  cases x with
  | error fault => exact error
  | ok a => exact hf a (hx a rfl)

theorem after (hf : ∀ a, Gets (f a) q) : Gets (x >>= f) q :=
  bind (p := fun _ => True) (fun _ _ => trivial) fun a _ => hf a

end Gets

theorem gets_raw (e : Expr) : Gets (raw e) Block.IsNamed :=
  .after fun _ => .ok (isNamed_leaf ["CODE"] (by decide) rfl)

theorem gets_value? (e : Expr) : Gets (value? e) fun b? => ∀ b ∈ b?, b.IsNamed :=
  .after fun _ => .ok (isNamed_expression? e)

theorem gets_valueIn (name : String) (e : Expr) :
    Gets (valueIn name e) fun i => ∀ {is names}, AreNamed is names →
      AreNamed (i :: is) (name :: names) :=
  (gets_value? e).bind fun _ hb => .ok fun his => areNamed_valueInput name hb his

theorem gets_valuesIn (names : List String) (es : List Expr) (h : es.length = names.length) :
    Gets (valuesIn names es) fun is => AreNamed is names := by
  induction names generalizing es with
  | nil =>
      obtain rfl := List.length_eq_zero_iff.mp h
      exact .ok .nil
  | cons name names ih =>
      cases es with
      | nil => cases h
      | cons e es =>
          exact (gets_valueIn name e).bind fun _ hi => (ih es (Nat.succ.inj h)).bind fun _ his =>
            .ok (hi his)

theorem gets_single {type name : String} {fields : List (String × String)} (names : List String)
    (h : DistinctNames type names [name]) (hfields : fields.map Prod.fst = names) (e : Expr) :
    Gets (do return Block.ofTexts type fields [← valueIn name e]) Block.IsNamed :=
  (gets_valueIn name e).bind fun _ hi => .ok (isNamed_ofTexts names h hfields (hi .nil))

theorem gets_namedCall (whole : Expr) (name : String) (arguments : List Expr) :
    Gets (namedCall whole name arguments) Block.IsNamed := by
  unfold namedCall
  split
  · split
    · exact gets_single ["STATE"] (by decide) rfl _
    · exact gets_raw whole
  · split
    · exact gets_single ["MODE"] (by decide) rfl _
    · exact gets_raw whole
  · exact .ok (isNamed_leaf ["TIME"] (by decide) rfl)
  · exact .ok (isNamed_leaf ["TIME"] (by decide) rfl)
  · split
    · rename_i type names hcall
      split
      · rename_i hlength
        exact (gets_valuesIn names arguments hlength).bind fun is his =>
          .ok (isNamed_ofTexts [] (statementCall?_distinct hcall) rfl his)
      · exact gets_raw whole
    · exact gets_raw whole

theorem gets_serialCall (whole : Expr) (method : String) (arguments : List Expr) :
    Gets (serialCall whole method arguments) Block.IsNamed := by
  unfold serialCall
  split
  · exact gets_single [] (by decide) rfl _
  · exact gets_single ["MODE"] (by decide) rfl _
  · exact gets_single ["MODE"] (by decide) rfl _
  · split
    · rename_i type hquery
      exact .ok (isNamed_leaf [] (serialQuery?_distinct hquery) rfl)
    · exact gets_raw whole
  · exact gets_raw whole

theorem gets_effect (e : Expr) : Gets (effect e) Block.IsNamed := by
  unfold effect
  split
  · exact gets_namedCall _ _ _
  · split
    · exact gets_serialCall _ _ _
    · exact gets_raw _
  · exact gets_single ["VAR"] (by decide) rfl _
  · exact gets_raw e

theorem gets_declaration (type name : String) (value : Expr) :
    Gets (declaration type name value) Block.IsNamed := by
  unfold declaration
  split
  · exact .ok (isNamed_leaf ["TYPE", "VAR"] (by decide) rfl)
  · exact gets_single ["TYPE", "VAR"] (by decide) rfl _

/-! ## Bodies -/

/-- What a conversion gives is a chain of blocks with names. -/
abbrev GetsNamed (x : Convert (List Block)) : Prop :=
  Gets x fun bs => ∀ b ∈ bs, b.IsNamed

theorem gets_forLoop (init : Node) (test update : Expr) {body : Convert (List Block)}
    (hbody : GetsNamed body) : Gets (forLoop init test update body) Block.IsNamed := by
  unfold forLoop
  split
  · rename_i bound _
    have htimes : Gets (timesInput bound) fun i => ∀ {is names}, AreNamed is names →
        AreNamed (i :: is) ("TIMES" :: names) := by
      refine (gets_value? bound).bind fun b? hb => .ok fun his => his.value ?_
      cases b? with
      | none => exact isNamed_number "10"
      | some b => exact hb b rfl
    exact htimes.bind fun _ hi => hbody.bind fun _ hbs =>
      .ok (isNamed_ofTexts [] (by decide) rfl (hi (.chain hbs .nil)))
  · exact .after fun _ => hbody.bind fun _ hbs =>
      .ok (isNamed_ofTexts ["CODE"] (by decide) rfl (.chain hbs .nil))

theorem gets_whileLoop (test : Expr) {body : Convert (List Block)} (hbody : GetsNamed body) :
    Gets (whileLoop test body) Block.IsNamed :=
  (gets_valueIn "BOOL" test).bind fun _ hi => hbody.bind fun _ hbs =>
    .ok (isNamed_ofTexts ["MODE"] (by decide) rfl (hi (.chain hbs .nil)))

/-- A part gives blocks with names in both places it may stand in, and as the arms of a choice
inputs that are named as such. -/
structure IsNamedPart (p : Part) : Prop where
  body : GetsNamed (p.body ())
  arms : ∀ number, Gets (p.arms number) fun is =>
    ∃ names, Branch.Names number names ∧ AreNamed is names

namespace IsNamedPart

theorem ofBody {body : Unit → Convert (List Block)} (h : GetsNamed (body ())) :
    IsNamedPart (Part.ofBody body) where
  body := h
  arms number := h.bind fun _ hbs => .ok ⟨_, .otherwise number, .chain hbs .nil⟩

theorem ofBlock {block : Unit → Convert Block} (h : Gets (block ()) Block.IsNamed) :
    IsNamedPart (Part.ofBlock block) :=
  ofBody (h.bind fun _ hb => .ok (List.forall_mem_singleton.mpr hb))

theorem ofArms {arms : Nat → Convert (List Input)}
    (h : ∀ number, Gets (arms number) fun is =>
      ∃ names, Branch.Names number names ∧ AreNamed is names) :
    IsNamedPart (Part.ofArms arms) where
  body := (h 0).bind fun _ ⟨_, hnames, his⟩ =>
    .ok (List.forall_mem_singleton.mpr (isNamed_ofTexts [] hnames.distinct rfl his))
  arms := h

theorem absent : IsNamedPart ⟨fun _ => .ok [], fun _ => .ok []⟩ where
  body := .ok (by simp)
  arms number := .ok ⟨_, .none number, .nil⟩

end IsNamedPart

theorem gets_unconvertible {α : Type} {p : α → Prop} (n : Node) : Gets (unconvertible n) p :=
  .error

mutual

theorem isNamedPart (n : Node) : IsNamedPart (part n) := by
  match n with
  | .empty | .bare .empty => exact .absent
  | .effect _ value => exact .ofBlock (gets_effect value)
  | .declaration _ type name value => exact .ofBlock (gets_declaration type name value)
  | .forLoop _ init test update body =>
      exact .ofBlock (gets_forLoop init test update (isNamedPart body).body)
  | .whileLoop _ test body => exact .ofBlock (gets_whileLoop test (isNamedPart body).body)
  | .branch _ test consequent alternative =>
      refine .ofArms fun number => ?_
      -- The alternative goes on with the arms of the same choice, one number higher.
      have harm : Gets (arm number test ((part consequent).body ())) fun first =>
          ∀ {is names}, AreNamed is names → AreNamed (first ++ is)
            (Branch.condition number :: Branch.statements number :: names) :=
        (gets_valueIn _ test).bind fun _ hi => (isNamedPart consequent).body.bind fun _ hbs =>
          .ok fun his => hi (his.chain hbs)
      exact harm.bind fun _ hfirst => ((isNamedPart alternative).arms (number + 1)).bind
        fun _ ⟨_, hnames, his⟩ => .ok ⟨_, .arm number hnames, hfirst his⟩
  | .block _ body => exact .ofBody (gets_statements body)
  | .exit .. => exact .ofBody (.ok (by simp))
  | .program .. | .function .. | .parameter _ | .bare (.name ..) | .bare (.literal ..)
  | .bare (.pin ..) | .bare (.member ..) | .bare (.call ..) | .bare (.binary ..)
  | .bare (.unary ..) | .bare (.assign ..) | .bare (.foreign ..) =>
      exact .ofBody (gets_unconvertible _)

theorem gets_statements (ns : List Node) : GetsNamed (statements ns) := by
  match ns with
  | [] => exact .ok (by simp)
  | n :: ns =>
      have hfront : ∀ {x : Convert (List Block)}, GetsNamed x →
          GetsNamed (x >>= fun first => statements ns >>= fun rest => pure (first ++ rest)) :=
        fun hx => hx.bind fun _ hfirst => (gets_statements ns).bind fun _ hrest =>
          .ok (List.forall_mem_append.mpr ⟨hfirst, hrest⟩)
      rw [statements]
      split
      · exact hfront (gets_unconvertible n)
      · split
        · exact hfront (.ok (by simp))
        · exact hfront (isNamedPart n).body

end

/-! ## Programs -/

theorem gets_takeUp {done : Converted} (h : done.workspace.IsNamed) (n : Node) :
    Gets (takeUp done n) fun c => c.workspace.IsNamed := by
  unfold takeUp
  split
  · split
    · exact (isNamedPart _).body.bind fun _ hbs => .ok { h with setup := hbs }
    · split
      · exact (isNamedPart _).body.bind fun _ hbs => .ok { h with loop := hbs }
      · exact .ok h
  · refine (gets_declaration _ _ _).bind fun _ hb => .ok { h with globals := ?_ }
    exact List.forall_mem_append.mpr ⟨h.globals, List.forall_mem_singleton.mpr hb⟩
  · exact .ok h

theorem gets_ofProgram (p : Program) : Gets (ofProgram p) fun c => c.workspace.IsNamed := by
  have hfold : ∀ (ns : List Node) (done : Converted), done.workspace.IsNamed →
      Gets (ns.foldlM takeUp done) fun c => c.workspace.IsNamed := by
    intro ns
    induction ns with
    | nil => exact fun done hdone => .ok hdone
    | cons n ns ih =>
        intro done hdone
        rw [List.foldlM_cons]
        exact (gets_takeUp hdone n).bind ih
  exact hfold p.body {} ⟨by simp, by simp, by simp⟩

end Blocks

end InoBlocks
