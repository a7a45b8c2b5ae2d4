import InoBlocks.Proofs.Code.Traces

/-!
# Simple statements say their traces

Whatever block an expression by itself becomes, and whatever block a declaration becomes, its code
has the names that the trace of the statement gives, and assigns no other variables.  The lines of a
statement are taken wherever they may stand, since only the variables of counted loops depend on the
place.
-/

namespace InoBlocks

open Word Code

namespace Code

/-! ## What generating says -/

/-- Names that are assigned are variables in a trace, made safe. -/
def AssignsIn (xs : List String) (t : Trace) : Prop :=
  ∀ x ∈ xs, ∃ id, Mark.name (Occurrence.safe id) ∈ t ∧ x = safeName id unnamed

/-- Generating gives something that is read as words that say a trace, and assigns only variables
in it. -/
def GivesTrace {α : Type} (Reads : α → List Word → Prop) (g : Gen α) (t : Trace) : Prop :=
  ∃ a ws xs ys, Gives g a xs ys ∧ Reads a ws ∧ Marked ws t.spelled ∧ AssignsIn xs t

namespace AssignsIn

variable {xs ys : List String} {t u : Trace}

theorem nil (t : Trace) : AssignsIn [] t :=
  nofun

theorem mono (h : AssignsIn xs t) (hsub : ∀ m ∈ t, m ∈ u) : AssignsIn xs u := fun x hx =>
  let ⟨id, hid, hname⟩ := h x hx
  ⟨id, hsub _ hid, hname⟩

theorem append (h : AssignsIn xs t) (h' : AssignsIn ys u) : AssignsIn (xs ++ ys) (t ++ u) :=
  List.forall_mem_append.mpr ⟨h.mono fun _ => List.mem_append_left u,
    h'.mono fun _ => List.mem_append_right t⟩

end AssignsIn

/-- The code of a block says a trace wherever it stands; the trace depends only on how many counted
loops are around it. -/
def Writes (b : Block) (t : Nat → Trace) : Prop :=
  ∀ p : Place, IsIndent p.indent → GivesTrace ReadsLine ((part b).statement p) (t p.loops)

/-- The code of several blocks says a trace wherever they stand. -/
def WritesAll (bs : List Block) (t : Nat → Trace) : Prop :=
  ∀ p : Place, IsIndent p.indent →
    GivesTrace LinesRead ((parts bs).mapM fun part => part.statement p) (t p.loops)

namespace WritesAll

variable {bs cs : List Block} {t u : Nat → Trace}

theorem nil : WritesAll [] fun _ => [] :=
  fun _ _ => ⟨[], [], [], [], .pure [], .nil, .nil, .nil _⟩

theorem one {b : Block} (h : Writes b t) : WritesAll [b] t := by
  intro p hp
  obtain ⟨text, ws, xs, ys, hgives, hreads, hmarked, hassigns⟩ := h p hp
  refine ⟨[text], ws, xs ++ [], ys ++ [], ?_, .one hreads, hmarked, ?_⟩
  · have hnone : Gives ((parts []).mapM fun part => part.statement p) [] [] [] := .pure []
    rw [parts, List.mapM_cons]
    exact hgives.bind (hnone.map _)
  · rwa [List.append_nil]

theorem append (h : WritesAll bs t) (h' : WritesAll cs u) :
    WritesAll (bs ++ cs) fun loops => t loops ++ u loops := by
  intro p hp
  obtain ⟨lines, ws, xs, ys, hgives, hreads, hmarked, hassigns⟩ := h p hp
  obtain ⟨lines', ws', xs', ys', hgives', hreads', hmarked', hassigns'⟩ := h' p hp
  refine ⟨lines ++ lines', ws ++ ws', xs ++ xs', ys ++ ys', ?_, hreads.append hreads', ?_,
    hassigns.append hassigns'⟩
  · rw [parts_eq_map, List.map_append, List.mapM_append, ← parts_eq_map, ← parts_eq_map]
    exact hgives.bind (hgives'.map _)
  · rw [Trace.spelled_append]
    exact hmarked.append hmarked'

/-- The lines of statements, those without text left out. -/
theorem statements (h : WritesAll bs t) {p : Place} (hp : IsIndent p.indent) :
    GivesTrace ReadsLine (Shape.statements p (parts bs)) (t p.loops) := by
  obtain ⟨lines, ws, xs, ys, hgives, hreads, hmarked, hassigns⟩ := h p hp
  refine ⟨_, ws, xs, ys, hgives.map _, ?_, hmarked, hassigns⟩
  refine LinesRead.joinLines ?_
  clear hgives hmarked
  induction hreads with
  | nil => exact .nil
  | @cons line lines ws vs hline _ ih =>
      rw [List.filter_cons]
      split
      · exact .cons hline ih
      · rename_i hempty
        obtain rfl : line = "" := by simpa using hempty
        have hwords : ([] : List Word) = ws := hline.words_eq
        rw [← hwords]
        exact ih

end WritesAll

/-! ## Effects -/

/-- A block whose code is a snippet with a semicolon. -/
theorem writes_snippet {b : Block} {s : Snippet} (hs : s.IsTold) {xs : List String}
    (hassigns : AssignsIn xs (.ofNames s.names)) (ys : List String)
    (hgives : ∀ p, Gives ((part b).statement p) (Statement.line p (s.text ++ ";")) xs ys) :
    Writes b fun _ => .ofNames s.names := by
  obtain ⟨ws, hspelling, hcalm, hnames⟩ := hs
  intro p hp
  refine ⟨_, _, xs, ys, hgives p, readsLine_line hp (.of_alone (reads_semicolon hspelling)), ?_,
    hassigns⟩
  rw [Trace.spelled_ofNames, ← hnames]
  exact hcalm.marked.concat_none rfl rfl

/-- Raw text ends with a semicolon of its own or gets one. -/
theorem writes_raw {e : Expr} (h : e.Proper) :
    Writes (.rawStatement e.source) fun _ => .ofNames e.asRaw.names := by
  obtain ⟨ws, hspelling, hcalm, hnames⟩ := h.source_tells
  have hmarked : Marked ws (Trace.ofNames e.asRaw.names).spelled := by
    rw [Trace.spelled_ofNames, Expr.asRaw, Expr.inRaw, Occurrence.map_spelling_raw, ← hnames]
    exact hcalm.marked
  intro p hp
  rw [Block.rawStatement, part_statement (by decide) rfl]
  change GivesTrace ReadsLine (if Text.trimmed e.source == "" then pure "" else
    pure (Statement.line p (if Statement.isClosed (Text.trimmed e.source) then
      Text.trimmed e.source else Text.trimmed e.source ++ ";"))) _
  rw [hspelling.trimmed_eq, if_neg (by simpa using hspelling.ne_empty)]
  split
  · have hfeed : ReadsAlone ['\n'] [] := .layout (by decide) _
    have hline : ReadsLine e.source ws := by
      have hall := hspelling.reads.append_cons hfeed (by decide)
      rwa [List.append_nil] at hall
    exact ⟨_, ws, [], [], .pure _, readsLine_line hp hline, hmarked, .nil _⟩
  · exact ⟨_, _, [], [], .pure _, readsLine_line hp (.of_alone (reads_semicolon hspelling)),
      hmarked.concat_none rfl rfl, .nil _⟩

theorem exists_valueIn {e : Expr} (h : e.Proper) : ∃ b, Blocks.expression? e = some b ∧
    Gives (part b).value e.coded [] [] ∧
    ∀ name, Blocks.valueIn name e = .ok (.value name b) := by
  obtain ⟨b, hb, hgives⟩ := h.givesCoded
  refine ⟨b, hb, hgives, fun name => ?_⟩
  rw [Blocks.valueIn, Blocks.value?, Blocks.checked, h.sourceFault?_eq_none, hb]
  rfl

theorem valuesIn_eq {names : List String} {es : List Expr} (h : ∀ e ∈ es, e.Proper) :
    Blocks.valuesIn names es = .ok (Blocks.inputs names es) := by
  induction names generalizing es with
  | nil => cases es <;> rfl
  | cons name names ih =>
      cases es with
      | nil => rfl
      | cons e es =>
          obtain ⟨he, hes⟩ := List.forall_mem_cons.mp h
          obtain ⟨b, hb, -, hvalue⟩ := exists_valueIn he
          rw [Blocks.valuesIn, hvalue, ih hes, Blocks.inputs, hb]
          rfl

theorem raw_eq {e : Expr} (h : e.Proper) : Blocks.raw e = .ok (.rawStatement e.source) := by
  rw [Blocks.raw, Blocks.checked, h.sourceFault?_eq_none]
  rfl

/-- An expression that becomes a block by itself, whose code says the names of a snippet. -/
def Becomes (x : Blocks.Convert Block) (s : Snippet) : Prop :=
  ∃ b, x = .ok b ∧ Writes b fun _ => .ofNames s.names

theorem becomes_raw {e : Expr} (h : e.Proper) : Becomes (Blocks.raw e) e.asRaw :=
  ⟨_, raw_eq h, writes_raw h⟩

section Calls

variable {l l' : Location} {id : String} {arguments : List Expr}
  (h : (Expr.call l (.name l' id) arguments).Proper)

include h

theorem becomes_of_effectArguments? {snippets : List Snippet}
    (hsnippets : Expr.effectArguments? id arguments = some snippets) {b : Block}
    (hb : Blocks.namedCall (.call l (.name l' id) arguments) id arguments = .ok b)
    (hgives : ∀ p, Gives ((part b).statement p)
      (Statement.callLine p id (snippets.map Snippet.text)) [] []) :
    Becomes (Blocks.namedCall (.call l (.name l' id) arguments) id arguments)
      (Expr.call l (.name l' id) arguments).asEffect := by
  have htold := h.asEffect_isTold
  rw [Expr.asEffect, hsnippets] at htold ⊢
  exact ⟨b, hb, writes_snippet htold (.nil _) [] hgives⟩

theorem becomes_raw_call (hnone : Expr.effectArguments? id arguments = none)
    (hcall : ((Blocks.statementCall? id).any fun call => arguments.length == call.2.length) = false)
    (hb : Blocks.namedCall (.call l (.name l' id) arguments) id arguments =
      Blocks.raw (.call l (.name l' id) arguments)) :
    Becomes (Blocks.namedCall (.call l (.name l' id) arguments) id arguments)
      (Expr.call l (.name l' id) arguments).asEffect := by
  rw [Expr.asEffect, hnone, hb, hcall]
  exact becomes_raw h

omit h in
theorem proper_arguments (h : (Expr.call l (.name l' id) arguments).Proper) :
    ∀ a ∈ arguments, a.Proper := by
  cases h with
  | call _ _ hargs => exact hargs

omit h in
/-- A call with a pin and a constant becomes a block if the constant is one of those that a field of
the block may hold. -/
theorem becomes_setting {pin choice : Expr} (h : (Expr.call l (.name l' id) [pin, choice]).Proper)
    {type field : String} {allowed : String → Bool}
    (hsnippets : Expr.effectArguments? id [pin, choice] =
      ((Blocks.constant? choice).filter allowed).map fun s => [pin.asPin "13", ⟨s, []⟩])
    (hraw : ((Blocks.statementCall? id).any fun call =>
      [pin, choice].length == call.2.length) = false)
    (hcall : ∀ whole, Blocks.namedCall whole id [pin, choice] =
      ((Blocks.constant? choice).filter allowed).elim (Blocks.raw whole) fun s => do
        return .ofTexts type [(field, s)] [← Blocks.valueIn "PIN" pin])
    (hcode : ∀ b s p, allowed s = true →
      (part (.ofTexts type [(field, s)] [.value "PIN" b])).statement p = do
        let text ← Shape.pin ⟨type, [(field, .text s)], slots [.value "PIN" b]⟩ "13"
        pure (Statement.callLine p id [text, s])) :
    Becomes (Blocks.namedCall (.call l (.name l' id) [pin, choice]) id [pin, choice])
      (Expr.call l (.name l' id) [pin, choice]).asEffect := by
  cases hs : (Blocks.constant? choice).filter allowed with
  | none =>
      refine becomes_raw_call h (by rw [hsnippets, hs]; rfl) hraw ?_
      rw [hcall, hs]
      rfl
  | some s =>
      obtain ⟨b, hb, hgives, hvalue⟩ := exists_valueIn (proper_arguments h pin (by simp))
      refine becomes_of_effectArguments? h (by rw [hsnippets, hs]; rfl)
        (b := .ofTexts type [(field, s)] [.value "PIN" b]) ?_ fun p => ?_
      · rw [hcall, hs, Option.elim_some, hvalue]
        rfl
      · let shape : Shape := ⟨type, [(field, .text s)], slots [.value "PIN" b]⟩
        have hpin := Expr.gives_pin (show shape.chain "PIN" = [part b] from rfl) hb hgives "13"
        rw [hcode b s p (Option.filter_eq_some_iff.mp hs).2]
        exact hpin.map _

theorem becomes_digitalWrite (hid : id = "digitalWrite") :
    Becomes (Blocks.namedCall (.call l (.name l' id) arguments) id arguments)
      (Expr.call l (.name l' id) arguments).asEffect := by
  subst hid
  rcases arguments with _ | ⟨pin, _ | ⟨state, _ | ⟨a, as⟩⟩⟩
  · exact becomes_raw_call h rfl rfl rfl
  · exact becomes_raw_call h rfl rfl rfl
  · refine becomes_setting h rfl rfl (Blocks.namedCall_digitalWrite · pin state)
      fun b s p hstate => ?_
    have hlevel : Statement.level (some s) = s := by
      simp only [Blocks.isState, Bool.or_eq_true, beq_iff_eq] at hstate
      rcases hstate with rfl | rfl <;> rfl
    exact congrArg (fun level => (do
      let text ← Shape.pin _ "13"
      pure (Statement.callLine p "digitalWrite" [text, level]) : Gen String)) hlevel
  · exact becomes_raw_call h rfl rfl rfl

theorem becomes_pinMode (hid : id = "pinMode") :
    Becomes (Blocks.namedCall (.call l (.name l' id) arguments) id arguments)
      (Expr.call l (.name l' id) arguments).asEffect := by
  subst hid
  rcases arguments with _ | ⟨pin, _ | ⟨mode, _ | ⟨a, as⟩⟩⟩
  · exact becomes_raw_call h rfl rfl rfl
  · exact becomes_raw_call h rfl rfl rfl
  · refine becomes_setting h rfl rfl (Blocks.namedCall_pinMode · pin mode) fun b m p hmode => ?_
    have hknown : ((some m).filter Statement.pinModes.contains).getD "OUTPUT" = m := by
      simp only [Blocks.isMode, Bool.or_eq_true, beq_iff_eq] at hmode
      rcases hmode with (rfl | rfl) | rfl <;> rfl
    exact congrArg (fun mode => (do
      let text ← Shape.pin _ "13"
      pure (Statement.callLine p "pinMode" [text, mode]) : Gen String)) hknown
  · exact becomes_raw_call h rfl rfl rfl

theorem becomes_pause (hid : id = "delay" ∨ id = "delayMicroseconds") :
    Becomes (Blocks.namedCall (.call l (.name l' id) arguments) id arguments)
      (Expr.call l (.name l' id) arguments).asEffect := by
  rcases hid with rfl | rfl
  all_goals
    rcases arguments with _ | ⟨a, _ | ⟨b, bs⟩⟩
    · exact becomes_raw_call h rfl rfl rfl
    · cases a with
      | literal l value text =>
          cases value with
          | number x => exact becomes_of_effectArguments? h rfl rfl fun p => .pure _
          | text t => exact becomes_raw_call h rfl rfl rfl
      | _ => exact becomes_raw_call h rfl rfl rfl
    · cases a with
      | literal l value text => cases value <;> exact becomes_raw_call h rfl rfl rfl
      | _ => exact becomes_raw_call h rfl rfl rfl

theorem becomes_analogWrite (hid : id = "analogWrite") :
    Becomes (Blocks.namedCall (.call l (.name l' id) arguments) id arguments)
      (Expr.call l (.name l' id) arguments).asEffect := by
  subst hid
  rcases arguments with _ | ⟨pin, _ | ⟨value, _ | ⟨a, as⟩⟩⟩
  · exact becomes_raw_call h rfl rfl rfl
  · exact becomes_raw_call h rfl rfl rfl
  · obtain ⟨b, hb, hgives, -⟩ := exists_valueIn (proper_arguments h pin (by simp))
    obtain ⟨b', hb', hgives', -⟩ := exists_valueIn (proper_arguments h value (by simp))
    refine becomes_of_effectArguments? h rfl
      (b := .ofTexts "arduino_analogwrite" [] [.value "PIN" b, .value "VALUE" b']) ?_ fun p => ?_
    · change (Blocks.valuesIn ["PIN", "VALUE"] [pin, value] >>= _) = _
      rw [valuesIn_eq (proper_arguments h), Blocks.inputs, Blocks.inputs, hb, hb']
      rfl
    · let s : Shape := ⟨"arduino_analogwrite", [], slots [.value "PIN" b, .value "VALUE" b']⟩
      have hpin := Expr.gives_pin (s := s) rfl hb hgives "9"
      have hnumber := Expr.gives_number (show s.chain "VALUE" = [part b'] from rfl) hb' hgives'
        "128" Shape.analogLimits
      exact hpin.bind (hnumber.map _)
  · exact becomes_raw_call h rfl rfl rfl

theorem becomes_randomSeed (hid : id = "randomSeed") :
    Becomes (Blocks.namedCall (.call l (.name l' id) arguments) id arguments)
      (Expr.call l (.name l' id) arguments).asEffect := by
  subst hid
  rcases arguments with _ | ⟨seed, _ | ⟨a, as⟩⟩
  · exact becomes_raw_call h rfl rfl rfl
  · obtain ⟨b, hb, hgives, -⟩ := exists_valueIn (proper_arguments h seed (by simp))
    refine becomes_of_effectArguments? h rfl
      (b := .ofTexts "arduino_random_seed" [] [.value "SEED" b]) ?_ fun p => ?_
    · change (Blocks.valuesIn ["SEED"] [seed] >>= _) = _
      rw [valuesIn_eq (proper_arguments h), Blocks.inputs, hb]
      rfl
    · exact (Shape.gives_unguarded (s := ⟨"arduino_random_seed", [], slots [.value "SEED" b]⟩) rfl
        hgives "0").map _
  · exact becomes_raw_call h rfl rfl rfl

/-- A call that is looked up has a block if its function has one with a value and as many inputs,
and it is no reading of a pin. -/
theorem becomes_lookup (hnone : Expr.effectArguments? id arguments = none)
    (hcall : Blocks.namedCall (.call l (.name l' id) arguments) id arguments =
      match Blocks.statementCall? id with
      | some (type, names) =>
          if arguments.length = names.length then do
            return .ofTexts type [] (← Blocks.valuesIn names arguments)
          else
            Blocks.raw (.call l (.name l' id) arguments)
      | none => Blocks.raw (.call l (.name l' id) arguments))
    (hvalue : ∀ call, Blocks.statementCall? id = some call → Blocks.valueCall? id = some call) :
    Becomes (Blocks.namedCall (.call l (.name l' id) arguments) id arguments)
      (Expr.call l (.name l' id) arguments).asEffect := by
  cases hstatement : Blocks.statementCall? id with
  | none =>
      rw [hstatement] at hcall
      exact becomes_raw_call h hnone (by rw [hstatement]; rfl) hcall
  | some call =>
      obtain ⟨type, names⟩ := call
      rw [hstatement] at hcall
      dsimp only at hcall
      by_cases hlength : arguments.length = names.length
      · have hblock : Blocks.expression? (.call l (.name l' id) arguments) =
            some (.ofTexts type [] (Blocks.inputs names arguments)) := by
          rw [Blocks.expression?.eq_def]
          simp only [hvalue _ hstatement]
          rw [if_pos hlength]
        obtain ⟨b, hb, hgives⟩ := h.givesCoded
        obtain rfl := Option.some.inj (hblock.symm.trans hb)
        obtain ⟨-, htype⟩ := valueCall?_type (hvalue _ hstatement)
        obtain ⟨hne, -, -, -, -⟩ := Expr.template?_of_valueCall? (hvalue _ hstatement)
        obtain ⟨template, htemplate⟩ :=
          Option.isSome_iff_exists.mp (Blocks.valueCall?_inputs (hvalue _ hstatement)).1
        rw [if_pos hlength, valuesIn_eq (proper_arguments h)] at hcall
        rw [Expr.asEffect, hnone, hstatement]
        refine ⟨_, hcall, ?_⟩
        rw [Option.any_some, beq_iff_eq.mpr hlength]
        refine writes_snippet h.asValue_isTold (.nil _) [] fun p => ?_
        rw [statement_of_value hne htype htemplate]
        exact hgives.map _
      · rw [if_neg hlength] at hcall
        refine becomes_raw_call h hnone ?_ hcall
        rw [hstatement, Option.any_some]
        exact beq_eq_false_iff_ne.mpr hlength

theorem becomes_namedCall :
    Becomes (Blocks.namedCall (.call l (.name l' id) arguments) id arguments)
      (Expr.call l (.name l' id) arguments).asEffect := by
  by_cases hwrite : id = "digitalWrite"
  · exact becomes_digitalWrite h hwrite
  by_cases hmode : id = "pinMode"
  · exact becomes_pinMode h hmode
  by_cases hpause : id = "delay" ∨ id = "delayMicroseconds"
  · exact becomes_pause h hpause
  by_cases hanalog : id = "analogWrite"
  · exact becomes_analogWrite h hanalog
  by_cases hseed : id = "randomSeed"
  · exact becomes_randomSeed h hseed
  rw [not_or] at hpause
  refine becomes_lookup h ?_ (Blocks.namedCall_other _ hwrite hmode hpause.1 hpause.2) ?_
  · unfold Expr.effectArguments?
    split
    · exact absurd rfl hwrite
    · exact absurd rfl hmode
    · exact absurd rfl hpause.1
    · exact absurd rfl hpause.2
    · exact absurd rfl hanalog
    · exact absurd rfl hseed
    · rfl
  · intro call hcall
    unfold Blocks.statementCall? at hcall
    split at hcall
    · exact absurd rfl hanalog
    · exact absurd rfl hseed
    · cases hcall
    · cases hcall
    · exact hcall

end Calls

section SerialCalls

variable {l l' l'' : Location} {method : String} {arguments : List Expr}
  (h : (Expr.call l (.member l' (.name l'' "Serial") method) arguments).Proper)

include h

theorem becomes_of_serialArguments? {snippets : List Snippet}
    (hsnippets : Expr.serialArguments? method arguments = some snippets)
    {x : Blocks.Convert Block} {b : Block} (hb : x = .ok b)
    (hgives : ∀ p, Gives ((part b).statement p)
      (Statement.callLine p ("Serial." ++ method) (snippets.map Snippet.text)) [] []) :
    Becomes x (Expr.call l (.member l' (.name l'' "Serial") method) arguments).asEffect := by
  have htold := h.asEffect_isTold
  rw [Expr.asEffect, hsnippets] at htold ⊢
  exact ⟨b, hb, writes_snippet htold (.nil _) [] hgives⟩

theorem becomes_raw_method (hnone : Expr.serialArguments? method arguments = none) :
    Becomes (Blocks.raw (.call l (.member l' (.name l'' "Serial") method) arguments))
      (Expr.call l (.member l' (.name l'' "Serial") method) arguments).asEffect := by
  rw [Expr.asEffect, hnone]
  exact becomes_raw h

/-- A question to the serial line, which has a value. -/
theorem becomes_query {type : String} (hquery : Blocks.serialQuery? method = some type)
    (harguments : arguments = []) (hnone : Expr.serialArguments? method arguments = none) :
    Becomes (.ok (.ofTexts type [] []))
      (Expr.call l (.member l' (.name l'' "Serial") method) arguments).asEffect := by
  subst harguments
  obtain ⟨hne, htype, template, htemplate⟩ : type ≠ "" ∧ Statement.template? type = none ∧
      ∃ template, Value.template? type = some template := by
    unfold Blocks.serialQuery? at hquery
    split at hquery <;> cases hquery <;> exact ⟨by decide, rfl, _, rfl⟩
  rw [Expr.asEffect, hnone]
  refine ⟨_, rfl, writes_snippet h.asRaw_isTold (.nil _) [] fun p => ?_⟩
  rw [statement_of_value hne htype htemplate, Expr.asRaw,
    Expr.source_of_query (by rw [hquery]; rfl)]
  exact (Expr.gives_query hquery).map _

omit h in
/-- A value that is printed, on a line of its own or not. -/
theorem becomes_print {e : Expr} {mode : String}
    (h : (Expr.call l (.member l' (.name l'' "Serial") method) [e]).Proper)
    (hmode : (mode, method) ∈ [("PRINT", "print"), ("PRINTLN", "println")]) :
    Becomes (do
        return .ofTexts "arduino_serial_print" [("MODE", mode)] [← Blocks.valueIn "TEXT" e])
      (Expr.call l (.member l' (.name l'' "Serial") method) [e]).asEffect := by
  have hargs : ∀ a ∈ [e], a.Proper := by
    cases h with
    | call _ _ hargs => exact hargs
  obtain ⟨b, hb, hgives, hvalue⟩ := exists_valueIn (hargs e List.mem_cons_self)
  let s : Shape := ⟨"arduino_serial_print", [("MODE", .text mode)], slots [.value "TEXT" b]⟩
  have hopen := Shape.gives_unguarded (show s.chain "TEXT" = [part b] from rfl) hgives "\"\""
  obtain ⟨hsnippets, hcode⟩ : Expr.serialArguments? method [e] = some [e.asValue] ∧
      ∀ p, Gives
        ((part (.ofTexts "arduino_serial_print" [("MODE", mode)] [.value "TEXT" b])).statement p)
        (Statement.callLine p ("Serial." ++ method) [e.asValue.text]) [] [] := by
    simp only [List.mem_cons, List.not_mem_nil, or_false, Prod.mk.injEq] at hmode
    rcases hmode with ⟨rfl, rfl⟩ | ⟨rfl, rfl⟩
    · exact ⟨rfl, fun p => hopen.map _⟩
    · exact ⟨rfl, fun p => hopen.map _⟩
  exact becomes_of_serialArguments? h hsnippets (by rw [hvalue]; rfl) hcode

theorem becomes_serialCall :
    Becomes (Blocks.serialCall (.call l (.member l' (.name l'' "Serial") method) arguments) method
      arguments) (Expr.call l (.member l' (.name l'' "Serial") method) arguments).asEffect := by
  have hargs : ∀ a ∈ arguments, a.Proper := by
    cases h with
    | call _ _ hargs => exact hargs
  unfold Blocks.serialCall
  split
  · rename_i e
    obtain ⟨b, hb, hgives, hvalue⟩ := exists_valueIn (hargs e (by simp))
    refine becomes_of_serialArguments? h rfl
      (b := .ofTexts "arduino_serial_begin" [] [.value "BAUD" b]) (by rw [hvalue]; rfl) fun p => ?_
    exact (Expr.gives_number (s := ⟨"arduino_serial_begin", [], slots [.value "BAUD" b]⟩) rfl hb
      hgives "9600" .natural).map _
  · exact becomes_print h (by simp)
  · exact becomes_print h (by simp)
  · have hnone : Expr.serialArguments? method [] = none := by
      unfold Expr.serialArguments?
      split <;> first | rfl | contradiction
    split
    · rename_i type hquery
      exact becomes_query h hquery rfl hnone
    · exact becomes_raw_method h hnone
  · rename_i hbegin hprint hprintln
    refine becomes_raw_method h ?_
    unfold Expr.serialArguments?
    split
    · exact (hbegin _ rfl rfl).elim
    · exact (hprint _ rfl rfl).elim
    · exact (hprintln _ rfl rfl).elim
    · rfl

end SerialCalls

theorem becomes_assignment {l l' : Location} {id : String} {right : Expr}
    (h : (Expr.assign l "=" (.name l' id) right).Proper) :
    Becomes (do return .ofTexts "variables_set" [("VAR", id)] [← Blocks.valueIn "VALUE" right])
      (Expr.assign l "=" (.name l' id) right).asEffect := by
  have hright : right.Proper := by
    cases h with
    | assign _ _ _ _ hright => exact hright
  obtain ⟨b, hb, hgives, hvalue⟩ := exists_valueIn hright
  have hassigns : AssignsIn [safeName id unnamed]
      (.ofNames (Expr.assign l "=" (.name l' id) right).asEffect.names) :=
    List.forall_mem_singleton.mpr ⟨id, List.mem_cons_self, rfl⟩
  refine ⟨.ofTexts "variables_set" [("VAR", id)] [.value "VALUE" b], by rw [hvalue]; rfl,
    writes_snippet h.asEffect_isTold hassigns [] fun p => ?_⟩
  rw [part_statement (by decide) rfl]
  let s : Shape := ⟨"variables_set", [("VAR", .text id)], slots [.value "VALUE" b]⟩
  have hopen := Shape.gives_unguarded (show s.chain "VALUE" = [part b] from rfl) hgives "0"
  exact (Gives.modify fun c => Leaves.assign c (safeName id unnamed)).bind (hopen.map _)

/-- Every proper expression by itself becomes a block, whose code has its names. -/
theorem becomes_effect {e : Expr} (h : e.Proper) : Becomes (Blocks.effect e) e.asEffect := by
  unfold Blocks.effect
  split
  · exact becomes_namedCall h
  · rename_i l callee arguments hname
    split
    · rename_i method hmethod
      obtain ⟨l', l'', rfl⟩ : ∃ l' l'', callee = .member l' (.name l'' "Serial") method := by
        unfold Blocks.serialMethod? at hmethod
        split at hmethod <;> cases hmethod
        exact ⟨_, _, rfl⟩
      exact becomes_serialCall h
    · rename_i hmethod
      have hraw : (Expr.call l callee arguments).asEffect =
          (Expr.call l callee arguments).asRaw := by
        unfold Expr.asEffect
        split
        · rename_i heq
          cases heq
          exact (hname _ _ rfl).elim
        · rename_i heq
          cases heq
          cases hmethod
        · rename_i heq
          cases heq
        · rfl
      exact hraw ▸ becomes_raw h
  · exact becomes_assignment h
  · rename_i hname hcall hassign
    have hraw : e.asEffect = e.asRaw := by
      unfold Expr.asEffect
      split
      · exact (hcall _ _ _ rfl).elim
      · exact (hcall _ _ _ rfl).elim
      · exact (hassign _ _ _ _ rfl).elim
      · rfl
    exact hraw ▸ becomes_raw h

/-! ## Declarations -/

theorem exists_declarationWords {name type text : String} (us : List Word) (os : List Occurrence)
    (htype : type ∈ Statement.variableTypes)
    (htext : Spelling text ([⟨.identifier, safeName name unnamed⟩] ++ us) true) (hcalm : Calm us)
    (hnames : names us = os.map Occurrence.spelling) :
    ∃ ws, ReadsLine (type ++ " " ++ text ++ ";") ws ∧
      Marked ws (Trace.spelled (.declares (.safe name) :: Trace.ofNames os)) := by
  obtain ⟨ts, hts, hreads⟩ := exists_typeWords htype
  have hne : ts ≠ [] := by cases hts <;> exact List.cons_ne_nil _ _
  have hall := hreads.seq (reads_semicolon htext)
  rw [← String.toList_append, ← String.append_assoc] at hall
  refine ⟨_, .of_alone hall, ?_⟩
  have hvalue := hcalm.marked
  rw [hnames, ← Trace.spelled_ofNames] at hvalue
  have hmarked := ((Marked.declared hne hts.kinds (safeName name unnamed)).append
    hvalue).concat_none (w := symbol .semicolon) rfl rfl
  rw [List.append_assoc, List.append_assoc] at hmarked
  rw [List.append_assoc]
  exact hmarked

/-- A block whose code is a declaration with a semicolon. -/
theorem writes_declaration {b : Block} {name type text : String} (us : List Word)
    (os : List Occurrence) (ys : List String) (htype : type ∈ Statement.variableTypes)
    (htext : Spelling text ([⟨.identifier, safeName name unnamed⟩] ++ us) true) (hcalm : Calm us)
    (hnames : names us = os.map Occurrence.spelling)
    (hgives : ∀ p, Gives ((part b).statement p)
      (Statement.line p (type ++ " " ++ text ++ ";")) [] ys) :
    Writes b fun _ => .declares (.safe name) :: Trace.ofNames os := by
  obtain ⟨ws, hreads, hmarked⟩ := exists_declarationWords us os htype htext hcalm hnames
  exact fun p hp => ⟨_, ws, [], ys, hgives p, readsLine_line hp hreads, hmarked, .nil _⟩

/-- Every declaration becomes a block, whose code declares the name made safe and has the names of
the value. -/
theorem exists_declaration (type name : String) {e : Expr} (h : e.ProperIfAny) :
    ∃ b, Blocks.declaration type name e = .ok b ∧
      Writes b fun _ => .declares (.safe name) :: Trace.ofNames e.coming := by
  have hsafe := isSafe_safeName name (show IsSafe unnamed by decide)
  rcases h with rfl | h
  · let s : Shape := ⟨"variables_declare", [("TYPE", .text type), ("VAR", .text name)], slots []⟩
    have htext : Spelling (safeName name unnamed) [⟨.identifier, safeName name unnamed⟩] true :=
      (Spelling.word hsafe.firm rfl rfl).pointed_true
    refine ⟨.ofTexts "variables_declare" [("TYPE", type), ("VAR", name)] [], rfl,
      writes_declaration [] [] [safeName name unnamed]
        (mem_variableTypes s) htext nofun rfl fun p => ?_⟩
    rw [part_statement (by decide) rfl]
    exact (Gives.modify fun c => Leaves.declare c (safeName name unnamed)).bind (.pure _)
  · obtain ⟨b, hb, hgives, hvalue⟩ := exists_valueIn h
    obtain ⟨ws, hspelling, hcalm, hnames⟩ := h.coded_tells
    let s : Shape := ⟨"variables_define", [("TYPE", .text type), ("VAR", .text name)],
      slots [.value "VALUE" b]⟩
    refine ⟨.ofTexts "variables_define" [("TYPE", type), ("VAR", name)] [.value "VALUE" b], ?_,
      writes_declaration (symbol .assign :: ws) e.coming [safeName name unnamed]
        (mem_variableTypes s) (spelling_assigned hsafe hspelling) (.cons rfl hcalm) ?_ fun p => ?_⟩
    · rw [Blocks.declaration, Blocks.isEmpty_of_proper h, hvalue]
      rfl
    · rw [names_cons, hnames]
      rfl
    · rw [part_statement (by decide) rfl]
      have hopen := Shape.gives_unguarded (show s.chain "VALUE" = [part b] from rfl) hgives "0"
      refine ((Gives.modify fun c => Leaves.declare c (safeName name unnamed)).bind
        (hopen.map _)).of_eq ?_
      simp only [String.append_assoc]
      rfl

end Code

end InoBlocks
