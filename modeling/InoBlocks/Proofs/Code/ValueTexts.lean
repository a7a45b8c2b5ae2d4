import InoBlocks.Proofs.Check.NumeralText
import InoBlocks.Proofs.Check.Passage
import InoBlocks.Proofs.Code.Gives
import InoBlocks.Proofs.Sketch.SafeNames

/-!
# The texts of values

`Makes g p` says of a computation of code that whatever it returns has a property, and that what it
leaves behind stays neat: headers, lines of declarations, and names.  It holds of a sequence of
computations if it holds of each, so templates are taken one by one: every template of a value makes
the text of a value from the texts of its inputs, whatever its fields hold.
-/

namespace InoBlocks

namespace Code

open Check Text

/-! ## What generating makes -/

/-- A name of a sketch: characters of names, and not a number. -/
def IsName (name : String) : Prop :=
  (∀ c ∈ name.toList, isNameChar c = true) ∧ ∃ c ∈ name.toList, c.isDigit = false

/-- What has been collected can be put at the top of a sketch. -/
structure Neat (c : Context) : Prop where
  includes : ∀ header ∈ c.includes, header = mathHeader
  globals : ∀ line ∈ c.globals, Line 0 0 line
  functions : c.functions = []
  assigned : ∀ name ∈ c.assigned, IsName name

/-- Whatever a computation returns has a property, and what it leaves behind is neat. -/
def Makes {α : Type} (g : Gen α) (p : α → Prop) : Prop :=
  ∀ c a c', Neat c → g c = .ok (a, c') → p a ∧ Neat c'

namespace Makes

variable {α β : Type} {g : Gen α} {f : α → Gen β} {p : α → Prop} {r : β → Prop}

theorem pure {a : α} (h : p a) : Makes (Pure.pure a) p := by
  intro c b c' hc hrun
  cases hrun
  exact ⟨h, hc⟩

theorem bind (hg : Makes g p) (hf : ∀ a, p a → Makes (f a) r) : Makes (g >>= f) r := by
  intro c b c' hc hrun
  change (g c >>= fun result => f result.1 result.2) = _ at hrun
  cases hgc : g c with
  | error fault =>
      rw [hgc] at hrun
      cases hrun
  | ok result =>
      rw [hgc] at hrun
      obtain ⟨ha, hc₁⟩ := hg c result.1 result.2 hc hgc
      exact hf result.1 ha result.2 b c' hc₁ hrun

theorem map (hg : Makes g p) {k : α → β} (h : ∀ a, p a → r (k a)) :
    Makes (g >>= fun a => Pure.pure (k a)) r :=
  hg.bind fun a ha => pure (h a ha)

theorem malformed (message : String) (blockType : Option String) (p : α → Prop) :
    Makes (Code.malformed message blockType) p :=
  fun _ _ _ _ hrun => nomatch hrun

theorem modify {k : Context → Context} (h : ∀ c, Neat c → Neat (k c)) :
    Makes (modify k : Gen Unit) fun _ => True := by
  intro c a c' hc hrun
  cases hrun
  exact ⟨trivial, h c hc⟩

theorem mapM {k : α → Gen β} {xs : List α} (h : ∀ x ∈ xs, Makes (k x) r) :
    Makes (xs.mapM k) fun ys => ys.length = xs.length ∧ ∀ y ∈ ys, r y := by
  induction xs with
  | nil => exact pure ⟨rfl, fun y hy => nomatch hy⟩
  | cons x xs ih =>
      rw [List.mapM_cons]
      refine (h x List.mem_cons_self).bind fun y hy =>
        (ih fun z hz => h z (List.mem_cons_of_mem x hz)).map fun ys hys => ?_
      exact ⟨by rw [List.length_cons, hys.1, List.length_cons],
        List.forall_mem_cons.mpr ⟨hy, hys.2⟩⟩

end Makes

namespace Neat

variable {c : Context}

theorem addInclude (h : Neat c) : Neat (c.addInclude mathHeader) := by
  refine { h with includes := fun header hmem => ?_ }
  rcases mem_addNew.mp hmem with hmem | rfl
  · exact h.includes header hmem
  · rfl

theorem addVariable (h : Neat c) {line : String} (hline : Line 0 0 line) :
    Neat (c.addVariable line) := by
  refine { h with globals := fun other hmem => ?_ }
  rcases mem_addNew.mp hmem with hmem | rfl
  · exact h.globals other hmem
  · exact hline

theorem declare (h : Neat c) (name : String) : Neat (c.declare name) :=
  { h with }

theorem assign (h : Neat c) {name : String} (hname : IsName name) : Neat (c.assign name) := by
  refine { h with assigned := fun other hmem => ?_ }
  rcases mem_addNew.mp hmem with hmem | rfl
  · exact h.assigned other hmem
  · exact hname

theorem warn (h : Neat c) (message : String) : Neat (c.warn message) :=
  { h with }

end Neat

/-! ## Names -/

theorem isSimple_of_isNameChar {c : Char} (h : isNameChar c = true) : isSimple c = true := by
  have hmarks : ∀ d ∈ ['(', ')', '{', '}', ',', '/', '"', '\'', '\n'], isNameChar d = false := by
    decide
  have hc : c ∉ ['(', ')', '{', '}', ',', '/', '"', '\'', '\n'] := by
    intro hmem
    rw [hmarks c hmem] at h
    cases h
  simp only [List.mem_cons, List.not_mem_nil, or_false, not_or] at hc
  simp [isSimple, isPlain, isCode, hc]

theorem exists_not_isDigit_guarded {cs : List Char} (hne : cs ≠ []) :
    ∃ c ∈ guardReserved (guardDigit cs), c.isDigit = false := by
  have hdigit : ∃ c ∈ guardDigit cs, c.isDigit = false := by
    cases cs with
    | nil => exact absurd rfl hne
    | cons c cs =>
        rw [guardDigit]
        split
        · exact ⟨'_', List.mem_cons_self, by decide⟩
        · rename_i hc
          exact ⟨c, List.mem_cons_self, by simpa using hc⟩
  obtain ⟨c, hc, hno⟩ := hdigit
  rcases guardReserved_cases (guardDigit cs) with heq | heq <;> rw [heq]
  · exact ⟨c, hc, hno⟩
  · exact ⟨c, List.mem_cons_of_mem _ hc, hno⟩

theorem isName_safeNameOf (field? : Option String) {default : String} (hdefault : IsName default) :
    IsName (safeNameOf field? default) := by
  unfold safeNameOf
  split
  · rename_i name
    unfold safeName
    split
    · exact hdefault
    · rename_i hne
      have hkept : ∀ c ∈ name.toList.filter isNameChar, isNameChar c = true :=
        fun c hc => (List.mem_filter.mp hc).2
      have hchars := isNameChar_of_guarded hkept
      rw [IsName, String.toList_ofList]
      exact ⟨hchars, exists_not_isDigit_guarded hne⟩
  · exact hdefault

theorem isName_unnamed : IsName unnamed :=
  ⟨by decide, 'v', by decide, by decide⟩

theorem IsName.valueText {name : String} (h : IsName name) : ValueText name := by
  obtain ⟨hchars, c, hc, hdigit⟩ := h
  exact .simple (fun c hc => isSimple_of_isNameChar (hchars c hc))
    (readable_of_mem hc (not_isBlank_of_isNameChar (hchars c hc)) hdigit)

/-! ## Parts -/

def IsIndent (indent : String) : Prop :=
  ∀ c ∈ indent.toList, c = ' ' ∨ c = '\t'

/-- A part whose code can stand in a sketch, as a value and as a statement. -/
structure GoodPart (part : Part) : Prop where
  value : Makes part.value fun operand => ValueText operand.text
  statement : ∀ place, IsIndent place.indent → Makes (part.statement place) (Line 0 0)

def GoodShape (s : Shape) : Prop :=
  ∀ name, ∀ part ∈ s.chain name, GoodPart part

/-! ## Inputs -/

/-- Whether a text is one short word of characters that stand for themselves. -/
def isShortWord (s : String) : Bool :=
  s.toList.all (fun c => isSimple c && !isBlank c) &&
    decide (s.toList.length ≤ Number.maxIntegerDigits)

theorem valueText_of_isShortWord {s : String} (h : isShortWord s = true) : ValueText s := by
  rw [isShortWord, Bool.and_eq_true, List.all_eq_true, decide_eq_true_iff] at h
  simp only [Bool.and_eq_true, Bool.not_eq_true'] at h
  refine .simple (fun c hc => (h.1 c hc).1) ?_
  rw [trim_eq_self fun c hc => (h.1 c hc).2]
  exact fun _ => h.2

section Inputs

variable {s : Shape} (h : GoodShape s)

include h

theorem makes_target (name : String) :
    Makes (s.target name) fun found => ∀ part ∈ found, GoodPart part := by
  unfold Shape.target
  split
  · exact .pure (fun part hpart => nomatch hpart)
  · rename_i part hchain
    refine .pure fun found hfound => ?_
    obtain rfl : part = found := by simpa using hfound
    exact h name part (by rw [hchain]; exact List.mem_singleton_self part)
  · exact .malformed _ _ _

theorem makes_value (name : String) {default : String} (hdefault : ValueText default)
    (demanded : Nat) : Makes (s.value name default demanded) ValueText := by
  refine (makes_target h name).bind fun found hfound => ?_
  split
  · exact .pure hdefault
  · rename_i part
    refine (hfound part rfl).value.map fun operand hoperand => ?_
    unfold Expr.guarded
    split
    · exact hoperand.paren
    · exact hoperand

theorem makes_number (name : String) {default : String} (hdefault : ValueText default)
    {limits : Limits} (hlimits : LimitTexts limits) :
    Makes (s.number name default limits) ValueText := by
  refine (makes_target h name).bind fun found hfound => ?_
  split
  · exact .pure (.ofField hdefault hlimits _)
  · rename_i part
    split
    · exact .pure (.ofField hdefault hlimits _)
    · exact (hfound part rfl).value.map fun operand hoperand => hoperand

omit h in
theorem isBlank_of_trim_append {cs ds : List Char} {c : Char} (h : trim cs = ds ++ [c]) :
    isBlank c = false := by
  rw [trim] at h
  generalize trimStart cs = us at h
  induction us generalizing ds with
  | nil => exact absurd h (by simp [trimEnd])
  | cons u us ih =>
      rw [trimEnd] at h
      split at h
      · split at h
        · exact absurd h (by simp)
        · rename_i hblank
          have hone := congrArg List.getLast? h
          obtain rfl : u = c := by simpa using hone
          simpa using hblank
      · rename_i hrest
        cases ds with
        | nil => exact absurd h (by simp)
        | cons d ds => exact ih (hrest.trans (List.cons.inj h).2)

omit h in
theorem valueText_of_isAnalogPin {typed : String} (h : isAnalogPin (trimmed typed) = true) :
    ValueText (trimmed typed) := by
  rw [isAnalogPin, trimmed, String.toList_ofList] at h
  unfold isAnalogPinText at h
  split at h
  · rename_i cs hcs
    rw [Bool.and_eq_true, Bool.or_eq_true, beq_iff_eq, beq_iff_eq] at h
    have hsplit := (List.takeWhile_append_dropWhile (p := isDecimal) (l := cs)).symm
    rcases h.2 with hrest | hrest
    · rw [hrest, List.append_nil] at hsplit
      have hdecimal : ∀ c ∈ cs, isDecimal c = true := by
        rw [hsplit]
        exact fun c hc => List.all_eq_true.mp List.all_takeWhile c hc
      rw [trimmed, hcs]
      refine .simple ?_ (readable_of_mem (c := 'A') (by simp) (by decide) (by decide))
      rw [String.toList_ofList]
      exact List.forall_mem_cons.mpr ⟨by decide, fun c hc => isSimple_of_isDecimal (hdecimal c hc)⟩
    · rw [hrest] at hsplit
      have htrim : trim typed.toList = ('A' :: cs.takeWhile isDecimal) ++ ['\n'] := by
        rw [hcs, List.cons_append, ← hsplit]
      have hblank := isBlank_of_trim_append htrim
      cases hblank
  · cases h

omit h in
theorem valueText_typedPin (typed? : Option String) {default : String}
    (hdefault : ValueText default) : ValueText (Shape.typedPin typed? default) := by
  unfold Shape.typedPin
  split
  · rename_i name hname
    obtain ⟨hname, hpin⟩ := Option.filter_eq_some_iff.mp hname
    obtain ⟨typed, -, rfl⟩ := Option.map_eq_some_iff.mp hname
    exact valueText_of_isAnalogPin hpin
  · exact .ofField hdefault (limitTexts_upTo (by decide)) _

theorem makes_pin {default : String} (hdefault : ValueText default) :
    Makes (s.pin default) ValueText := by
  refine (makes_target h "PIN").bind fun found _ => ?_
  split
  · exact .pure (valueText_typedPin _ hdefault)
  · split
    · exact .pure (valueText_typedPin _ hdefault)
    · exact makes_number h "PIN" hdefault (limitTexts_upTo (by decide))

end Inputs

/-! ## Templates -/

/-- Whether a name is that of a call which may have any arguments. -/
def isFreeCall (name : String) : Bool :=
  isCallName name && name.toList.all isSimple && !takesTwo name

def IsOperand (operand : Operand) : Prop :=
  ValueText operand.text

/-- A call with values, of a function that may have any. -/
theorem valueText_freeCall {name : String} (hname : isFreeCall name = true) {as : List String}
    (has : ∀ a ∈ as, ValueText a) : ValueText (Value.callText name as) := by
  rw [isFreeCall, Bool.and_eq_true, Bool.not_eq_true'] at hname
  refine .call hname.1 has fun htwo => ?_
  rw [hname.2] at htwo
  cases htwo

theorem makes_atom {text : String} (h : ValueText text) : Makes (Value.atom text) IsOperand :=
  .pure h

theorem makes_needMath : Makes needMath fun _ => True :=
  .modify fun _ => Neat.addInclude

/-- Whether the defaults of a call's inputs are short words. -/
def hasShortDefaults (inputs : List (String × String)) : Bool :=
  inputs.all fun input => isShortWord input.2

section Templates

variable {s : Shape} (h : GoodShape s)

include h

theorem makes_call {name : String} {inputs : List (String × String)}
    (hname : isFreeCall name = true) (hinputs : hasShortDefaults inputs = true) :
    Makes (Value.call name inputs s) IsOperand := by
  refine (Makes.mapM fun input hinput => ?_).map fun arguments harguments =>
    valueText_freeCall hname harguments.2
  exact makes_value h input.1 (valueText_of_isShortWord (List.all_eq_true.mp hinputs input hinput)) _

theorem makes_mathCall {name : String} {inputs : List (String × String)}
    (hname : isFreeCall name = true) (hinputs : hasShortDefaults inputs = true) :
    Makes (Value.mathCall name inputs s) IsOperand :=
  makes_needMath.bind fun _ _ => makes_call h hname hinputs

theorem makes_pinCall {name default : String} (hname : isFreeCall name = true)
    (hdefault : isShortWord default = true) : Makes (Value.pinCall name default s) IsOperand :=
  (makes_pin h (valueText_of_isShortWord hdefault)).map fun _ hpin =>
    valueText_freeCall hname (List.forall_mem_singleton.mpr hpin)

theorem makes_infixed {operator : String × Nat} {default : String}
    (hoperator : isGlueText (" " ++ operator.1 ++ " ") = true)
    (hdefault : isShortWord default = true) :
    Makes (Value.infixed operator default s) IsOperand := by
  have hword := valueText_of_isShortWord hdefault
  refine (makes_value h "A" hword _).bind fun left hleft =>
    (makes_value h "B" hword _).map fun right hright => ?_
  have hglued := hleft.glued _ hoperator hright
  rwa [← String.append_assoc, ← String.append_assoc, ← String.append_assoc] at hglued

theorem makes_negation : Makes (Value.negation s) IsOperand := by
  refine (makes_value h "BOOL" (valueText_of_isShortWord (by decide)) _).map fun value hvalue => ?_
  have hglued := (valueText_of_isShortWord (s := "") (by decide)).glued "!" (by decide) hvalue
  rwa [String.empty_append] at hglued

theorem makes_mathSingle : Makes (Value.mathSingle s) IsOperand := by
  have hword : ValueText "0" := valueText_of_isShortWord (by decide)
  have hvalue := makes_value h "NUM" hword
  refine makes_needMath.bind fun _ _ => ?_
  split
  · refine (hvalue _).map fun value hvalue => ?_
    have hempty : ValueText "" := valueText_of_isShortWord (by decide)
    unfold joinLeading
    split
    · have hglued := hempty.glued ("-" ++ " ") (by decide) hvalue
      rwa [String.empty_append] at hglued
    · have hglued := hempty.glued "-" (by decide) hvalue
      rwa [String.empty_append] at hglued
  · have hfree : isFreeCall (Value.single (s.field? "OP")).1 = true ∧
        ∀ a ∈ (Value.single (s.field? "OP")).2, ValueText a := by
      have hten := valueText_of_isShortWord (s := "10") (by decide)
      unfold Value.single
      split <;> refine ⟨by decide, ?_⟩ <;> simp [hten]
    refine (hvalue _).map fun value hvalue => valueText_freeCall hfree.1 fun a ha => ?_
    rcases List.mem_append.mp ha with ha | ha
    · exact hfree.2 a ha
    · obtain rfl := List.mem_singleton.mp ha
      exact hvalue

theorem makes_arithmetic : Makes (Value.arithmetic s) IsOperand := by
  unfold Value.arithmetic
  split
  · exact makes_mathCall h (by decide) (by decide)
  · refine makes_infixed h ?_ (by decide)
    unfold Value.arithmeticOperator
    split <;> decide

omit h in
theorem makes_constant : Makes (Value.constant s) IsOperand := by
  have hratio : ValueText "((1 + sqrt(5)) / 2)" := by
    have hword := fun s hs => valueText_of_isShortWord (s := s) hs
    have hroot : ValueText (Value.callText "sqrt" ["5"]) :=
      valueText_freeCall (by decide) (List.forall_mem_singleton.mpr (hword "5" (by decide)))
    have hsum := ((hword "1" (by decide)).glued " + " (by decide) hroot).paren
    exact (hsum.glued " / " (by decide) (hword "2" (by decide))).paren
  refine makes_needMath.bind fun _ _ => makes_atom ?_
  unfold Value.constantText
  split
  · exact valueText_of_isShortWord (by decide)
  · exact hratio
  all_goals exact valueText_of_isShortWord (by decide)

omit h in
theorem makes_variable : Makes (Value.atom (Value.variableName s)) IsOperand :=
  makes_atom (isName_safeNameOf _ isName_unnamed).valueText

/-- Every template of a value makes the text of a value. -/
theorem makes_valueTemplate {type : String} {template : Shape → Gen Operand}
    (htemplate : Value.template? type = some template) (hraw : type ≠ "arduino_raw_expression") :
    Makes (template s) IsOperand := by
  unfold Value.template? at htemplate
  split at htemplate <;> cases htemplate
  iterate 2 exact makes_pinCall h (by decide) (by decide)
  iterate 5 exact makes_call h (by decide) (by decide)
  iterate 2 exact makes_mathCall h (by decide) (by decide)
  iterate 6 exact makes_call h (by decide) (by decide)
  · exact makes_atom (valueText_typedPin _ (valueText_of_isShortWord (by decide)))
  · exact absurd rfl hraw
  · exact makes_variable
  · refine makes_infixed h ?_ (by decide)
    unfold Value.comparison
    split <;> decide
  · refine makes_infixed h ?_ (by decide)
    unfold Value.connective
    split <;> decide
  · exact makes_negation h
  · refine makes_atom ?_
    split <;> exact valueText_of_isShortWord (by decide)
  · exact .pure (.ofField (valueText_of_isShortWord (by decide)) limitTexts_none _)
  · exact makes_arithmetic h
  · exact makes_mathSingle h
  · refine makes_mathCall h ?_ (by decide)
    unfold Value.angleFunction
    split <;> decide
  · exact makes_constant
  · exact makes_atom (.quoted _)

end Templates

end Code

end InoBlocks
