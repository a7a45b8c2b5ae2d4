import InoBlocks.Code.Statement
import InoBlocks.Proofs.Code.ValueTexts

/-!
# The texts of statements

Every template of a statement makes whole lines that close the braces they open, whatever its
fields hold.
-/

namespace InoBlocks

namespace Code

open Check Text

/-! ## Places -/

theorem mem_join {c : Char} {ss : List String} (h : c ∈ (String.join ss).toList) :
    ∃ s ∈ ss, c ∈ s.toList := by
  rw [String.toList_join, List.mem_flatMap] at h
  exact h

theorem IsIndent.pad {p : Place} (h : IsIndent p.indent) : IsIndent p.pad := by
  intro c hc
  obtain ⟨s, hs, hc⟩ := mem_join hc
  rw [(List.mem_replicate.mp hs).2] at hc
  exact h c hc

theorem line_placed {p : Place} (hp : IsIndent p.indent) {i j : Nat} {s : String}
    (h : Line i j s) : Line i j (Statement.line p s) :=
  h.indented hp.pad

/-! ## Bodies -/

/-- The text of statements: nothing, or lines that close their braces. -/
def IsBody (s : String) : Prop :=
  s = "" ∨ Line 0 0 s

theorem IsBody.inside {s : String} (h : IsBody s) :
    Lines 1 1 (if s == "" then [] else [s]) := by
  split
  · exact .nil
  · rename_i hne
    rcases h with rfl | h
    · exact absurd rfl hne
    · exact .cons (h.under 1) .nil

theorem makes_statements {chain : List Part} (h : ∀ part ∈ chain, GoodPart part) {p : Place}
    (hp : IsIndent p.indent) : Makes (Shape.statements p chain) IsBody := by
  refine (Makes.mapM fun part hpart => (h part hpart).statement p hp).map fun lines hlines => ?_
  cases hkept : lines.filter (· != "") with
  | nil => exact Or.inl rfl
  | cons line rest =>
      refine Or.inr ((Lines.ofForall fun t ht => ?_).joinLines (List.cons_ne_nil line rest))
      rw [← hkept] at ht
      exact hlines.2 t (List.mem_filter.mp ht).1

theorem makes_body {s : Shape} (h : GoodShape s) {p : Place} (hp : IsIndent p.indent)
    (name : String) : Makes (s.body p name) IsBody :=
  makes_statements (h name) hp

/-! ## Headers -/

/-- A word with what stands in parentheses behind it. -/
theorem valueText_header (word : String) (hword : isFreeCall (word ++ " ") = true)
    {inside : String} (h : ValueText inside) : ValueText (word ++ " (" ++ inside ++ ")") := by
  have hcall := valueText_freeCall hword (List.forall_mem_singleton.mpr h)
  have htext : Value.callText (word ++ " ") [inside] = word ++ " (" ++ inside ++ ")" := by
    rw [← String.toList_inj]
    simp [Value.callText]
  rwa [htext] at hcall

theorem valueText_typed {type name : String} (htype : type.toList.all isSimple = true)
    (hname : IsName name) : ValueText (type ++ " " ++ name) := by
  obtain ⟨hchars, c, hc, hdigit⟩ := hname
  refine .simple (fun d hd => ?_) (readable_of_mem (c := c) (by simp [hc])
    (not_isBlank_of_isNameChar (hchars c hc)) hdigit)
  simp only [String.toList_append, List.mem_append] at hd
  rcases hd with (hd | hd) | hd
  · exact List.all_eq_true.mp htype d hd
  · exact List.all_eq_true.mp (by decide : " ".toList.all isSimple = true) d hd
  · exact isSimple_of_isNameChar (hchars d hd)

theorem valueText_counting {name start stop amount : String} (hname : IsName name)
    (hstart : ValueText start) (relation : String) (hrelation : isGlueText relation = true)
    (hstop : ValueText stop) (change : String) (hchange : isGlueText change = true)
    (hamount : ValueText amount) :
    ValueText ("for (int " ++ name ++ " = " ++ start ++ "; " ++ name ++ relation ++ stop ++ "; " ++
      name ++ change ++ amount ++ ")") := by
  have hcounter : ValueText ("int" ++ " " ++ name) := valueText_typed (by decide) hname
  have hagain := hname.valueText
  have hinside := ((((hcounter.glued " = " (by decide) hstart).glued "; " (by decide) hagain).glued
    relation hrelation hstop).glued "; " (by decide) hagain).glued change hchange hamount
  have hheader := valueText_header "for" (by decide) hinside
  refine cast (congrArg ValueText ?_) hheader
  rw [← String.toList_inj]
  simp

theorem line_braced {p : Place} (hp : IsIndent p.indent) {header body : String}
    (hheader : ValueText header) (hbody : IsBody body) :
    Line 0 0 (Statement.braced p header body) := by
  obtain ⟨m, hm, -⟩ := hheader
  have hopens : Lines 0 1 [Statement.line p (header ++ " \x7b")] :=
    .cons (line_placed hp (.opens hm 0)) .nil
  have hcloses : Lines 1 0 [Statement.line p "\x7d"] := .cons (line_placed hp (.closes 0)) .nil
  exact ((hopens.append hbody.inside).append hcloses).joinLines (by simp)

theorem line_clause {p : Place} (hp : IsIndent p.indent) {code : String} (h : ValueText code) :
    Line 0 0 (Statement.line p (code ++ ";")) := by
  obtain ⟨m, hm, -⟩ := h
  exact line_placed hp (.clause hm 0)

/-! ## Names -/

theorem mem_variableTypes (s : Shape) : Statement.variableType s ∈ Statement.variableTypes := by
  unfold Statement.variableType
  dsimp only
  split
  · rename_i h
    exact List.contains_iff_mem.mp h
  · decide

theorem isName_variableName (s : Shape) : IsName (Value.variableName s) :=
  isName_safeNameOf _ isName_unnamed

theorem isName_counter (loops : Nat) : IsName (Statement.counter loops) := by
  have hword : ∀ {name : String}, name.toList.all isNameChar = true →
      name.toList.any (fun c => !c.isDigit) = true → IsName name := by
    intro name hall hany
    obtain ⟨c, hc, hdigit⟩ := List.any_eq_true.mp hany
    exact ⟨List.all_eq_true.mp hall, c, hc, by simpa using hdigit⟩
  unfold Statement.counter
  split
  iterate 3 exact hword (by decide) (by decide)
  refine ⟨fun c hc => ?_, 'i', by simp, by decide⟩
  rw [String.toList_append, List.mem_append] at hc
  rcases hc with hc | hc
  · obtain rfl : c = 'i' := by simpa using hc
    decide
  · rw [Number.decimal, String.toList_ofList] at hc
    exact isNameChar_of_isDigit (Number.isDigit_of_mem_digits hc)

/-! ## Templates -/

section Templates

variable {s : Shape} (h : GoodShape s) {p : Place} (hp : IsIndent p.indent)

include h hp

omit h in
theorem line_freeCall {name : String} (hname : isFreeCall name = true) {as : List String}
    (has : ∀ a ∈ as, ValueText a) : Line 0 0 (Statement.callLine p name as) :=
  line_clause hp (valueText_freeCall hname has)

omit h in
theorem line_pinCall {name : String} (hname : (isCallName name && name.toList.all isSimple) = true)
    {pin word : String} (hpin : ValueText pin) (hword : isShortWord word = true) :
    Line 0 0 (Statement.callLine p name [pin, word]) := by
  refine line_clause hp (.call hname ?_ fun _ => rfl)
  exact List.forall_mem_cons.mpr ⟨hpin, List.forall_mem_singleton.mpr (valueText_of_isShortWord hword)⟩

theorem makes_pinMode : Makes (Statement.pinMode s p) (Line 0 0) := by
  refine (makes_pin h (valueText_of_isShortWord (by decide))).map fun pin hpin =>
    line_pinCall hp (by decide) hpin ?_
  have hmodes : ∀ mode ∈ Statement.pinModes, isShortWord mode = true := by decide
  cases hmode : (s.field? "MODE").filter Statement.pinModes.contains with
  | none => decide
  | some mode =>
      exact hmodes mode (List.contains_iff_mem.mp (Option.filter_eq_some_iff.mp hmode).2)

theorem makes_digitalWrite : Makes (Statement.digitalWrite s p) (Line 0 0) := by
  refine (makes_pin h (valueText_of_isShortWord (by decide))).map fun pin hpin =>
    line_pinCall hp (by decide) hpin ?_
  unfold Statement.level
  split <;> decide

theorem makes_analogWrite : Makes (Statement.analogWrite s p) (Line 0 0) := by
  refine (makes_pin h (valueText_of_isShortWord (by decide))).bind fun pin hpin =>
    (makes_number h "VALUE" (valueText_of_isShortWord (by decide))
      (limitTexts_upTo (by decide))).map fun value hvalue => ?_
  exact line_freeCall hp (by decide)
    (List.forall_mem_cons.mpr ⟨hpin, List.forall_mem_singleton.mpr hvalue⟩)

theorem makes_numberCall {name input default : String} (hname : isFreeCall name = true)
    (hdefault : isShortWord default = true) :
    Makes (Statement.numberCall name input default s p) (Line 0 0) :=
  (makes_number h input (valueText_of_isShortWord hdefault) limitTexts_natural).map
    fun _ hvalue => line_freeCall hp hname (List.forall_mem_singleton.mpr hvalue)

theorem makes_serialPrint : Makes (Statement.serialPrint s p) (Line 0 0) := by
  have hempty : ValueText "\"\"" := ValueText.quoted ""
  refine (makes_value h "TEXT" hempty _).map fun value hvalue =>
    line_freeCall hp ?_ (List.forall_mem_singleton.mpr hvalue)
  split <;> decide

theorem makes_randomSeed : Makes (Statement.randomSeed s p) (Line 0 0) :=
  (makes_value h "SEED" (valueText_of_isShortWord (by decide)) _).map fun _ hvalue =>
    line_freeCall hp (by decide) (List.forall_mem_singleton.mpr hvalue)

theorem makes_variableSet : Makes (Statement.variableSet s p) (Line 0 0) := by
  have hname := isName_variableName s
  refine (Makes.modify fun c hc => hc.assign hname).bind fun _ _ =>
    (makes_value h "VALUE" (valueText_of_isShortWord (by decide)) _).map fun value hvalue => ?_
  have hline := line_clause hp (hname.valueText.glued " = " (by decide) hvalue)
  rwa [← String.append_assoc] at hline

omit h in
theorem makes_variableDeclare : Makes (Statement.variableDeclare s p) (Line 0 0) := by
  have htypes : ∀ type ∈ Statement.variableTypes, type.toList.all isSimple = true := by decide
  exact (Makes.modify fun c hc => hc.declare _).map fun _ _ =>
    line_clause hp (valueText_typed (htypes _ (mem_variableTypes s)) (isName_variableName s))

theorem makes_variableDefine : Makes (Statement.variableDefine s p) (Line 0 0) := by
  have htypes : ∀ type ∈ Statement.variableTypes, type.toList.all isSimple = true := by decide
  have hname := valueText_typed (htypes _ (mem_variableTypes s)) (isName_variableName s)
  refine (Makes.modify fun c hc => hc.declare _).bind fun _ _ =>
    (makes_value h "VALUE" (valueText_of_isShortWord (by decide)) _).map fun value hvalue => ?_
  have hline := line_clause hp (hname.glued " = " (by decide) hvalue)
  rwa [← String.append_assoc] at hline

theorem makes_repetition : Makes (Statement.repetition s p) (Line 0 0) := by
  have hword := fun s hs => valueText_of_isShortWord (s := s) hs
  refine (makes_number h "TIMES" (hword "10" (by decide)) limitTexts_natural).bind
    fun times htimes => (makes_body h (p := p.deeper.inLoop) hp "DO").map fun body hbody =>
      line_braced hp ?_ hbody
  have hheader := valueText_counting (isName_counter p.loops) (hword "0" (by decide)) " < "
    (by decide) htimes "++" (by decide) (hword "" (by decide))
  refine cast (congrArg ValueText ?_) hheader
  rw [← String.toList_inj]
  simp

theorem makes_countedLoop : Makes (Statement.countedLoop s p) (Line 0 0) := by
  have hlimit : ∀ name default, isShortWord default = true →
      Makes (s.number name default .none) ValueText := fun name default hdefault =>
    makes_number h name (valueText_of_isShortWord hdefault) limitTexts_none
  refine (hlimit "FROM" "1" (by decide)).bind fun start hstart =>
    (hlimit "TO" "10" (by decide)).bind fun stop hstop =>
      (hlimit "BY" "1" (by decide)).bind fun step hstep =>
        (makes_body h (p := p.deeper) hp "DO").map fun body hbody => line_braced hp ?_ hbody
  exact valueText_counting (isName_safeNameOf _ ⟨by decide, 'i', by decide, by decide⟩) hstart
    " <= " (by decide) hstop " += " (by decide) hstep

theorem makes_whileLoop : Makes (Statement.whileLoop s p) (Line 0 0) := by
  have hword : ValueText "false" := valueText_of_isShortWord (by decide)
  have hvalue := makes_value h "BOOL" hword
  have hcondition : Makes (Statement.loopCondition s) ValueText := by
    unfold Statement.loopCondition
    split
    · refine (hvalue _).map fun value hvalue => ?_
      have hglued := (valueText_of_isShortWord (s := "") (by decide)).glued "!" (by decide) hvalue
      rwa [String.empty_append] at hglued
    · exact hvalue _
  have hopening : "while (" = "while" ++ " (" := by decide
  refine hcondition.bind fun condition hcondition =>
    (makes_body h (p := p.deeper) hp "DO").map fun body hbody => line_braced hp ?_ hbody
  rw [hopening]
  exact valueText_header "while" (by decide) hcondition

end Templates

/-! ## Choices -/

def IsArm (arm : Statement.Arm) : Prop :=
  ValueText arm.1 ∧ IsBody arm.2

section Choices

variable {s : Shape} (h : GoodShape s) {p : Place} (hp : IsIndent p.indent)

include h hp

/-- The arms from a number on; the first of all is always there. -/
theorem makes_arms (fuel number : Nat) :
    Makes (Statement.arms s p fuel number) fun arms =>
      (∀ arm ∈ arms, IsArm arm) ∧ (0 < fuel → number = 0 → arms ≠ []) := by
  induction fuel generalizing number with
  | zero => exact .pure ⟨by simp, fun hfuel => nomatch hfuel⟩
  | succ fuel ih =>
      refine (makes_target h _).bind fun test _ => ?_
      split
      · rename_i hover
        refine .pure ⟨by simp, fun _ hnumber => ?_⟩
        simp [hnumber] at hover
      · refine (makes_value h _ (valueText_of_isShortWord (by decide)) _).bind fun value hvalue =>
          (makes_body h (p := p.deeper) hp _).bind fun body hbody => ?_
        refine (ih (number + 1)).map fun arms harms => ?_
        refine ⟨List.forall_mem_cons.mpr ⟨⟨?_, hbody⟩, harms.1⟩, fun _ _ => List.cons_ne_nil _ _⟩
        split
        · exact valueText_header "if" (by decide) hvalue
        · exact valueText_header "else if" (by decide) hvalue

theorem makes_otherwise : Makes (Statement.otherwise s p) fun arms => ∀ arm ∈ arms, IsArm arm := by
  unfold Statement.otherwise
  split
  · exact .pure (by simp)
  · have hword : ValueText "else" := valueText_of_isShortWord (by decide)
    exact (makes_body h (p := p.deeper) hp "ELSE").map fun body hbody =>
      List.forall_mem_singleton.mpr ⟨hword, hbody⟩

omit h in
theorem lines_arms {arms : List Statement.Arm} (harms : ∀ arm ∈ arms, IsArm arm) :
    Lines 1 0 (Statement.armLines p "\x7d " arms) := by
  induction arms with
  | nil => exact .cons (line_placed hp (.closes 0)) .nil
  | cons arm arms ih =>
      obtain ⟨⟨⟨m, hm, -⟩, hbody⟩, hrest⟩ := List.forall_mem_cons.mp harms
      have hline : Line 1 1 ("\x7d " ++ arm.1 ++ " \x7b") := by
        rw [String.append_assoc]
        exact (Line.opens hm 0).closing
      exact .cons (line_placed hp hline) (hbody.inside.append (ih hrest))

theorem makes_choice : Makes (Statement.choice s p) (Line 0 0) := by
  refine (makes_arms h hp (s.slots.length + 1) 0).bind fun arms harms =>
    (makes_otherwise h hp).map fun last hlast => ?_
  cases arms with
  | nil => exact absurd rfl (harms.2 (Nat.zero_lt_succ _) rfl)
  | cons first rest =>
      obtain ⟨⟨⟨m, hm, -⟩, hbody⟩, hrest⟩ := List.forall_mem_cons.mp harms.1
      have hline : Line 0 1 ("" ++ first.1 ++ " \x7b") := by
        rw [String.empty_append]
        exact .opens hm 0
      have hafter : Lines 1 0 (Statement.armLines p "\x7d " (rest ++ last)) :=
        lines_arms hp fun arm harm => (List.mem_append.mp harm).elim (hrest arm) (hlast arm)
      exact (Lines.cons (line_placed hp hline) (hbody.inside.append hafter)).joinLines
        (List.cons_ne_nil _ _)

theorem makes_statementTemplate {type : String} {template : Shape → Place → Gen String}
    (htemplate : Statement.template? type = some template)
    (hraw : type ≠ "arduino_raw_statement") (hblock : type ≠ "arduino_raw_block") :
    Makes (template s p) (Line 0 0) := by
  unfold Statement.template? at htemplate
  split at htemplate <;> cases htemplate
  · exact makes_pinMode h hp
  · exact makes_digitalWrite h hp
  · exact makes_analogWrite h hp
  iterate 3 exact makes_numberCall h hp (by decide) (by decide)
  · exact makes_serialPrint h hp
  · exact makes_randomSeed h hp
  · exact makes_variableSet h hp
  · exact makes_variableDeclare hp
  · exact makes_variableDefine h hp
  · exact makes_choice h hp
  · exact makes_repetition h hp
  · exact makes_whileLoop h hp
  · exact makes_countedLoop h hp
  · exact absurd rfl hraw
  · exact absurd rfl hblock

end Choices

end Code

end InoBlocks
