import InoBlocks.Proofs.Code.Coded
import InoBlocks.Proofs.Sketch.RawStrength
import InoBlocks.Proofs.Sketch.ReadBack

/-!
# Expressions coded and read back

Making an expression a block and then code again gives a text that is read as the expression,
if every part of it is one whose spelling the blocks keep.
-/

namespace InoBlocks

open Word Code

namespace Expr

/-- Whether the spelling of a literal is in quotes of either kind. -/
def isQuoted (raw : String) : Bool :=
  raw.toList.head? == some '"' || raw.toList.head? == some '\''

/-- Whether a call that asks for a pin takes an argument as it is. -/
def isPlainPin : Expr → Bool
  | .literal _ (.number x) _ => !x.gtDyadic 53 0
  | .literal _ (.text _) raw => !isQuoted raw
  | _ => true

/-- Whether blocks keep the spelling of an expression, its parts aside. -/
def keepsSpelling : Expr → Bool
  | .name _ id => safeName id unnamed == id
  | .literal _ (.number x) raw => x.isFinite && !Number.hasLeadingZero raw.toList
  | .literal _ (.text text) raw =>
      !isQuoted raw ||
        (text != "true" && text != "false" &&
          (raw.toList.head? != some '"' || quoteText text == raw))
  | .call _ (.name _ id) [argument] => (pinDefault? id).isNone || argument.isPlainPin
  | .member _ object _ => !object.isNumber
  | .assign _ _ (.name ..) _ => true
  | .assign .. => false
  | _ => true

/-- The code of an expression by way of blocks is read as a phrase of the expression, and no
parentheses are missed where it stands as an operand. -/
def Written (e : Expr) : Prop :=
  ∃ ws, Phrase e.binding ws e ∧ Spelling e.coded.text ws true ∧ e.coded.binding ≤ e.binding

theorem Written.guarded {e : Expr} (h : e.Written) (demanded : Nat) (hlow : 1 ≤ demanded)
    (hhigh : demanded ≤ 10) :
    ∃ ws, Phrase demanded ws e ∧
      Spelling (Expr.guarded e.coded.text e.coded.binding demanded) ws true := by
  obtain ⟨ws, hphrase, hspelling, hle⟩ := h
  rw [Expr.guarded]
  split
  · have hgroup := (hphrase.loosenTo (Nat.le_refl 1) hphrase.one_le).group_symbol
    exact ⟨_, hgroup.loosenTo hlow hhigh, hspelling.parenthesized.ofFalse true⟩
  · exact ⟨ws, hphrase.loosenTo hlow (by omega), hspelling⟩

theorem Written.open {e : Expr} (h : e.Written) :
    ∃ ws, Phrase 1 ws e ∧ Spelling e.coded.text ws true := by
  obtain ⟨ws, hphrase, hspelling, -⟩ := h
  exact ⟨ws, hphrase.loosenTo (Nat.le_refl 1) hphrase.one_le, hspelling⟩

theorem isQuoted_of_string {raw : String} (hfirm : Word.Firm ⟨.string, raw⟩) :
    isQuoted raw = true := by
  rcases hfirm.text_cases rfl with ⟨-, quote, inside, hquote, htext⟩ | ⟨hkind, -⟩ | ⟨hkind, -⟩
  · have htext' : raw.toList = quote :: inside ++ [quote] := htext
    rw [isQuoted, htext', List.cons_append, List.head?_cons]
    rcases hquote with rfl | rfl <;> rfl
  · cases hkind
  · exact absurd hkind.symm (TokenKind.ofWord_ne raw).1

theorem isNumberMember_of_keepsSpelling {p : Expr} (h : p.keepsSpelling = true) :
    ¬ p.isNumberMember := by
  cases p with
  | member l object property => simpa [keepsSpelling, isNumberMember] using h
  | _ => simp [isNumberMember]

theorem Proper.printed_of_keeps {e : Expr} (h : e.Proper)
    (hkeeps : ∀ p ∈ e.parts, p.keepsSpelling = true) : e.Printed :=
  h.printed fun p hp => isNumberMember_of_keepsSpelling (hkeeps p hp)

theorem Written.raw {e : Expr} (h : e.Proper) (hkeeps : ∀ p ∈ e.parts, p.keepsSpelling = true)
    (hraw : e.standsRaw = true) (hcoded : e.coded = rawOperand e.source) : e.Written := by
  have hprinted := h.printed_of_keeps hkeeps
  have hle := h.rawBinding_le hraw hprinted
  obtain ⟨ws, hphrase, hspelling⟩ := hprinted
  have hoperand : e.coded = ⟨e.source, rawBinding e.source.toList⟩ := by
    rw [hcoded, rawOperand, hspelling.trimmed_eq, if_neg (by simpa using hspelling.ne_empty)]
  refine ⟨ws, hphrase, ?_, ?_⟩
  · rw [hoperand]
    exact hspelling.pointed_true
  · rw [hoperand]
    exact hle

/-- An argument in place of a pin is coded as any other. -/
theorem pinText_eq {e : Expr} (h : e.Proper) (hkeeps : e.keepsSpelling = true)
    (hplain : e.isPlainPin = true) (default : String) :
    pinText default e e.coded = e.coded.text := by
  cases h with
  | @number l raw x hx hfirm =>
      simp only [keepsSpelling, Bool.and_eq_true, Bool.not_eq_true'] at hkeeps
      simp only [isPlainPin, Bool.not_eq_true'] at hplain
      rw [pinText, coded, numberOperand]
      rw [Numeral.ofField_unsigned hfirm hx hkeeps.1 hkeeps.2 default (Or.inr rfl) ?_,
        Numeral.ofField_unsigned hfirm hx hkeeps.1 hkeeps.2 "0" (Or.inl rfl) ?_]
      · intro limit hlimit
        cases hlimit
      · intro limit hlimit
        cases hlimit
        exact hplain
  | string l hfirm =>
      rw [pinText, isTextBlock, if_neg]
      simp only [isPlainPin, isQuoted, Bool.not_eq_true', Bool.or_eq_false_iff] at hplain
      simp [hplain.1]
  | constant l hkind hfirm =>
      rw [pinText, isTextBlock, if_neg]
      simp only [isPlainPin, isQuoted, Bool.not_eq_true', Bool.or_eq_false_iff] at hplain
      simp [hplain.1]
  | _ => rfl

theorem keepsSpelling_part {e : Expr} {arguments : List Expr} {a : Expr} (ha : a ∈ arguments)
    (hkeeps : ∀ p ∈ e.parts ++ partsAll arguments, p.keepsSpelling = true) :
    ∀ p ∈ a.parts, p.keepsSpelling = true := by
  intro p hp
  rw [partsAll_eq_flatMap] at hkeeps
  exact hkeeps p (List.mem_append_right _ (List.mem_flatMap.mpr ⟨a, ha, hp⟩))

theorem written_text {l : Location} {text raw : String}
    (h : Proper (.literal l (.text text) raw))
    (hkeeps : (Expr.literal l (.text text) raw).keepsSpelling = true)
    (htruth : text = "true" ∨ text = "false" → isQuoted raw = false → text = raw) :
    Written (.literal l (.text text) raw) := by
  have hall : ∀ p ∈ (Expr.literal l (.text text) raw).parts, p.keepsSpelling = true := by
    simpa [parts] using hkeeps
  obtain ⟨ws, hphrase, hspelling⟩ := h.printed_of_keeps hall
  rw [keepsSpelling] at hkeeps
  rcases literal_cases text raw with ⟨hblock, -, htext⟩ | ⟨hblock, ⟨value, -, hvalue, htext⟩ |
    ⟨-, htext⟩⟩
  · have hquote : (raw.toList.head? == some '"') = true := by
      rw [isTextBlock, Bool.and_eq_true] at hblock
      exact hblock.2
    have hkept : quoteText text = raw := by
      simp only [isQuoted, bne, hquote, Bool.true_or, Bool.not_true, Bool.false_or,
        Bool.and_eq_true, beq_iff_eq] at hkeeps
      exact hkeeps.2
    refine ⟨ws, hphrase, ?_, ?_⟩
    · rw [coded, htext, hkept]
      exact hspelling.pointed_true
    · rw [coded, htext]
      exact Nat.le_refl _
  · have htrue : text = "true" ∨ text = "false" := by
      cases value
      · exact Or.inr hvalue
      · exact Or.inl hvalue
    have hquoted : isQuoted raw = false := by
      cases hquoted : isQuoted raw with
      | false => rfl
      | true =>
          rw [hquoted] at hkeeps
          rcases htrue with rfl | rfl <;> simp at hkeeps
    refine ⟨ws, hphrase, ?_, ?_⟩
    · rw [coded, htext, htruth htrue hquoted]
      exact hspelling.pointed_true
    · rw [coded, htext]
      exact Nat.le_refl _
  · exact .raw h hall rfl (by rw [coded, htext]; rfl)

/-- A call is coded as a call if it has a block, and else stands as it is. -/
theorem coded_call (l : Location) (callee : Expr) (arguments : List Expr) :
    (Expr.call l callee arguments).coded = rawOperand (Expr.call l callee arguments).source ∨
    (∃ l' id, callee = .name l' id ∧ hasBlock id arguments.length = true ∧
      (Expr.call l callee arguments).coded =
        ⟨Value.callText id (codedArguments (pinDefault? id) arguments), Binding.trailing⟩) ∨
    ∃ l' l'' method, callee = .member l' (.name l'' "Serial") method ∧ arguments = [] ∧
      (Expr.call l callee arguments).coded =
        ⟨Value.callText ("Serial." ++ method) [], Binding.trailing⟩ := by
  rw [coded.eq_def]
  dsimp only
  split
  · rename_i l' id
    split
    · rename_i hblock
      exact Or.inr (Or.inl ⟨l', id, rfl, hblock, rfl⟩)
    · exact Or.inl rfl
  · rename_i l' l'' method
    split
    · rename_i hquery
      rw [Bool.and_eq_true, List.isEmpty_iff] at hquery
      exact Or.inr (Or.inr ⟨l', l'', method, rfl, hquery.2, rfl⟩)
    · exact Or.inl rfl
  · exact Or.inl rfl

theorem codedArguments_none (es : List Expr) :
    codedArguments none es = es.map fun a => a.coded.text := by
  induction es with
  | nil => rfl
  | cons e es ih => rw [codedArguments, ih, List.map_cons]

/-- Arguments of a call with a block are coded as they are elsewhere. -/
theorem codedArguments_eq {l l' : Location} {id : String} {arguments : List Expr}
    (hblock : hasBlock id arguments.length = true) (hproper : ∀ a ∈ arguments, a.Proper)
    (hcall : (Expr.call l (.name l' id) arguments).keepsSpelling = true)
    (hkeeps : ∀ a ∈ arguments, a.keepsSpelling = true) :
    codedArguments (pinDefault? id) arguments = arguments.map fun a => a.coded.text := by
  cases hpin : pinDefault? id with
  | none => exact codedArguments_none arguments
  | some default =>
      have hone : arguments.length = 1 := by
        unfold hasBlock at hblock
        split at hblock
        · rename_i type names hcall
          obtain ⟨-, -, -, -, ⟨_, _, hnone, _⟩ | ⟨_, rfl, -, -⟩⟩ := template?_of_valueCall? hcall
          · rw [hnone] at hpin
            cases hpin
          · exact eq_of_beq hblock
        · cases hblock
      obtain ⟨a, rfl⟩ := List.length_eq_one_iff.mp hone
      have ha := List.mem_singleton_self a
      have hplain : a.isPlainPin = true := by simpa [keepsSpelling, hpin] using hcall
      rw [codedArguments, codedArguments, List.map_singleton]
      rw [pinText_eq (hproper a ha) (hkeeps a ha) hplain]

/-- A proper expression is written if every part of it keeps its spelling. -/
theorem Proper.written {e : Expr} (h : e.Proper)
    (hkeeps : ∀ p ∈ e.parts, p.keepsSpelling = true) : e.Written := by
  induction h with
  | @name l id hid hfirm =>
      have hsafe : safeName id unnamed = id := by simpa [parts, keepsSpelling] using hkeeps
      refine ⟨_, .name l hid, ?_, Nat.le_refl _⟩
      rw [coded, hsafe]
      exact .pointed_true (.word hfirm rfl rfl)
  | pin l hid hfirm => exact .raw (.pin l hid hfirm) hkeeps rfl rfl
  | @number l raw x hx hfirm =>
      have hkeep := hkeeps _ List.mem_cons_self
      simp only [keepsSpelling, Bool.and_eq_true, Bool.not_eq_true'] at hkeep
      have hfield : Numeral.ofField (some raw) "0" .none = raw :=
        Numeral.ofField_unsigned hfirm hx hkeep.1 hkeep.2 "0" (Or.inl rfl) fun _ h => by cases h
      refine ⟨_, .number l hx, ?_, ?_⟩
      · rw [coded, numberOperand, hfield]
        exact .pointed_true (.word hfirm rfl rfl)
      · rw [coded, numberOperand]
        change (if _ then Binding.leading else Binding.primary) ≤ Binding.primary
        split <;> decide
  | string l hfirm =>
      refine written_text (.string l hfirm) (hkeeps _ List.mem_cons_self) fun _ hquoted => ?_
      rw [isQuoted_of_string hfirm] at hquoted
      cases hquoted
  | constant l hkind hfirm =>
      exact written_text (.constant l hkind hfirm) (hkeeps _ List.mem_cons_self) fun _ _ => rfl
  | member l hfirm hobject ih => exact .raw (.member l hfirm hobject) hkeeps rfl rfl
  | @call l callee arguments hcallee hargs ih ihs =>
      have hkeep : ∀ a ∈ arguments, ∀ p ∈ a.parts, p.keepsSpelling = true := fun a ha =>
        keepsSpelling_part ha fun p hp => hkeeps p (List.mem_cons_of_mem _ hp)
      rcases coded_call l callee arguments with hraw | ⟨l', id, rfl, hpin, hcoded⟩ |
        ⟨l', l'', method, rfl, rfl, hcoded⟩
      · exact .raw (.call l hcallee hargs) hkeeps rfl hraw
      · have htexts : codedArguments (pinDefault? id) arguments =
            arguments.map fun a => a.coded.text := by
          refine codedArguments_eq hpin hargs (hkeeps _ List.mem_cons_self) fun a ha => ?_
          exact hkeep a ha a (mem_parts_self (hargs a ha).ne_empty)
        cases hcallee with
        | name _ hid hfirm =>
            obtain ⟨ws, hphrase, hspelling⟩ := exists_call l
              ((Phrase.name l' hid).loosenTo (by decide) (by decide)) (.word hfirm rfl rfl)
              (fun a => a.coded.text) arguments fun a ha => (ihs a ha (hkeep a ha)).open
            refine ⟨ws, hphrase, ?_, ?_⟩
            · rw [hcoded, htexts]
              exact hspelling.pointed_true
            · rw [hcoded]
              exact Nat.le_refl _
      · obtain ⟨us, hphrase, hspelling⟩ := (hcallee.printed_of_keeps fun p hp =>
          hkeeps p (List.mem_cons_of_mem _ (List.mem_append_left _ hp))).guarded 9
            (by decide) (by decide)
        obtain ⟨ws, hphrase, hspelling⟩ := exists_call l hphrase hspelling source
          [] (by simp)
        have htext : guarded (Expr.member l' (.name l'' "Serial") method).source
            (Expr.member l' (.name l'' "Serial") method).binding 9 = "Serial." ++ method := rfl
        rw [htext] at hspelling
        refine ⟨ws, hphrase, ?_, ?_⟩
        · rw [hcoded]
          exact hspelling.pointed_true
        · rw [hcoded]
          exact Nat.le_refl _
  | step l hop hsymbol hoperand ih =>
      refine .raw (.step l hop hsymbol hoperand) hkeeps rfl ?_
      rw [coded, if_neg (by simp)]
  | @leading l kind op operand hop hsymbol hoperand ih =>
      by_cases hnot : op = "!"
      · subst hnot
        obtain ⟨ws, hphrase, hspelling⟩ := (ih fun p hp =>
          hkeeps p (List.mem_cons_of_mem _ hp)).guarded 8 (by decide) (by decide)
        have hjoined := hspelling.joinLeading hsymbol hop
        have hfuses : ∀ text, fuses "!".toList text = false := by
          intro text
          unfold fuses
          split
          · rename_i last first hlast _
            cases hlast
            rfl
          · rfl
        rw [InoBlocks.joinLeading, if_neg (by rw [hfuses]; decide)] at hjoined
        refine ⟨_, hphrase.leading_symbol l hop hsymbol, ?_, ?_⟩
        · rw [coded, if_pos (by simp)]
          exact hjoined
        · rw [coded, if_pos (by simp)]
          exact Nat.le_refl _
      · refine .raw (.leading l hop hsymbol hoperand) hkeeps rfl ?_
        rw [coded, if_neg (by simp [hnot])]
  | @binary l kind op left right hlow hhigh hsymbol hleft hright ihl ihr =>
      have hstrength := TokenKind.ofOperator_of_symbol? hsymbol (by omega) hhigh
      obtain ⟨us, hus, hsl⟩ := (ihl fun p hp => hkeeps p
        (List.mem_cons_of_mem _ (List.mem_append_left _ hp))).guarded kind.joins
        (by omega) (by omega)
      obtain ⟨vs, hvs, hsr⟩ := (ihr fun p hp => hkeeps p
        (List.mem_cons_of_mem _ (List.mem_append_right _ hp))).guarded
        (kind.joins + 1) (by omega) (by omega)
      refine ⟨us ++ symbol kind :: vs, ?_, ?_, Nat.le_refl _⟩
      · rw [binding, hstrength]
        exact hus.binary_symbol l hlow hhigh hsymbol hvs
      · rw [coded, hstrength]
        exact hsl.infixed hsymbol hsr
  | @assign l kind op left right hop hsymbol hleft hright ihl ihr =>
      refine .raw (.assign l hop hsymbol hleft hright) hkeeps ?_ rfl
      have hkeep := hkeeps _ List.mem_cons_self
      cases hleft with
      | name => rfl
      | _ => cases hkeep

end Expr

/-- An expression that occurs in a sketch, every part of which keeps its spelling, has a block.
Assigning that block to a variable gives a line of code in which the text of the value is read
back as the expression. -/
theorem Expr.assigned_readsBack {source file : String} {limit : Nat} {e : Expr}
    (he : Node.bare e ∈ (Grammar.parse source file limit).program.walk.map Visit.node)
    (hkeeps : ∀ p ∈ e.parts, p.keepsSpelling = true) :
    ∃ b text, Blocks.value? e = .ok (some b) ∧ Grammar.ReadsBack text e ∧
      ∀ name place, Gives
        ((part (.ofTexts "variables_set" [("VAR", name)] [.value "VALUE" b])).statement place)
        (place.pad ++ (safeName name unnamed ++ " = " ++ text ++ ";")) [safeName name unnamed]
        [] := by
  have hproper := Grammar.proper_of_mem_walk he
  obtain ⟨b, hb, hgives⟩ := hproper.givesCoded
  obtain ⟨ws, hphrase, hspelling⟩ := (hproper.written hkeeps).open
  refine ⟨b, e.coded.text, ?_, Grammar.readsBack_of_spelling hphrase hspelling, ?_⟩
  · rw [Blocks.value?, Blocks.checked, hproper.sourceFault?_eq_none, hb]
    rfl
  · intro name place
    let s : Shape := ⟨"variables_set", [("VAR", .text name)], slots [.value "VALUE" b]⟩
    have hchain : s.chain "VALUE" = [part b] := rfl
    have hvalue := Shape.gives_value hchain hgives "0" Binding.unknown
    have hassign := Gives.modify fun c => Leaves.assign c (safeName name unnamed)
    have hline := hassign.bind (f := fun _ => _) (hvalue.map fun value =>
      Statement.line place (safeName name unnamed ++ " = " ++ value ++ ";"))
    have hguarded : Expr.guarded e.coded.text e.coded.binding Binding.unknown = e.coded.text :=
      if_neg (Nat.not_lt_zero _)
    rw [hguarded] at hline
    exact hline

/-- Calls with blocks and calls without, signs, steps and a text in one expression. -/
theorem Expr.assigned_readsBack_mixed :
    ∃ e, Node.bare e ∈ (Grammar.parse
        "void loop() \x7b y = !digitalRead(pin) && (-k + 1) * abs(A0) >= f(x++, \"s\"); \x7d"
        "s.ino" 1).program.walk.map Visit.node ∧
      (∀ p ∈ e.parts, p.keepsSpelling = true) ∧
      e.source = "!digitalRead(pin) && (-k + 1) * abs(A0) >= f(x++, \"s\")" ∧
      ∃ b text, Blocks.value? e = .ok (some b) ∧ Grammar.ReadsBack text e ∧
        ∀ name place, Gives
          ((part (.ofTexts "variables_set" [("VAR", name)] [.value "VALUE" b])).statement place)
          (place.pad ++ (safeName name unnamed ++ " = " ++ text ++ ";")) [safeName name unnamed]
          [] := by
  have hfound : ((Grammar.parse
      "void loop() \x7b y = !digitalRead(pin) && (-k + 1) * abs(A0) >= f(x++, \"s\"); \x7d"
      "s.ino" 1).program.walk.map Visit.node).any (Node.isBareWith fun e =>
        e.source == "!digitalRead(pin) && (-k + 1) * abs(A0) >= f(x++, \"s\")" &&
          e.parts.all keepsSpelling) = true := by
    decide +kernel
  obtain ⟨e, hmember, he⟩ := Node.exists_bare hfound
  rw [Bool.and_eq_true, beq_iff_eq, List.all_eq_true] at he
  exact ⟨e, hmember, he.2, he.1, Expr.assigned_readsBack hmember he.2⟩

end InoBlocks
