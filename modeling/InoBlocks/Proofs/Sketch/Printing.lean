import InoBlocks.Proofs.Sketch.Proper
import InoBlocks.Proofs.Sketch.Spelling

/-!
# The text of an expression

The text of a proper expression is read as a phrase of that expression, of the strength with which
it binds, unless a member is taken of a number: `1.x` is a number and a name.  Even then the words
of the phrase and those of the text stand for each other.
-/

namespace InoBlocks

open Word

/-! ## Numbers in front of a point -/

/-- A number that has a point ends in front of another one. -/
theorem Token.numberLength_append {pointed : Bool} {cs rest : List Char}
    (h : numberLength pointed cs = cs.length) (hpoint : pointed = true ∨ '.' ∈ cs)
    (hrest : Apart Char.isDigit rest) : numberLength pointed (cs ++ rest) = cs.length := by
  fun_induction numberLength pointed cs with
  | case1 pointed =>
      obtain rfl : pointed = true := hpoint.resolve_right (List.not_mem_nil)
      cases rest with
      | nil => rfl
      | cons d ds => simp [numberLength, hrest d rfl]
  | case2 pointed c cs hdigit ih =>
      have hpoint' : pointed = true ∨ '.' ∈ cs := by
        refine hpoint.imp_right fun hmem => (List.mem_cons.mp hmem).resolve_left ?_
        rintro rfl
        exact absurd hdigit (by decide)
      simp [numberLength, hdigit, ih (by simpa using h) hpoint']
  | case3 pointed c cs hdigit hdot ih =>
      simp [numberLength, hdigit, hdot, ih (by simpa using h) (Or.inl rfl)]
  | case4 => cases h

namespace Spelling

variable {raw property : String}

/-- A number that has a point does not go on with another one. -/
theorem pointedNumber (h : Firm ⟨.number, raw⟩) (hpoint : '.' ∈ raw.toList) :
    Spelling raw [⟨.number, raw⟩] false := by
  obtain ⟨-, hhead, hlast⟩ := word h rfl rfl
  refine ⟨fun read _ rest hrest => ?_, hhead, hlast⟩
  rcases h.text_cases rfl with ⟨hkind, -⟩ | ⟨-, c, cs, htext, hc, hlength⟩ | ⟨hkind, -⟩
  · cases hkind
  · have hdigits : Apart Char.isDigit rest := fun d hd => by
      have hname := hrest d hd
      rw [tail, Bool.false_and, Bool.or_false] at hname
      cases hdigit : d.isDigit with
      | false => rfl
      | true =>
          rw [Text.isNameChar_of_isDigit hdigit] at hname
          cases hname
    have hne : '.' ≠ c := by
      rintro rfl
      exact absurd hc (by decide)
    dsimp only at htext
    have hmem : '.' ∈ cs := by simpa [htext, hne] using hpoint
    have hscan := Token.scan_digit hc (cs ++ rest)
    rw [Token.numberLength_append hlength (Or.inr hmem) hdigits] at hscan
    have hlayout := Text.not_isLayout_of_isNameChar (Text.isNameChar_of_isDigit hc)
    have hcut : read (c :: (cs ++ rest)) = _ := Cutting.scan hlayout hscan (by decide)
    rw [htext, List.cons_append, hcut]
    simp [← htext]
  · exact absurd hkind (TokenKind.ofWord_ne raw).2.symm

/-- A number without a point takes in the one behind it. -/
theorem numberMember (h : Firm ⟨.number, raw⟩) (hpoint : '.' ∉ raw.toList)
    (hproperty : Firm ⟨.identifier, property⟩) :
    Spelling (raw ++ "." ++ property) [⟨.number, raw ++ "."⟩, ⟨.identifier, property⟩] false := by
  have hfirm : Firm ⟨.number, raw ++ "."⟩ := by
    rcases h.text_cases rfl with ⟨hkind, -⟩ | ⟨-, c, cs, htext, hc, hlength⟩ | ⟨hkind, -⟩
    · cases hkind
    · dsimp only at htext
      have hdigits := Token.isDigit_or_point_of_numberLength hlength
      have hnone : cs.count '.' = 0 :=
        List.count_eq_zero.mpr fun hmem => hpoint (by simp [htext, hmem])
      have hall : Token.numberLength false (cs ++ ['.']) = (cs ++ ['.']).length := by
        refine Token.numberLength_eq_length (fun d hd => ?_) (by simp [hnone])
        rcases List.mem_append.mp hd with hd | hd
        · exact hdigits d hd
        · exact Or.inr (List.mem_singleton.mp hd)
      have hchars : (raw ++ ".").toList = c :: (cs ++ ['.']) := by simp [htext]
      have hnumber := firm_number hc hall
      rwa [← hchars, String.ofList_toList] at hnumber
    · exact absurd hkind (TokenKind.ofWord_ne raw).2.symm
  obtain ⟨hreads, -, hlast⟩ := word hproperty rfl rfl
  obtain ⟨-, hhead, -⟩ := word hfirm rfl rfl
  dsimp only at hreads hlast hhead
  refine ⟨fun read _ => ?_, ?_, ?_⟩
  · rcases hproperty.text_cases rfl with ⟨hkind, -⟩ | ⟨hkind, -⟩ | ⟨-, c, cs, htext, hc, -⟩
    · cases hkind
    · cases hkind
    · have hname := hreads read
      have hapart : TokenKind.number.runsOn c = false := by
        simp only [TokenKind.runsOn, Bool.or_eq_false_iff, beq_eq_false_iff_ne]
        refine ⟨?_, ?_⟩
        · cases hdigit : c.isDigit with
          | false => rfl
          | true =>
              rw [Text.not_isNameStart_of_isDigit hdigit] at hc
              cases hc
        · rintro rfl
          exact absurd hc (by decide)
      dsimp only at htext
      rw [String.toList_append, htext]
      rw [htext] at hname
      exact (hfirm.readsBy read).append_cons hname hapart
  · obtain ⟨c, cs, hc, hne⟩ := hhead
    exact ⟨c, cs ++ property.toList, by simp [hc], hne⟩
  · obtain ⟨cs, d, hd, hblank⟩ := hlast
    exact ⟨(raw ++ ".").toList ++ cs, d, by simp [hd], hblank⟩

end Spelling

namespace Word

/-- Words as they stand in a phrase, and as they are cut from the text of its expression.  There a
number takes in a point behind it, if that is allowed. -/
inductive Joined (allowed : Prop) : List Word → List Word → Prop where
  | nil : Joined allowed [] []
  | cons (w : Word) {ws vs : List Word} : Joined allowed ws vs → Joined allowed (w :: ws) (w :: vs)
  | point (raw name : String) {ws vs : List Word} : allowed → Joined allowed ws vs →
      Joined allowed (⟨.number, raw⟩ :: symbol .dot :: ⟨.identifier, name⟩ :: ws)
        (⟨.number, raw ++ "."⟩ :: ⟨.identifier, name⟩ :: vs)

namespace Joined

variable {allowed : Prop} {us vs ws xs : List Word}

theorem refl (ws : List Word) : Joined allowed ws ws := by
  induction ws with
  | nil => exact .nil
  | cons w ws ih => exact .cons w ih

theorem append (h : Joined allowed us vs) (h' : Joined allowed ws xs) :
    Joined allowed (us ++ ws) (vs ++ xs) := by
  induction h with
  | nil => exact h'
  | cons w _ ih => exact .cons w ih
  | point raw name hallowed _ ih => exact .point raw name hallowed ih

theorem infixed (h : Joined allowed us vs) (w : Word) (h' : Joined allowed ws xs) :
    Joined allowed (us ++ w :: ws) (vs ++ w :: xs) :=
  h.append (.cons w h')

theorem guarded (h : Joined allowed us vs) (binding demanded : Nat) :
    Joined allowed (Spelling.guardedWords us binding demanded)
      (Spelling.guardedWords vs binding demanded) := by
  rw [Spelling.guardedWords, Spelling.guardedWords]
  split
  · exact (Joined.cons _ h).append (refl _)
  · exact h

theorem intercalate (sep : List Word) {items : List (List Word × List Word)}
    (h : ∀ a ∈ items, Joined allowed a.1 a.2) :
    Joined allowed (sep.intercalate (items.map Prod.fst))
      (sep.intercalate (items.map Prod.snd)) := by
  induction items with
  | nil => exact refl _
  | cons a items ih =>
      have hfirst := h a List.mem_cons_self
      have hrest := ih fun b hb => h b (List.mem_cons_of_mem a hb)
      cases items with
      | nil => simpa using hfirst
      | cons b items =>
          simp only [List.map_cons, List.intercalate_cons_cons] at hrest ⊢
          exact (hfirst.append (refl sep)).append hrest

theorem eq (h : Joined False us vs) : us = vs := by
  induction h with
  | nil => rfl
  | cons w _ ih => rw [ih]
  | point _ _ hallowed => exact hallowed.elim

end Joined

end Word

namespace Expr

def isNumber : Expr → Bool
  | .literal _ (.number _) _ => true
  | _ => false

def isNumberMember : Expr → Bool
  | .member _ object _ => object.isNumber
  | _ => false

/-- Whether the text of an expression may end in a number. -/
def pointed (e : Expr) : Bool :=
  e.isNumber || decide (e.binding < Binding.trailing)

/-- A text is cut into the words of a phrase of some strength, but for points that are taken in. -/
def Spells (allowed : Prop) (text : String) (pointed : Bool) (n : Nat) (e : Expr) : Prop :=
  ∃ ws vs, Phrase n ws e ∧ Joined allowed ws vs ∧ Spelling text vs pointed

namespace Spells

variable {allowed : Prop} {text : String} {pointed : Bool} {n : Nat} {e : Expr}

theorem of_phrase {ws : List Word} (h : Phrase n ws e) (htext : Spelling text ws pointed) :
    Spells allowed text pointed n e :=
  ⟨ws, ws, h, .refl ws, htext⟩

theorem guarded (h : Spells allowed text pointed n e) (demanded : Nat)
    (hlow : 1 ≤ demanded) (hhigh : demanded ≤ 10) :
    Spells allowed (Expr.guarded text n demanded) pointed demanded e := by
  obtain ⟨ws, vs, hphrase, hjoined, hspelling⟩ := h
  exact ⟨_, _, hphrase.guarded hlow hhigh, hjoined.guarded n demanded, hspelling.guarded n demanded⟩

/-- An object of which a member is taken does not end in a number, unless it is one. -/
theorem guarded_object (h : Spells allowed e.source e.pointed e.binding e)
    (hnumber : e.isNumber = false) :
    Spells allowed (Expr.guarded e.source e.binding 9) false 9 e := by
  by_cases hbinding : e.binding < 9
  · obtain ⟨ws, vs, hphrase, hjoined, hspelling⟩ := h
    refine ⟨_, _, hphrase.guarded (by decide) (by decide), hjoined.guarded e.binding 9, ?_⟩
    rw [Expr.guarded, Spelling.guardedWords, if_pos hbinding, if_pos hbinding]
    exact hspelling.parenthesized
  · have hpointed : e.pointed = false := by
      rw [Expr.pointed, hnumber, Bool.false_or, decide_eq_false_iff_not]
      exact hbinding
    rw [hpointed] at h
    exact h.guarded 9 (by decide) (by decide)

/-- A call is spelled by what is called and by its arguments, whichever way these are spelled. -/
theorem call (l : Location) (h : Spells allowed text pointed 9 e) (shown : Expr → String)
    (arguments : List Expr) (hargs : ∀ a ∈ arguments, Spells allowed (shown a) true 1 a) :
    Spells allowed (text ++ "(" ++ ", ".intercalate (arguments.map shown) ++ ")") false 9
      (.call l e arguments) := by
  obtain ⟨us, vs, hphrase, hjoined, hspelling⟩ := h
  obtain ⟨items, htexts, hexprs, hitems⟩ : ∃ items : List (String × List Word × List Word × Expr),
      items.map (·.1) = arguments.map shown ∧ items.map (·.2.2.2) = arguments ∧
      ∀ a ∈ items, Phrase 1 a.2.1 a.2.2.2 ∧ Joined allowed a.2.1 a.2.2.1 ∧
        Spelling a.1 a.2.2.1 true := by
    induction arguments with
    | nil => exact ⟨[], rfl, rfl, by simp⟩
    | cons e es ih =>
        obtain ⟨ws, xs, he⟩ := hargs e List.mem_cons_self
        obtain ⟨items, htexts, hexprs, hitems⟩ := ih fun a ha =>
          hargs a (List.mem_cons_of_mem e ha)
        exact ⟨(shown e, ws, xs, e) :: items, by simp [htexts], by simp [hexprs],
          List.forall_mem_cons.mpr ⟨he, hitems⟩⟩
  have hphrases : ∀ a ∈ items.map fun a => (a.2.1, a.2.2.2), Phrase 1 a.1 a.2 :=
    List.forall_mem_map.mpr fun a ha => (hitems a ha).1
  have hjoins : ∀ a ∈ items.map fun a => (a.2.1, a.2.2.1), Joined allowed a.1 a.2 :=
    List.forall_mem_map.mpr fun a ha => (hitems a ha).2.1
  have hspellings : ∀ a ∈ items.map fun a => (a.1, a.2.2.1), Spelling a.1 a.2 true :=
    List.forall_mem_map.mpr fun a ha => (hitems a ha).2.2
  have hcall := hphrase.call_symbol l (listed_intercalate _) hphrases
  have hwords := (hjoined.infixed (symbol .leftParen)
    (Joined.intercalate [symbol .comma] hjoins)).append (.refl [symbol .rightParen])
  have hspelled := hspelling.call hspellings
  simp only [List.map_map, Function.comp_def] at hcall hwords hspelled
  rw [hexprs] at hcall
  rw [htexts] at hspelled
  exact ⟨_, _, hcall, hwords, hspelled⟩

/-- A member is spelled as its object is, but for the point that the object may take in if it is a
number. -/
theorem member (l : Location) (property : String) (hfirm : Firm ⟨.identifier, property⟩)
    (hobject : e.Proper) (h : Spells allowed e.source e.pointed e.binding e)
    (hmember : e.isNumber = true → allowed) :
    Spells allowed (Expr.member l e property).source false 9 (.member l e property) := by
  by_cases hnumber : e.isNumber = true
  · cases hobject with
    | @number l' raw value hvalue hraw =>
        have hphrase := ((Phrase.number l' hvalue).loosen (by decide)).member_symbol l property
        by_cases hpoint : '.' ∈ raw.toList
        · exact .of_phrase hphrase ((Spelling.pointedNumber hraw hpoint).member hfirm)
        · exact ⟨_, _, hphrase, .point raw property (hmember hnumber) .nil,
            Spelling.numberMember hraw hpoint hfirm⟩
    | _ => cases hnumber
  · obtain ⟨ws, vs, hphrase, hjoined, hspelling⟩ :=
      h.guarded_object (Bool.eq_false_iff.mpr hnumber)
    exact ⟨_, _, hphrase.member_symbol l property, hjoined.append (.refl _),
      hspelling.member hfirm⟩

variable {kind : TokenKind} {op : String} {left right : Expr}

/-- An operation is spelled by its operands, the one on the right in a stronger place. -/
theorem binary (l : Location) (hlow : 2 ≤ kind.joins) (hhigh : kind.joins ≤ 7)
    (hsymbol : kind.symbol? = some op)
    (hl : Spells allowed left.source left.pointed left.binding left)
    (hr : Spells allowed right.source right.pointed right.binding right) :
    Spells allowed (Expr.binary l op left right).source (Expr.binary l op left right).pointed
      (Expr.binary l op left right).binding (.binary l op left right) := by
  have hstrength := TokenKind.ofOperator_of_symbol? hsymbol (by omega) hhigh
  obtain ⟨us, us', hus, hjoined, hsl⟩ := hl.guarded kind.joins (by omega) (by omega)
  obtain ⟨vs, vs', hvs, hjoined', hsr⟩ := hr.guarded (kind.joins + 1) (by omega) (by omega)
  have hpointed : (Expr.binary l op left right).pointed = true := by
    rw [Expr.pointed, binding, hstrength, decide_eq_true (by change _ < 9; omega), Bool.or_true]
  refine ⟨us ++ symbol kind :: vs, us' ++ symbol kind :: vs', ?_, hjoined.infixed _ hjoined', ?_⟩
  · rw [binding, hstrength]
    exact hus.binary_symbol l hlow hhigh hsymbol hvs
  · rw [hpointed, source, hstrength]
    exact hsl.infixed hsymbol hsr.pointed_true

/-- An assignment is spelled by its two sides, the one on the left in a stronger place. -/
theorem assign (l : Location) (hop : ExprGrammar.isAssignment kind = true)
    (hsymbol : kind.symbol? = some op)
    (hl : Spells allowed left.source left.pointed left.binding left)
    (hr : Spells allowed right.source right.pointed right.binding right) :
    Spells allowed (Expr.assign l op left right).source (Expr.assign l op left right).pointed
      (Expr.assign l op left right).binding (.assign l op left right) := by
  have hjoins := TokenKind.joins_of_isAssignment hop
  have hstrength := TokenKind.ofOperator_of_symbol? hsymbol (by omega) (by omega)
  obtain ⟨us, us', hus, hjoined, hsl⟩ := hl.guarded 2 (by decide) (by decide)
  obtain ⟨vs, vs', hvs, hjoined', hsr⟩ := hr.guarded 1 (by decide) (by decide)
  have hpointed : (Expr.assign l op left right).pointed = true := by
    rw [Expr.pointed, binding, hstrength, hjoins]
    rfl
  refine ⟨us ++ symbol kind :: vs, us' ++ symbol kind :: vs', ?_, hjoined.infixed _ hjoined', ?_⟩
  · rw [binding, hstrength, hjoins]
    exact hus.assign_symbol l hop hsymbol hvs
  · rw [hpointed, source, hstrength, hjoins]
    exact hsl.infixed hsymbol hsr.pointed_true

end Spells

/-- The text of an expression is read as a phrase of it. -/
def Printed (e : Expr) : Prop :=
  ∃ ws, Phrase e.binding ws e ∧ Spelling e.source ws e.pointed

theorem Printed.guarded {e : Expr} (h : e.Printed) (demanded : Nat) (hlow : 1 ≤ demanded)
    (hhigh : demanded ≤ 10) :
    ∃ ws, Phrase demanded ws e ∧ Spelling (guarded e.source e.binding demanded) ws true := by
  obtain ⟨ws, hphrase, hspelling⟩ := h
  exact ⟨_, hphrase.guarded hlow hhigh, (hspelling.guarded _ _).pointed_true⟩

theorem symbol?_of_namesValue {kind : TokenKind} (h : kind.namesValue = true) :
    kind.symbol? = none ∧ kind ≠ .number := by
  cases kind <;> first | exact ⟨rfl, by decide⟩ | exact absurd h (by decide)

theorem sources_eq_map (es : List Expr) : sources es = es.map source := by
  induction es with
  | nil => rfl
  | cons e es ih => rw [sources, ih, List.map_cons]

/-- A call is spelled by what is called and by its arguments, whichever way these are spelled. -/
theorem exists_call (l : Location) {callee : Expr} {called : String} {us : List Word}
    {pointed : Bool} (hphrase : Phrase 9 us callee) (hspelling : Spelling called us pointed)
    (text : Expr → String) (arguments : List Expr)
    (hargs : ∀ a ∈ arguments, ∃ ws, Phrase 1 ws a ∧ Spelling (text a) ws true) :
    ∃ ws, Phrase 9 ws (.call l callee arguments) ∧
      Spelling (called ++ "(" ++ ", ".intercalate (arguments.map text) ++ ")") ws false := by
  have hcallee : Spells False called pointed 9 callee := .of_phrase hphrase hspelling
  obtain ⟨ws, vs, hcall, hjoined, hspelled⟩ := hcallee.call l text arguments fun a ha => by
    obtain ⟨ws, hphrase, hspelling⟩ := hargs a ha
    exact .of_phrase hphrase hspelling
  exact ⟨ws, hcall, hjoined.eq ▸ hspelled⟩

/-- The text of a proper expression is cut into the words of a phrase of it, but for the points
behind the numbers of which members are taken. -/
theorem Proper.spells {allowed : Prop} {e : Expr} (h : e.Proper)
    (hmember : ∀ p ∈ e.parts, p.isNumberMember = true → allowed) :
    Spells allowed e.source e.pointed e.binding e := by
  induction h with
  | name l hid hfirm => exact .of_phrase (.name l hid) (.word hfirm rfl rfl)
  | pin l hid hfirm => exact .of_phrase (.pin l hid) (.word hfirm rfl rfl)
  | number l hvalue hfirm => exact .of_phrase (.number l hvalue) (.word hfirm rfl rfl)
  | string l hfirm => exact .of_phrase (.string l _) (.word hfirm rfl rfl)
  | constant l hkind hfirm =>
      obtain ⟨hsymbol, hnumber⟩ := symbol?_of_namesValue hkind
      have hphrase := TokenKind.inPhrase_of_begins (TokenKind.begins_of_namesValue hkind).1
      have hword := Spelling.word hfirm hsymbol hphrase
      rw [beq_eq_false_iff_ne.mpr hnumber] at hword
      exact .of_phrase (.constant l _ hkind) hword
  | member l hfirm hobject ih =>
      have hspelled := ih fun p hp => hmember p (List.mem_cons_of_mem _ hp)
      exact hspelled.member l _ hfirm hobject (hmember _ List.mem_cons_self)
  | call l hcallee hargs ih ihs =>
      rw [parts, partsAll_eq_flatMap] at hmember
      have hcalled := (ih fun p hp => hmember p (List.mem_cons_of_mem _
        (List.mem_append_left _ hp))).guarded 9 (by decide) (by decide)
      have hcall := hcalled.call l source _ fun a ha => by
        obtain ⟨ws, vs, hphrase, hjoined, hspelling⟩ := ihs a ha fun p hp => hmember p
          (List.mem_cons_of_mem _ (List.mem_append_right _ (List.mem_flatMap.mpr ⟨a, ha, hp⟩)))
        exact ⟨ws, vs, hphrase.loosenTo (Nat.le_refl 1) hphrase.one_le, hjoined,
          hspelling.pointed_true⟩
      rwa [← sources_eq_map] at hcall
  | step l hop hsymbol hoperand ih =>
      obtain ⟨ws, vs, hphrase, hjoined, hspelling⟩ := (ih fun p hp =>
        hmember p (List.mem_cons_of_mem _ hp)).guarded 9 (by decide) (by decide)
      exact ⟨_, _, hphrase.step_symbol l hop hsymbol, hjoined.append (.refl _),
        hspelling.step hsymbol hop⟩
  | leading l hop hsymbol hoperand ih =>
      obtain ⟨ws, vs, hphrase, hjoined, hspelling⟩ := (ih fun p hp =>
        hmember p (List.mem_cons_of_mem _ hp)).guarded 8 (by decide) (by decide)
      exact ⟨_, _, hphrase.leading_symbol l hop hsymbol, .cons _ hjoined,
        (hspelling.joinLeading hsymbol hop).pointed_true⟩
  | binary l hlow hhigh hsymbol _ _ ihl ihr =>
      exact .binary l hlow hhigh hsymbol
        (ihl fun p hp => hmember p (List.mem_cons_of_mem _ (List.mem_append_left _ hp)))
        (ihr fun p hp => hmember p (List.mem_cons_of_mem _ (List.mem_append_right _ hp)))
  | assign l hop hsymbol _ _ ihl ihr =>
      exact .assign l hop hsymbol
        (ihl fun p hp => hmember p (List.mem_cons_of_mem _ (List.mem_append_left _ hp)))
        (ihr fun p hp => hmember p (List.mem_cons_of_mem _ (List.mem_append_right _ hp)))

/-- The text of a proper expression is read as a phrase of it. -/
theorem Proper.printed {e : Expr} (h : e.Proper) (hmember : ∀ p ∈ e.parts, ¬ p.isNumberMember) :
    e.Printed := by
  obtain ⟨ws, vs, hphrase, hjoined, hspelling⟩ := h.spells hmember
  exact ⟨ws, hphrase, hjoined.eq ▸ hspelling⟩

end Expr

end InoBlocks
