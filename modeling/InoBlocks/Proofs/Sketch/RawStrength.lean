import InoBlocks.Proofs.Sketch.Printing
import InoBlocks.Proofs.Number.Unsigned
import InoBlocks.Sketch.RawText
import InoBlocks.Proofs.Sketch.Quoting

/-!
# The strength of raw text

How tightly a raw text binds is guessed from its characters.  The guess for the text of an
expression is never higher than the strength of the expression itself, so parentheses that are
left out on account of it are not missed.
-/

namespace InoBlocks

/-! ## Atoms -/

theorem closesAtEnd_cons {quote c : Char} (hc : c ≠ '\\') (cs : List Char) :
    closesAtEnd quote (c :: cs) = if c = quote then cs.isEmpty else closesAtEnd quote cs := by
  have hslash : (c != '\\') = true := bne_iff_ne.mpr hc
  rw [closesAtEnd]
  · simp [hslash]
  · rintro _ _ rfl
    exact absurd rfl hc

theorem getLast?_of_closesAtEnd {quote : Char} {cs : List Char} (h : closesAtEnd quote cs = true) :
    cs.getLast? = some quote := by
  fun_induction closesAtEnd quote cs with
  | case1 => cases h
  | case2 c cs ih =>
      rw [Bool.and_eq_true] at h
      simp [List.getLast?_cons, ih h.2]
  | case3 c cs hnext hquote =>
      rw [List.isEmpty_iff] at h
      subst h
      rw [eq_of_beq hquote]
      rfl
  | case4 c cs hnext hquote ih =>
      rw [Bool.and_eq_true] at h
      simp [List.getLast?_cons, ih h.2]

theorem isWord_of_isNameText {cs : List Char} (h : isNameText cs = true) :
    ∀ d ∈ cs, Text.isWord d = true := by
  cases cs with
  | nil => cases h
  | cons c cs =>
      rw [isNameText, Bool.and_eq_true] at h
      have hc := Text.isWord_of_isNameChar (Text.isNameChar_of_isNameStart h.1)
      simpa [hc] using h.2

theorem isDecimal_or_point_of_isNumberText {cs : List Char} (h : isNumberText cs = true) :
    ∀ d ∈ cs, Text.isDecimal d = true ∨ d = '.' := by
  intro d hd
  rw [← List.takeWhile_append_dropWhile (p := Text.isDecimal) (l := cs), List.mem_append] at hd
  unfold isNumberText at h
  dsimp only at h
  rcases hd with hd | hd
  · exact Or.inl (List.all_eq_true.mp List.all_takeWhile d hd)
  · split at h
    · rename_i hdrop
      rw [hdrop] at hd
      cases hd
    · rename_i fraction hdrop
      rw [hdrop, List.mem_cons] at hd
      rw [Bool.and_eq_true, List.all_eq_true] at h
      exact hd.symm.imp_left (h.1 d)
    · cases h

theorem quote_of_isQuotedText {cs : List Char} (h : isQuotedText cs = true) :
    cs.getLast? = some '"' ∨ cs.getLast? = some '\'' := by
  cases cs with
  | nil => cases h
  | cons c cs =>
      simp only [isQuotedText, Bool.and_eq_true, Bool.or_eq_true, beq_iff_eq] at h
      rw [List.getLast?_cons, getLast?_of_closesAtEnd h.2, Option.getD_some]
      rcases h.1 with rfl | rfl
      · exact Or.inl rfl
      · exact Or.inr rfl

def endsAtom (d : Char) : Bool :=
  Text.isWord d || Text.isDecimal d || d == '.' || d == '"' || d == '\''

theorem endsAtom_of_isAtomText {cs : List Char} (h : isAtomText cs = true) {d : Char}
    (hd : cs.getLast? = some d) : endsAtom d = true := by
  have hmem := List.mem_of_getLast? hd
  rw [isAtomText, Bool.or_eq_true, Bool.or_eq_true] at h
  rcases h with (h | h) | h
  · simp [endsAtom, isWord_of_isNameText h d hmem]
  · rcases isDecimal_or_point_of_isNumberText h d hmem with h | h <;> simp [endsAtom, h]
  · rcases quote_of_isQuotedText h with h | h <;> rw [h] at hd <;> cases hd <;> rfl

def beginsAtom (c : Char) : Bool :=
  Text.isNameStart c || Text.isDecimal c || c == '.' || c == '"' || c == '\''

theorem beginsAtom_of_isAtomText {c : Char} {cs : List Char} (h : isAtomText (c :: cs) = true) :
    beginsAtom c = true := by
  rw [isAtomText, Bool.or_eq_true, Bool.or_eq_true] at h
  rcases h with (h | h) | h
  · rw [isNameText, Bool.and_eq_true] at h
    simp [beginsAtom, h.1]
  · rcases isDecimal_or_point_of_isNumberText h c List.mem_cons_self with h | h <;>
      simp [beginsAtom, h]
  · rw [isQuotedText, Bool.and_eq_true, Bool.or_eq_true] at h
    rcases h.1 with h | h <;> simp [beginsAtom, h]

/-! ## Steps -/

theorem exists_name_of_isStepText {cs : List Char} (h : isStepText cs = true) :
    ∃ name a, cs = name ++ [a, a] ∧ isNameText name = true ∧ (a = '+' ∨ a = '-') := by
  unfold isStepText at h
  split at h
  · rename_i a b rest hreverse
    simp only [Bool.and_eq_true, Bool.or_eq_true, beq_iff_eq] at h
    refine ⟨rest.reverse, a, ?_, h.2, h.1.2⟩
    have hcs := congrArg List.reverse hreverse
    simpa [h.1.1] using hcs
  · cases h

theorem isNameStart_of_isStepText {c : Char} {cs : List Char} (h : isStepText (c :: cs) = true) :
    Text.isNameStart c = true := by
  obtain ⟨name, a, hcs, hname, -⟩ := exists_name_of_isStepText h
  cases name with
  | nil => cases hname
  | cons d ds =>
      rw [isNameText, Bool.and_eq_true] at hname
      rw [List.cons_append, List.cons.injEq] at hcs
      rw [hcs.1]
      exact hname.1

/-! ## Line feeds -/

theorem upToLineFeed_of_last {holds : List Char → Bool} {cs : List Char} {d : Char}
    (hd : cs.getLast? = some d) (hne : d ≠ '\n') : upToLineFeed holds cs = holds cs := by
  simp [upToLineFeed, hd, hne]

theorem upToLineFeed_of_head {holds : List Char → Bool} {c : Char} (hnil : holds [] = false)
    (hcons : ∀ cs, holds (c :: cs) = false) (cs : List Char) :
    upToLineFeed holds (c :: cs) = false := by
  rw [upToLineFeed, hcons, Bool.false_or, Bool.and_eq_false_iff]
  cases cs with
  | nil => exact Or.inr hnil
  | cons d ds => exact Or.inr (hcons _)

/-! ## Strengths -/

theorem rawBinding_le_primary (cs : List Char) : rawBinding cs ≤ Binding.primary := by
  fun_cases rawBinding cs <;> decide

theorem rawBinding_le_trailing {cs : List Char} {d : Char} (hd : cs.getLast? = some d)
    (hne : d ≠ '\n') (hatom : isAtomText cs = false) : rawBinding cs ≤ Binding.trailing := by
  fun_cases rawBinding cs with
  | case1 => decide
  | case2 c cs h =>
      rw [upToLineFeed_of_last hd hne, hatom] at h
      cases h
  | _ => decide

theorem rawBinding_le_leading {c : Char} (hc : beginsAtom c = false) (cs : List Char) :
    rawBinding (c :: cs) ≤ Binding.leading := by
  have hname : Text.isNameStart c = false := by
    simp only [beginsAtom, Bool.or_eq_false_iff] at hc
    exact hc.1.1.1.1
  have hatom : upToLineFeed isAtomText (c :: cs) = false := by
    refine upToLineFeed_of_head rfl (fun ds => ?_) cs
    cases h : isAtomText (c :: ds) with
    | false => rfl
    | true => rw [beginsAtom_of_isAtomText h] at hc; cases hc
  have hstep : upToLineFeed isStepText (c :: cs) = false := by
    refine upToLineFeed_of_head rfl (fun ds => ?_) cs
    cases h : isStepText (c :: ds) with
    | false => rfl
    | true => rw [isNameStart_of_isStepText h] at hname; cases hname
  have hcall : isCallText (c :: cs) = false := by
    rw [isCallText]
    split
    · rw [hname]
      rfl
    · rfl
  rw [rawBinding, hatom, hstep, hcall]
  split
  · contradiction
  · split
    · contradiction
    · split <;> decide

theorem rawBinding_blank {c d : Char} {cs ds : List Char} (hc : Text.isNameStart c = true)
    (hcs : cs.all Text.isNameChar = true) (hlength : 2 ≤ ds.length)
    (hd : (c :: cs ++ ' ' :: ds).getLast? = some d) (hne : d ≠ '\n') :
    rawBinding (c :: cs ++ ' ' :: ds) = Binding.unknown := by
  have hword : ∀ x ∈ c :: cs, Text.isWord x = true := by
    have hfirst := Text.isWord_of_isNameChar (Text.isNameChar_of_isNameStart hc)
    have hrest : ∀ x ∈ cs, Text.isWord x = true := fun x hx =>
      Text.isWord_of_isNameChar (List.all_eq_true.mp hcs x hx)
    simpa [hfirst] using hrest
  have hnotName : ∀ text : List Char, ' ' ∈ text → isNameText text = false := by
    intro text hmem
    cases h : isNameText text with
    | false => rfl
    | true => exact absurd (isWord_of_isNameText h ' ' hmem) (by decide)
  have hatom : isAtomText (c :: cs ++ ' ' :: ds) = false := by
    rw [isAtomText, hnotName _ (by simp), Bool.false_or, Bool.or_eq_false_iff]
    constructor
    · cases h : isNumberText (c :: cs ++ ' ' :: ds) with
      | false => rfl
      | true =>
          exact absurd (isDecimal_or_point_of_isNumberText h ' ' (by simp)) (by decide)
    · have hquote : (c == '"' || c == '\'') = false := by
        rw [Bool.or_eq_false_iff, beq_eq_false_iff_ne, beq_eq_false_iff_ne]
        constructor <;> rintro rfl <;> exact absurd hc (by decide)
      rw [List.cons_append, isQuotedText, hquote, Bool.false_and]
  have hstep : isStepText (c :: cs ++ ' ' :: ds) = false := by
    cases h : isStepText (c :: cs ++ ' ' :: ds) with
    | false => rfl
    | true =>
        obtain ⟨name, a, htext, hname, -⟩ := exists_name_of_isStepText h
        have hmem : ' ' ∈ name := by
          rcases List.append_eq_append_iff.mp htext with ⟨es, rfl, hes⟩ | ⟨es, -, hes⟩
          · cases es with
            | nil =>
                have hlen := congrArg List.length hes
                simp only [List.length_cons, List.nil_append, List.length_nil] at hlen
                omega
            | cons e es =>
                rw [List.cons_append, List.cons.injEq] at hes
                rw [hes.1]
                simp
          · have hlen := congrArg List.length hes
            simp only [List.length_cons, List.length_append, List.length_nil] at hlen
            omega
        rw [hnotName name hmem] at hname
        cases hname
  have hcall : isCallText (c :: cs ++ ' ' :: ds) = false := by
    have hmember : ∀ x ∈ cs, isMemberChar x = true := by
      intro x hx
      rw [isMemberChar, hword x (List.mem_cons_of_mem c hx), Bool.true_or]
    have hblank : ¬ isMemberChar ' ' = true := by decide
    rw [List.cons_append, isCallText, List.dropWhile_append_of_pos hmember,
      List.dropWhile_cons_of_neg hblank]
    rfl
  have hleading : isLeading c (cs ++ ' ' :: ds) = false := by
    have hsign : (c == '!' || c == '-' || c == '+') = false := by
      rw [Bool.or_eq_false_iff, Bool.or_eq_false_iff, beq_eq_false_iff_ne, beq_eq_false_iff_ne,
        beq_eq_false_iff_ne]
      refine ⟨⟨?_, ?_⟩, ?_⟩ <;> rintro rfl <;> exact absurd hc (by decide)
    unfold isLeading
    split
    · rfl
    · rw [hsign, Bool.false_and]
  rw [List.cons_append] at *
  rw [rawBinding, upToLineFeed_of_last hd hne, upToLineFeed_of_last hd hne, hatom, hstep, hcall,
    hleading]
  rfl

/-! ## The strength of expressions -/

theorem isDigit_or_le_of_isDecimal {c : Char} (h : Text.isDecimal c = true) :
    c.isDigit = true ∨ 128 ≤ c.toNat := by
  by_cases hdigit : c.isDigit = true
  · exact Or.inl hdigit
  · have hzeros : ∀ first ∈ Text.digitZeros, 128 ≤ first := by decide
    rw [Text.isDecimal, Text.digitValue?, if_neg hdigit, Option.isSome_map,
      List.find?_isSome] at h
    obtain ⟨first, hfirst, hrange⟩ := h
    rw [Bool.and_eq_true, decide_eq_true_eq] at hrange
    exact Or.inr (Nat.le_trans (hzeros first hfirst) hrange.1)

theorem not_isDecimal_of_isNameStart {c : Char} (hc : Text.isNameStart c = true) :
    Text.isDecimal c = false := by
  rw [Bool.eq_false_iff]
  intro h
  rcases isDigit_or_le_of_isDecimal h with hdigit | hle
  · rw [Text.not_isNameStart_of_isDigit hdigit] at hc
    cases hc
  · rw [Text.isNameStart_iff] at hc
    omega

namespace Expr

/-- Whether the text of an expression may have to stand as it is. -/
def standsRaw : Expr → Bool
  | .binary .. => false
  | .assign _ _ (.name ..) _ => true
  | .assign .. => false
  | _ => true

theorem rawBinding_member (l : Location) (object : Expr) {property : String}
    (hfirm : Word.Firm ⟨.identifier, property⟩) :
    rawBinding (Expr.member l object property).source.toList ≤ Binding.trailing := by
  obtain ⟨c, cs, hproperty, hc, hcs⟩ : ∃ c cs, property.toList = c :: cs ∧
      Text.isNameStart c = true ∧ cs.all Text.isNameChar = true := by
    rcases hfirm.text_cases rfl with ⟨hkind, -⟩ | ⟨hkind, -⟩ | ⟨-, h⟩
    · cases hkind
    · cases hkind
    · exact h
  have hnames : ∀ x ∈ c :: cs, Text.isNameChar x = true := by
    simpa [Text.isNameChar_of_isNameStart hc] using hcs
  obtain ⟨d, hd⟩ : ∃ d, (c :: cs).getLast? = some d := ⟨_, List.getLast?_cons⟩
  have hend := hnames d (List.mem_of_getLast? hd)
  have htext : (Expr.member l object property).source.toList =
      (guarded object.source object.binding Binding.trailing).toList ++ '.' :: c :: cs := by
    simp [source, hproperty]
  rw [htext]
  have hlast : ((guarded object.source object.binding Binding.trailing).toList ++
      '.' :: c :: cs).getLast? = some d := by
    rw [List.getLast?_append, List.getLast?_cons_cons, hd]
    rfl
  refine rawBinding_le_trailing hlast ?_ ?_
  · rintro rfl
    exact absurd hend (by decide)
  · rw [isAtomText, Bool.or_eq_false_iff, Bool.or_eq_false_iff]
    refine ⟨⟨?_, ?_⟩, ?_⟩
    · apply Bool.eq_false_iff.mpr
      intro h
      exact absurd (isWord_of_isNameText h '.' (by simp)) (by decide)
    · apply Bool.eq_false_iff.mpr
      intro h
      rcases isDecimal_or_point_of_isNumberText h c (by simp) with h | rfl
      · rw [not_isDecimal_of_isNameStart hc] at h
        cases h
      · exact absurd hc (by decide)
    · apply Bool.eq_false_iff.mpr
      intro h
      rcases quote_of_isQuotedText h with h | h <;> rw [hlast] at h <;> cases h <;>
        exact absurd hend (by decide)

theorem rawBinding_step (l : Location) (operand : Expr) {kind : TokenKind} {op : String}
    (hop : ExprGrammar.isTrailing kind = true) (hsymbol : kind.symbol? = some op) :
    rawBinding (Expr.unary l op operand false).source.toList ≤ Binding.trailing := by
  have hcases : op = "++" ∨ op = "--" := by
    cases kind <;> first
      | exact absurd hop (by decide)
      | (cases hsymbol
         decide)
  obtain ⟨a, ha, hlast⟩ : ∃ a, (a = '+' ∨ a = '-') ∧
      (Expr.unary l op operand false).source.toList.getLast? = some a := by
    rcases hcases with rfl | rfl
    · exact ⟨'+', Or.inl rfl, by simp [source]⟩
    · exact ⟨'-', Or.inr rfl, by simp [source]⟩
  have hend : endsAtom a = false := by
    rcases ha with rfl | rfl <;> decide
  refine rawBinding_le_trailing hlast ?_ (Bool.eq_false_iff.mpr fun h => ?_)
  · rcases ha with rfl | rfl <;> decide
  · rw [endsAtom_of_isAtomText h hlast] at hend
    cases hend

theorem rawBinding_call (l : Location) (callee : Expr) (arguments : List Expr) :
    rawBinding (Expr.call l callee arguments).source.toList ≤ Binding.trailing := by
  have hlast : (Expr.call l callee arguments).source.toList.getLast? = some ')' := by
    rw [source, String.toList_append]
    exact List.getLast?_concat
  refine rawBinding_le_trailing hlast (by decide) (Bool.eq_false_iff.mpr fun h => ?_)
  exact absurd (endsAtom_of_isAtomText h hlast) (by decide)

theorem rawBinding_leading (l : Location) (operand : Expr) {kind : TokenKind} {op : String}
    (hop : ExprGrammar.isLeading kind = true) (hsymbol : kind.symbol? = some op) :
    rawBinding (Expr.unary l op operand true).source.toList ≤ Binding.leading := by
  obtain ⟨c, cs, htext, hc⟩ : ∃ c cs, op.toList = c :: cs ∧ beginsAtom c = false := by
    cases kind <;> first
      | exact absurd hop (by decide)
      | (cases hsymbol
         exact ⟨_, _, rfl, by decide⟩)
  have hsource : ∃ ds, (Expr.unary l op operand true).source.toList = c :: ds := by
    rw [source, if_pos rfl, joinLeading]
    split
    · exact ⟨_, by rw [String.toList_append, String.toList_append, htext]; rfl⟩
    · exact ⟨_, by rw [String.toList_append, htext]; rfl⟩
  obtain ⟨ds, hds⟩ := hsource
  rw [hds]
  exact rawBinding_le_leading hc ds

theorem rawBinding_assign {l l' : Location} {id : String} {right : Expr} {kind : TokenKind}
    {op : String} (hfirm : Word.Firm ⟨.identifier, id⟩)
    (hop : ExprGrammar.isAssignment kind = true) (hsymbol : kind.symbol? = some op)
    (hprinted : (Expr.assign l op (.name l' id) right).Printed) :
    rawBinding (Expr.assign l op (.name l' id) right).source.toList = Binding.unknown := by
  obtain ⟨c, cs, hid, hc, hcs⟩ : ∃ c cs, id.toList = c :: cs ∧
      Text.isNameStart c = true ∧ cs.all Text.isNameChar = true := by
    rcases hfirm.text_cases rfl with ⟨hkind, -⟩ | ⟨hkind, -⟩ | ⟨-, h⟩
    · cases hkind
    · cases hkind
    · exact h
  have hstrength : Binding.ofOperator op + 1 ≤ Binding.primary ∧ op.toList ≠ [] := by
    cases kind <;> first
      | exact absurd hop (by decide)
      | (cases hsymbol
         exact ⟨by decide, by decide⟩)
  obtain ⟨ws, -, hspelling⟩ := hprinted
  obtain ⟨ds, d, hd, hblank⟩ := hspelling.last
  have hne : d ≠ '\n' := by
    rintro rfl
    exact absurd hblank (by decide)
  obtain ⟨es, hes, hlength⟩ : ∃ es, (Expr.assign l op (.name l' id) right).source.toList =
      c :: cs ++ ' ' :: es ∧ 2 ≤ es.length := by
    refine ⟨op.toList ++ ' ' :: (guarded right.source right.binding
      (Binding.ofOperator op)).toList, ?_, ?_⟩
    · have hguarded : guarded id Binding.primary (Binding.ofOperator op + 1) = id := by
        rw [guarded, if_neg (by omega)]
      simp [source, binding, hguarded, hid]
    · have hpos := List.length_pos_iff.mpr hstrength.2
      simp only [List.length_append, List.length_cons]
      omega
  have hlast : (c :: cs ++ ' ' :: es).getLast? = some d := by
    rw [← hes, hd]
    simp
  rw [hes]
  exact rawBinding_blank hc hcs hlength hlast hne

/-- The strength that is guessed of the text of an expression is not above that of the
expression. -/
theorem Proper.rawBinding_le {e : Expr} (h : e.Proper) (hraw : e.standsRaw = true)
    (hprinted : e.Printed) : rawBinding e.source.toList ≤ e.binding := by
  cases h with
  | name | pin | number | string | constant => exact rawBinding_le_primary _
  | member l hfirm hobject => exact rawBinding_member l _ hfirm
  | call l hcallee hargs => exact rawBinding_call l _ _
  | step l hop hsymbol hoperand => exact rawBinding_step l _ hop hsymbol
  | leading l hop hsymbol hoperand => exact rawBinding_leading l _ hop hsymbol
  | binary => cases hraw
  | assign l hop hsymbol hleft hright =>
      cases hleft with
      | name l' hid hfirm =>
          rw [rawBinding_assign hfirm hop hsymbol hprinted]
          exact Nat.zero_le _
      | _ => cases hraw

end Expr

end InoBlocks
