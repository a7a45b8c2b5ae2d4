import InoBlocks.Proofs.Check.Calls
import Mathlib.Data.List.Infix

/-!
# The form of generated code

`Form` describes the masked texts of values and headers: plain characters, operators between
operands, parentheses that match, and calls.  It says nothing of what the characters mean; it is
just enough for the checks to find no error.
-/

namespace InoBlocks

namespace Check

open Text

/-- Whether a character is neither a bracket nor a comma. -/
def isPlain (c : Char) : Bool :=
  !(['(', ')', '{', '}', ','].contains c)

/-- Whether a text may stand between two operands: plain characters, none of them a letter, and
not only blanks and digits. -/
def isGlue (cs : List Char) : Bool :=
  cs.all (fun c => isPlain c && !c.isAlpha) && cs.any fun c => !isBlank c && !c.isDigit

/-- Whether a text may stand in front of parentheses: plain, and with no checked name within it
unless it is that name. -/
def isCallName (name : String) : Bool :=
  name.toList.all isPlain &&
    checkedCalls.all fun other => !name.toList.tails.any other.toList.isPrefixOf || other == name

/-- The masked text of a value or of a header. -/
inductive Form : List Char → Prop where
  | plain {cs : List Char} : (∀ c ∈ cs, isPlain c = true) → Form cs
  /-- An operator between operands. -/
  | glued {cs glue ds : List Char} : Form cs → isGlue glue = true → Form ds →
      Form (cs ++ (glue ++ ds))
  | paren {cs : List Char} : Form cs → Form ('(' :: cs ++ [')'])
  /-- A call; the arguments of a checked one are those that it takes. -/
  | call {name : String} {as : List (List Char)} : isCallName name = true → (∀ a ∈ as, Form a) →
      (name ∈ checkedCalls → (takesTwo name = true → as.length = 2) ∧ ∀ a ∈ as, Readable (trim a)) →
      Form (name.toList ++ ('(' :: [',', ' '].intercalate as ++ [')']))

theorem ne_of_isPlain {c : Char} (h : isPlain c = true) :
    c ≠ '(' ∧ c ≠ ')' ∧ c ≠ '{' ∧ c ≠ '}' ∧ c ≠ ',' := by
  simpa [isPlain, not_or] using h

theorem isGlue_iff {cs : List Char} :
    isGlue cs = true ↔ (∀ c ∈ cs, isPlain c = true ∧ c.isAlpha = false) ∧
      ∃ c ∈ cs, isBlank c = false ∧ c.isDigit = false := by
  simp [isGlue]

theorem isCallName_iff {name : String} :
    isCallName name = true ↔ (∀ c ∈ name.toList, isPlain c = true) ∧
      ∀ other ∈ checkedCalls, other.toList <:+: name.toList → other = name := by
  have hwithin : ∀ cs ds : List Char, ds.tails.any cs.isPrefixOf = true ↔ cs <:+: ds := by
    intro cs ds
    simp only [List.any_eq_true, List.mem_tails, List.isPrefixOf_iff_prefix,
      List.infix_iff_prefix_suffix, and_comm]
  simp only [isCallName, Bool.and_eq_true, List.all_eq_true, Bool.not_eq_true', Bool.or_eq_true,
    beq_iff_eq, ← Bool.not_eq_true, hwithin, Decidable.imp_iff_not_or]

namespace Form

variable {m : List Char}

/-! ## Brackets and arguments -/

/-- What holds of plain characters, of two texts side by side, and of a text in parentheses if
something weaker holds of it, which arguments and the separator between them have, holds of all
forms. -/
theorem closed {p q : List Char → Prop} (hplain : ∀ cs, (∀ c ∈ cs, isPlain c = true) → p cs)
    (happend : ∀ m n, p m → p n → p (m ++ n)) (hparen : ∀ m, q m → p ('(' :: m ++ [')']))
    (hinside : ∀ m, p m → q m) (hjoin : ∀ m n, q m → q n → q (m ++ n)) (hseparator : q [',', ' '])
    (h : Form m) : p m := by
  induction h with
  | plain h => exact hplain _ h
  | glued _ hglue _ ihcs ihds =>
      have hall := fun c hc => ((isGlue_iff.mp hglue).1 c hc).1
      exact happend _ _ ihcs (happend _ _ (hplain _ hall) ihds)
  | paren _ ih => exact hparen _ (hinside _ ih)
  | call hname _ _ ih =>
      have hall := (isCallName_iff.mp hname).1
      have hnil : q [] := hinside [] (hplain [] (fun c hc => nomatch hc))
      exact happend _ _ (hplain _ hall)
        (hparen _ (joined_induction hnil hjoin hseparator fun a ha => hinside a (ih a ha)))

theorem without_braces (h : Form m) : ∀ c ∈ m, c ≠ '{' ∧ c ≠ '}' := by
  have happend : ∀ m n : List Char, (∀ c ∈ m, c ≠ '{' ∧ c ≠ '}') → (∀ c ∈ n, c ≠ '{' ∧ c ≠ '}') →
      ∀ c ∈ m ++ n, c ≠ '{' ∧ c ≠ '}' :=
    fun m n hm hn c hc => (List.mem_append.mp hc).elim (hm c) (hn c)
  refine h.closed (p := fun m => ∀ c ∈ m, c ≠ '{' ∧ c ≠ '}') (fun cs hcs c hc => ?_) happend
    (fun m hm => ?_) (fun m hm => hm) happend (by decide)
  · have hc := ne_of_isPlain (hcs c hc)
    exact ⟨hc.2.2.1, hc.2.2.2.1⟩
  · exact happend _ _ (happend ['('] m (by decide) hm) (by decide)

theorem turns_parentheses (h : Form m) (i : Nat) : Turns ⟨'(', ')', "parentheses"⟩ i i m := by
  suffices hzero : Turns ⟨'(', ')', "parentheses"⟩ 0 0 m from hzero.under i
  refine h.closed (fun cs hcs => ?_) (fun m n => .append) (fun m hm => ?_) (fun m hm => hm)
    (fun m n => .append) (.without (by decide) 0)
  · exact .without (fun c hc => ⟨(ne_of_isPlain (hcs c hc)).1, (ne_of_isPlain (hcs c hc)).2.1⟩) 0
  · exact ((Turns.opener _ 0).append (hm.under 1)).append (.closer (by decide) 0)

theorem turns_braces (h : Form m) (i : Nat) : Turns ⟨'{', '}', "braces"⟩ i i m :=
  .without h.without_braces i

/-- A form is within one argument of a call around it. -/
theorem encloses (h : Form m) : Encloses m := by
  refine h.closed (fun cs hcs => ?_) (fun m n => .append) (fun m => EnclosesInside.paren)
    (fun m => Encloses.inside) (fun m n => .append)
    (.cons (by decide) (by decide) (.cons (by decide) (by decide) Encloses.nil.inside))
  refine .without fun c hc => ?_
  have hc := ne_of_isPlain (hcs c hc)
  exact ⟨hc.1, hc.2.1, hc.2.2.2.2⟩

/-! ## Calls -/

/-- The arguments of a call in a form are those that it takes. -/
theorem sound_joined {name : String} {as : List (List Char)} (has : ∀ a ∈ as, Encloses a)
    (htwo : takesTwo name = true → as.length = 2) (hreadable : ∀ a ∈ as, Readable (trim a))
    (rest : List Char) : Sound name ([',', ' '].intercalate as ++ ')' :: rest) := by
  intro found hfound
  cases as with
  | nil =>
      rw [List.intercalate_nil, List.nil_append, arguments?_last] at hfound
      obtain rfl : [] = found := by injection hfound
      refine ⟨fun htakes => ?_, fun a ha => nomatch ha⟩
      cases htwo htakes
  | cons a as =>
      obtain ⟨found', hfound', hmem, hlength⟩ :=
        arguments?_joined a as has [] (show isAllBlank [] = true from rfl) rest
      obtain rfl : found' = found := by
        rw [hfound'] at hfound
        injection hfound
      refine ⟨fun htakes => ?_, fun x hx => ?_⟩
      · have hcount := htwo htakes
        rw [List.length_cons] at hcount
        rw [hlength (by simp; omega)]
        simpa using hcount
      · rcases hmem x hx with hx | ⟨b, hb, rfl⟩
        · cases hx
        · exact hreadable b hb

theorem quiet_glue {glue : List Char} (h : isGlue glue = true) (rest : List Char) :
    Quiet (glue ++ rest) := by
  obtain ⟨hplain, hsome⟩ := isGlue_iff.mp h
  clear h
  induction glue with
  | nil => exact absurd hsome (by simp)
  | cons c glue ih =>
      obtain ⟨hc, halpha⟩ := hplain c List.mem_cons_self
      rw [List.cons_append]
      cases hblank : isBlank c with
      | false => exact .cons halpha hblank (ne_of_isPlain hc).1 _
      | true =>
          refine .blank hblank (ih (fun d hd => hplain d (List.mem_cons_of_mem c hd)) ?_)
          obtain ⟨d, hd, hd', hdigit⟩ := hsome
          rcases List.mem_cons.mp hd with rfl | hd
          · rw [hblank] at hd'
            cases hd'
          · exact ⟨d, hd, hd', hdigit⟩

theorem orderly_joined {as : List (List Char)}
    (h : ∀ a ∈ as, ∀ {rest}, Quiet rest → Orderly rest → Orderly (a ++ rest)) {rest : List Char}
    (hrest : Orderly rest) : Orderly ([',', ' '].intercalate as ++ ')' :: rest) := by
  have hclose : Orderly (')' :: rest) := .cons_of_not_isAlpha (by decide) hrest
  induction as with
  | nil => exact hclose
  | cons a as ih =>
      have hnext := ih fun b hb => h b (List.mem_cons_of_mem a hb)
      cases as with
      | nil =>
          rw [List.intercalate_singleton]
          exact h a List.mem_cons_self (.cons (by decide) (by decide) (by decide) _) hclose
      | cons b as =>
          rw [List.intercalate_cons_cons, List.append_assoc, List.append_assoc]
          exact h a List.mem_cons_self (.cons (by decide) (by decide) (by decide) _)
            (.append_of_not_isAlpha (by decide) hnext)

theorem orderly (h : Form m) {rest : List Char} (hquiet : Quiet rest) (hrest : Orderly rest) :
    Orderly (m ++ rest) := by
  induction h generalizing rest with
  | plain hplain =>
      exact .append_of_quiet (fun hmem => (ne_of_isPlain (hplain _ hmem)).1 rfl) hquiet hrest
  | glued _ hglue _ ihcs ihds =>
      have hletters := fun c hc => ((isGlue_iff.mp hglue).1 c hc).2
      rw [List.append_assoc, List.append_assoc]
      exact ihcs (quiet_glue hglue _) (.append_of_not_isAlpha hletters (ihds hquiet hrest))
  | paren _ ih =>
      rw [List.cons_append, List.cons_append, List.append_assoc]
      exact .cons_of_not_isAlpha (by decide) (ih (.cons (by decide) (by decide) (by decide) _)
        (.cons_of_not_isAlpha (by decide) hrest))
  | call hname has hchecked ih =>
      obtain ⟨hchars, hinfix⟩ := isCallName_iff.mp hname
      have hencloses := fun a ha => (has a ha).encloses
      rw [List.append_assoc, List.cons_append, List.cons_append, List.append_assoc]
      exact .call (fun hmem => (ne_of_isPlain (hchars _ hmem)).1 rfl) hinfix
        (fun hmem => sound_joined hencloses (hchecked hmem).1 (hchecked hmem).2 rest)
        (orderly_joined (fun a ha => ih a ha) hrest)

end Form

end Check

end InoBlocks
