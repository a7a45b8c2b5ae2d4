import InoBlocks.Proofs.Skim.Cleaning

/-!
# Pieces of a text

How a text is cut at its brackets and semicolons.  A nested text closes every bracket that it
opens, so a scan that looks for a closing bracket passes over it.  A level text has no end of a
piece in it.
-/

namespace InoBlocks

namespace Plain

open Text Skim

attribute [grind =] closingFrom? chunksFrom

def isInert (c : Char) : Bool :=
  !(c == '"' || c == '\'' || c == '(' || c == ')' || c == '{' || c == '}')

/-- A text without quotes in which every bracket that is opened is closed. -/
inductive Nested : List Char → Prop where
  | nil : Nested []
  | inert {c : Char} {cs : List Char} : isInert c = true → Nested cs → Nested (c :: cs)
  | parens {cs ds : List Char} : Nested cs → Nested ds → Nested ('(' :: (cs ++ ')' :: ds))
  | braces {cs ds : List Char} : Nested cs → Nested ds → Nested ('{' :: (cs ++ '}' :: ds))

/-- A text without quotes and braces, with semicolons and line feeds between parentheses only. -/
inductive Level : List Char → Prop where
  | nil : Level []
  | inert {c : Char} {cs : List Char} : isInert c = true → c ≠ ';' → c ≠ '\n' → Level cs →
      Level (c :: cs)
  | parens {cs ds : List Char} : cs.all isInert = true → Level ds →
      Level ('(' :: (cs ++ ')' :: ds))

theorem Nested.append {cs ds : List Char} (h : Nested cs) (h' : Nested ds) : Nested (cs ++ ds) := by
  induction h with
  | nil => exact h'
  | inert hc _ ih => exact .inert hc ih
  | parens h _ _ ih =>
      rw [List.cons_append, List.append_assoc, List.cons_append]
      exact .parens h ih
  | braces h _ _ ih =>
      rw [List.cons_append, List.append_assoc, List.cons_append]
      exact .braces h ih

theorem nested_of_inert {cs : List Char} (h : cs.all isInert = true) : Nested cs := by
  induction cs with
  | nil => exact .nil
  | cons c cs ih =>
      simp only [List.all_cons, Bool.and_eq_true] at h
      exact .inert h.1 (ih h.2)

namespace Level

variable {cs ds : List Char}

theorem nested (h : Level cs) : Nested cs := by
  induction h with
  | nil => exact .nil
  | inert hc _ _ _ ih => exact .inert hc ih
  | parens h _ ih => exact .parens (nested_of_inert h) ih

theorem append (h : Level cs) (h' : Level ds) : Level (cs ++ ds) := by
  induction h with
  | nil => exact h'
  | inert hc hsemicolon hfeed _ ih => exact .inert hc hsemicolon hfeed ih
  | parens h _ ih =>
      rw [List.cons_append, List.append_assoc, List.cons_append]
      exact .parens h ih

end Level

theorem isInert_iff {c : Char} : isInert c = true ↔
    c ≠ '"' ∧ c ≠ '\'' ∧ c ≠ '(' ∧ c ≠ ')' ∧ c ≠ '{' ∧ c ≠ '}' := by
  simp [isInert, and_assoc]

/-! ## Closing brackets -/

section Closing

variable {b : Brackets} {offset : Nat} {depth : Int} {c : Char}

theorem closingFrom?_opens (hc : c ≠ '"' ∧ c ≠ '\'') (h : b.opener = some c) (rest : List Char) :
    closingFrom? b offset depth none (c :: rest) =
      closingFrom? b (offset + 1) (depth + 1) none rest := by
  simp [closingFrom?, hc.1, hc.2, h]

theorem closingFrom?_closes (hc : c ≠ '"' ∧ c ≠ '\'') (hopener : b.opener ≠ some c)
    (h : b.closer = some c) (hdepth : depth ≠ 1) (rest : List Char) :
    closingFrom? b offset depth none (c :: rest) =
      closingFrom? b (offset + 1) (depth - 1) none rest := by
  simp [closingFrom?, hc.1, hc.2, hopener, h, hdepth]

theorem closingFrom?_passes (hc : c ≠ '"' ∧ c ≠ '\'') (hopener : b.opener ≠ some c)
    (hcloser : b.closer ≠ some c) (rest : List Char) :
    closingFrom? b offset depth none (c :: rest) =
      closingFrom? b (offset + 1) depth none rest := by
  simp [closingFrom?, hc.1, hc.2, hopener, hcloser]

theorem closingFrom?_last (hc : c ≠ '"' ∧ c ≠ '\'') (hopener : b.opener ≠ some c)
    (h : b.closer = some c) (rest : List Char) :
    closingFrom? b offset 1 none (c :: rest) = some offset := by
  simp [closingFrom?, hc.1, hc.2, hopener, h]

end Closing

/-- A scan for a closing bracket is at the same depth behind a text as before it. -/
def Evens (b : Brackets) (cs : List Char) : Prop :=
  ∀ (offset : Nat) (depth : Int) (rest : List Char), 1 ≤ depth →
    closingFrom? b offset depth none (cs ++ rest) =
      closingFrom? b (offset + cs.length) depth none rest

/-- A pair of brackets with a text between them evens out. -/
theorem Evens.group {b : Brackets} (hb : b = braces ∨ b = parentheses) {o c : Char}
    (hpair : (o = '(' ∧ c = ')') ∨ (o = '{' ∧ c = '}')) {cs ds : List Char} (h : Evens b cs)
    (h' : Evens b ds) : Evens b (o :: (cs ++ c :: ds)) := by
  intro offset depth rest hdepth
  have hassoc : o :: (cs ++ c :: ds) ++ rest = o :: (cs ++ c :: (ds ++ rest)) := by simp
  have hlength : offset + (o :: (cs ++ c :: ds)).length = offset + 1 + cs.length + 1 + ds.length := by
    simp only [List.length_cons, List.length_append]
    omega
  have hquotes : (o ≠ '"' ∧ o ≠ '\'') ∧ c ≠ '"' ∧ c ≠ '\'' := by
    rcases hpair with ⟨rfl, rfl⟩ | ⟨rfl, rfl⟩ <;> decide
  rw [hassoc, hlength]
  by_cases hopener : b.opener = some o
  · have hcloser : b.opener ≠ some c ∧ b.closer = some c := by
      rcases hb with rfl | rfl <;> rcases hpair with ⟨rfl, rfl⟩ | ⟨rfl, rfl⟩ <;>
        first | exact absurd hopener (by decide) | decide
    rw [closingFrom?_opens hquotes.1 hopener, h _ _ _ (by omega),
      closingFrom?_closes hquotes.2 hcloser.1 hcloser.2 (by omega), Int.add_sub_cancel,
      h' _ _ _ hdepth]
  · have hother : b.closer ≠ some o ∧ b.opener ≠ some c ∧ b.closer ≠ some c := by
      rcases hb with rfl | rfl <;> rcases hpair with ⟨rfl, rfl⟩ | ⟨rfl, rfl⟩ <;>
        first | exact absurd rfl hopener | decide
    rw [closingFrom?_passes hquotes.1 hopener hother.1, h _ _ _ hdepth,
      closingFrom?_passes hquotes.2 hother.2.1 hother.2.2, h' _ _ _ hdepth]

theorem Nested.evens {b : Brackets} (hb : b = Skim.braces ∨ b = parentheses) {cs : List Char}
    (h : Nested cs) : Evens b cs := by
  induction h with
  | nil => exact fun _ _ _ _ => rfl
  | @inert c cs hc _ ih =>
      intro offset depth rest hdepth
      obtain ⟨h₁, h₂, h₃, h₄, h₅, h₆⟩ := isInert_iff.mp hc
      have hother : b.opener ≠ some c ∧ b.closer ≠ some c := by
        rcases hb with rfl | rfl <;>
          simp [Skim.braces, parentheses, h₃.symm, h₄.symm, h₅.symm, h₆.symm]
      rw [List.cons_append, closingFrom?_passes ⟨h₁, h₂⟩ hother.1 hother.2, ih _ _ _ hdepth,
        List.length_cons, Nat.add_assoc, Nat.add_comm 1]
  | parens _ _ ih ih' => exact .group hb (Or.inl ⟨rfl, rfl⟩) ih ih'
  | braces _ _ ih ih' => exact .group hb (Or.inr ⟨rfl, rfl⟩) ih ih'

/-- Behind an opening brace, a nested text is followed by the closing one. -/
theorem closing?_braces {cs : List Char} (h : Nested cs) (rest : List Char) :
    closing? braces ('{' :: (cs ++ '}' :: rest)) = some (cs.length + 1) := by
  rw [closing?, closingFrom?_opens (by decide) rfl, Int.zero_add,
    h.evens (Or.inl rfl) _ _ _ (Int.le_refl 1), closingFrom?_last (by decide) (by decide) rfl, Nat.zero_add, Nat.add_comm]

theorem closing?_parentheses {cs : List Char} (h : Nested cs) (rest : List Char) :
    closing? parentheses ('(' :: (cs ++ ')' :: rest)) = some (cs.length + 1) := by
  rw [closing?, closingFrom?_opens (by decide) rfl, Int.zero_add,
    h.evens (Or.inr rfl) _ _ _ (Int.le_refl 1), closingFrom?_last (by decide) (by decide) rfl, Nat.zero_add, Nat.add_comm]

/-! ## Pieces -/

section Chunks

variable {pending rest : List Char} {opened parens : Nat} {c : Char}

theorem chunksFrom_inert (hc : isInert c = true)
    (hgoes : ¬ ((c = ';' ∨ c = '\n') ∧ opened = 0 ∧ parens = 0)) :
    chunksFrom pending opened parens none (c :: rest) =
      chunksFrom (c :: pending) opened parens none rest := by
  obtain ⟨h₁, h₂, h₃, h₄, h₅, h₆⟩ := isInert_iff.mp hc
  have hgoes' : ((c == ';' || c == '\n') && opened == 0 && parens == 0) = false := by
    simpa [and_assoc] using hgoes
  simp only [chunksFrom, beq_iff_eq, h₁, h₂, h₃, h₄, h₅, h₆, hgoes', Bool.or_eq_true, or_self,
    if_false, Bool.false_eq_true]

theorem chunksFrom_nested {cs : List Char} (h : Nested cs) :
    chunksFrom pending (opened + 1) parens none (cs ++ rest) =
      chunksFrom (cs.reverse ++ pending) (opened + 1) parens none rest := by
  induction h generalizing pending opened parens rest with
  | nil => rfl
  | inert hc _ ih =>
      rw [List.cons_append, chunksFrom_inert hc (by simp), ih]
      simp
  | parens _ _ ih ih' =>
      have hopen : ∀ cs, chunksFrom pending (opened + 1) parens none ('(' :: cs) =
          chunksFrom ('(' :: pending) (opened + 1) (parens + 1) none cs := fun cs => by
        simp [chunksFrom]
      have hclose : ∀ pending cs, chunksFrom pending (opened + 1) (parens + 1) none (')' :: cs) =
          chunksFrom (')' :: pending) (opened + 1) parens none cs := fun pending cs => by
        simp [chunksFrom]
      rw [List.cons_append, List.append_assoc, hopen, ih, List.cons_append, hclose, ih']
      simp
  | braces _ _ ih ih' =>
      have hopen : ∀ cs, chunksFrom pending (opened + 1) parens none ('{' :: cs) =
          chunksFrom ('{' :: pending) (opened + 1 + 1) parens none cs := fun cs => by
        simp [chunksFrom]
      have hclose : ∀ pending cs, chunksFrom pending (opened + 1 + 1) parens none ('}' :: cs) =
          chunksFrom ('}' :: pending) (opened + 1) parens none cs := fun pending cs => by
        simp [chunksFrom]
      rw [List.cons_append, List.append_assoc, hopen, ih, List.cons_append, hclose, ih']
      simp

theorem chunksFrom_level {cs : List Char} (h : Level cs) :
    chunksFrom pending 0 0 none (cs ++ rest) =
      chunksFrom (cs.reverse ++ pending) 0 0 none rest := by
  have hinside : ∀ {cs pending rest : List Char}, cs.all isInert = true →
      chunksFrom pending 0 1 none (cs ++ rest) =
        chunksFrom (cs.reverse ++ pending) 0 1 none rest := by
    intro cs
    induction cs with
    | nil => exact fun _ => rfl
    | cons c cs ih =>
        intro pending rest hcs
        simp only [List.all_cons, Bool.and_eq_true] at hcs
        rw [List.cons_append, chunksFrom_inert hcs.1 (by simp), ih hcs.2]
        simp
  induction h generalizing pending with
  | nil => rfl
  | inert hc hsemicolon hfeed _ ih =>
      rw [List.cons_append, chunksFrom_inert hc (by simp [hsemicolon, hfeed]), ih]
      simp
  | parens hcs _ ih =>
      have hopen : ∀ cs, chunksFrom pending 0 0 none ('(' :: cs) =
          chunksFrom ('(' :: pending) 0 1 none cs := fun cs => by simp [chunksFrom]
      have hclose : ∀ pending cs, chunksFrom pending 0 1 none (')' :: cs) =
          chunksFrom (')' :: pending) 0 0 none cs := fun pending cs => by simp [chunksFrom]
      rw [List.cons_append, List.append_assoc, hopen, hinside hcs, List.cons_append, hclose, ih]
      simp

end Chunks

end Plain

end InoBlocks
