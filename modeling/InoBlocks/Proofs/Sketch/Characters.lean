import InoBlocks.Proofs.Sketch.Printing
import Mathlib.Data.List.Flatten

/-!
# The characters of an expression

The words of a text are pieces of it, one behind the other, so no character occurs in them more
often than in the text.  And the text of an expression, blanks aside, has no character more often
than any words that are read as the expression: it has the words that the tree keeps, and
parentheses only where every phrase of the expression has a group.
-/

namespace InoBlocks

namespace Word

def chars (ws : List Word) : List Char :=
  ws.flatMap fun w => w.text.toList

@[simp] theorem chars_nil : chars [] = [] := rfl

@[simp] theorem chars_cons (w : Word) (ws : List Word) :
    chars (w :: ws) = w.text.toList ++ chars ws := rfl

@[simp] theorem chars_append (us vs : List Word) : chars (us ++ vs) = chars us ++ chars vs :=
  List.flatMap_append

/-- The words of a text stand in it one behind the other. -/
theorem chars_wordsFrom_sublist (skip : Nat) (cs : List Char) :
    (chars (wordsFrom skip cs)).Sublist (cs.drop skip) := by
  induction cs generalizing skip with
  | nil => simp [wordsFrom]
  | cons c cs ih =>
      cases skip with
      | succ skip => exact ih skip
      | zero =>
          rw [wordsFrom]
          split
          · exact (ih 0).cons c
          · split
            · exact (ih 0).cons c
            · rename_i kind more _
              rw [chars_cons, String.toList_ofList, List.cons_append, List.drop_zero]
              have hpiece := (List.Sublist.refl (cs.take more)).append (ih more)
              rw [List.take_append_drop] at hpiece
              exact hpiece.cons_cons c

theorem chars_words_sublist (cs : List Char) : (chars (words cs)).Sublist cs :=
  (List.filter_sublist.flatMap _).trans (chars_wordsFrom_sublist 0 cs)

/-- An operator or a delimiter is spelled as its kind is. -/
def IsSpelled (w : Word) : Prop :=
  ∀ text, w.kind.symbol? = some text → w.text = text

theorem Lexed.isSpelled {w : Word} (h : w.Lexed) : w.IsSpelled :=
  fun _ => h.text_eq

/-- The strength that printing gives an operator is the one with which it joins. -/
theorem IsSpelled.ofOperator_eq {op : Word} (h : op.IsSpelled) (hlow : 1 ≤ op.kind.joins)
    (hhigh : op.kind.joins ≤ 7) : Binding.ofOperator op.text = op.kind.joins := by
  have hsymbol : ∃ text, op.kind.symbol? = some text := TokenKind.symbol?_of_joins (by omega)
  obtain ⟨text, htext⟩ := hsymbol
  rw [h text htext, TokenKind.ofOperator_of_symbol? htext hlow hhigh]

end Word

open Word

variable {d : Char}

namespace Expr

theorem guarded_of_le {binding demanded : Nat} (h : demanded ≤ binding) (text : String) :
    guarded text binding demanded = text := by
  rw [guarded, if_neg (by omega)]

theorem count_le_count_guarded (text : String) (binding demanded : Nat) :
    text.toList.count d ≤ (guarded text binding demanded).toList.count d := by
  rw [guarded]
  split
  · rw [String.toList_append, String.toList_append, List.count_append, List.count_append]
    omega
  · exact Nat.le_refl _

theorem count_guarded_le (text : String) (binding demanded : Nat) :
    (guarded text binding demanded).toList.count d ≤
      "(".toList.count d + text.toList.count d + ")".toList.count d := by
  rw [guarded]
  split
  · rw [String.toList_append, String.toList_append, List.count_append, List.count_append]
  · omega

/-- A text that stands where a looser one may has no more parentheses there. -/
theorem count_guarded_succ (text : String) (binding demanded : Nat) :
    (guarded text binding demanded).toList.count d ≤
      (guarded text binding (demanded + 1)).toList.count d := by
  by_cases h : binding < demanded
  · rw [guarded, guarded, if_pos h, if_pos (by omega)]
  · rw [guarded, if_neg h]
    exact count_le_count_guarded text binding (demanded + 1)

theorem count_joinLeading (hd : d ≠ ' ') (operator operand : String) :
    (joinLeading operator operand).toList.count d =
      operator.toList.count d + operand.toList.count d := by
  have hblank : " ".toList.count d = 0 := List.count_eq_zero.mpr (by simpa using hd)
  rw [joinLeading]
  split
  · simp only [String.toList_append, List.count_append, hblank]
    omega
  · simp only [String.toList_append, List.count_append]

theorem count_infixed (hd : d ≠ ' ') (left operator right : String) :
    (left ++ " " ++ operator ++ " " ++ right).toList.count d =
      left.toList.count d + (operator.toList.count d + right.toList.count d) := by
  have hblank : " ".toList.count d = 0 := List.count_eq_zero.mpr (by simpa using hd)
  simp only [String.toList_append, List.count_append, hblank]
  omega

end Expr

/-- A list of expressions has no character more often than the words it is read from. -/
theorem Listed.count_sources_le (hd : d ≠ ' ') {items : List (List Word × Expr)} {ws : List Word}
    (h : Listed items ws) (hws : ∀ w ∈ ws, w.IsSpelled)
    (hitems : ∀ a ∈ items, (∀ w ∈ a.1, w.IsSpelled) →
      a.2.source.toList.count d ≤ (chars a.1).count d) :
    (", ".intercalate (items.map fun a => a.2.source)).toList.count d ≤ (chars ws).count d := by
  have hblank : " ".toList.count d = 0 := List.count_eq_zero.mpr (by simpa using hd)
  rw [String.toList_intercalate]
  induction h with
  | none => simp
  | one a => simpa using hitems a (List.mem_singleton_self a) hws
  | @more a b rest comma ws hcomma _ ih =>
      have htext : comma.text = "," := hws comma (by simp) _ (by rw [hcomma]; rfl)
      have hfirst := hitems a List.mem_cons_self fun w hw => hws w (by simp [hw])
      have hrest := ih (fun w hw => hws w (by simp [hw]))
        fun c hc => hitems c (List.mem_cons_of_mem a hc)
      have hseparator : ", ".toList.count d = ",".toList.count d := by
        rw [show ", " = "," ++ " " from rfl, String.toList_append, List.count_append, hblank,
          Nat.add_zero]
      simp only [List.map_cons, List.intercalate_cons_cons, List.count_append, chars_append,
        chars_cons, htext] at hrest ⊢
      omega

/-- The text of an expression in a place of some strength has no character, blanks aside, more often
than any phrase of this strength that is read as the expression. -/
theorem Phrase.count_source_le (hd : d ≠ ' ') {n : Nat} {ws : List Word} {e : Expr}
    (h : Phrase n ws e) (hws : ∀ w ∈ ws, w.IsSpelled) :
    (Expr.guarded e.source e.binding n).toList.count d ≤ (chars ws).count d := by
  induction h with
  | name | pin | number | string | constant =>
      rw [Expr.guarded_of_le (by exact Nat.le_refl 10)]
      exact Nat.le_of_eq (by simp [Expr.source])
  | @group left right ws e hleft hright _ ih =>
      have hinside := ih fun w hw => hws w (by simp [hw])
      have hbare := Expr.count_le_count_guarded (d := d) e.source e.binding 1
      have htext := Expr.count_guarded_le (d := d) e.source e.binding 10
      have hopen : left.text = "(" := hws left (by simp) _ (by rw [hleft]; rfl)
      have hclose : right.text = ")" := hws right (by simp) _ (by rw [hright]; rfl)
      simp only [chars_append, chars_cons, chars_nil, List.count_append, List.append_nil, hopen,
        hclose]
      omega
  | @member l dot property ws e hdot hproperty _ ih =>
      have hobject := ih fun w hw => hws w (by simp [hw])
      have hpoint : dot.text = "." := hws dot (by simp) _ (by rw [hdot]; rfl)
      rw [Expr.guarded_of_le (by exact Nat.le_refl 9), Expr.source]
      simp only [chars_append, chars_cons, chars_nil, List.count_append, List.append_nil, hpoint,
        String.toList_append, Nat.add_assoc]
      exact Nat.add_le_add_right hobject _
  | @call l left right us vs e arguments hleft hright _ hlist hitems ih ihs =>
      have hcallee := ih fun w hw => hws w (by simp [hw])
      have hopen : left.text = "(" := hws left (by simp) _ (by rw [hleft]; rfl)
      have hclose : right.text = ")" := hws right (by simp) _ (by rw [hright]; rfl)
      have hlisted := hlist.count_sources_le hd (fun w hw => hws w (by simp [hw]))
        fun a ha hwords => Nat.le_trans (Expr.count_le_count_guarded _ _ 1) (ihs a ha hwords)
      rw [Expr.guarded_of_le (by exact Nat.le_refl 9), Expr.source, Expr.sources_eq_map,
        List.map_map]
      simp only [chars_append, chars_cons, chars_nil, List.count_append, List.append_nil, hopen,
        hclose, String.toList_append]
      change List.count d (Expr.guarded e.source e.binding 9).toList + _ + _ + _ ≤ _
      simp only [Function.comp_def]
      omega
  | @step l op ws e hop _ ih =>
      have hoperand := ih fun w hw => hws w (by simp [hw])
      rw [Expr.guarded_of_le (by exact Nat.le_refl 9), Expr.source]
      simp only [chars_append, chars_cons, chars_nil, List.count_append, List.append_nil,
        Bool.false_eq_true, ↓reduceIte, String.toList_append]
      exact Nat.add_le_add_right hoperand _
  | @leading l op ws e hop _ ih =>
      have hoperand := ih fun w hw => hws w (by simp [hw])
      rw [Expr.guarded_of_le (by exact Nat.le_refl 8), Expr.source, if_pos rfl,
        Expr.count_joinLeading hd, chars_cons, List.count_append]
      exact Nat.add_le_add_left hoperand _
  | @binary l n op us vs a b hlow hhigh hop _ _ iha ihb =>
      have hstrength : Binding.ofOperator op.text = n := by
        rw [(hws op (by simp)).ofOperator_eq (by omega) (by omega), hop]
      have hleft := iha fun w hw => hws w (by simp [hw])
      have hright := ihb fun w hw => hws w (by simp [hw])
      rw [Expr.guarded_of_le (by exact Nat.le_of_eq hstrength.symm), Expr.source, hstrength]
      rw [Expr.count_infixed hd, chars_append, chars_cons, List.count_append, List.count_append]
      omega
  | @assign l op us vs a b hop _ _ iha ihb =>
      have hjoins := TokenKind.joins_of_isAssignment hop
      have hstrength : Binding.ofOperator op.text = 1 := by
        rw [(hws op (by simp)).ofOperator_eq (by omega) (by omega), hjoins]
      have hleft : (Expr.guarded a.source a.binding (1 + 1)).toList.count d ≤ (chars us).count d :=
        iha fun w hw => hws w (by simp [hw])
      have hright := ihb fun w hw => hws w (by simp [hw])
      rw [Expr.guarded_of_le (by exact Nat.le_of_eq hstrength.symm), Expr.source, hstrength]
      rw [Expr.count_infixed hd, chars_append, chars_cons, List.count_append, List.count_append]
      omega
  | loosen _ _ ih => exact Nat.le_trans (Expr.count_guarded_succ _ _ _) (ih hws)

end InoBlocks
