import InoBlocks.Proofs.Code.SideEffects
import InoBlocks.Proofs.Code.ValidSketch

/-!
# What is refused

Blocks that all have a type are refused exactly if a template that is come to reads a value where
several blocks or a statement are held.  Everything else has code, whatever the fields hold, and
whichever inputs are missing or empty.  All this is so as far as there is room for the calls, and no
room is enough for all blocks.
-/

namespace InoBlocks

theorem Block.reached_subset_walk (b : Block) : ∀ c ∈ b.reached, c ∈ b.walk := by
  intro c hc
  rw [reached_eq, List.mem_cons, List.mem_flatMap] at hc
  rcases hc with rfl | ⟨u, -, hc⟩
  · obtain ⟨type, fields, inputs⟩ := c
    rw [walk]
    exact List.mem_cons_self
  · obtain ⟨d, hd, hc⟩ := List.mem_flatMap.mp hc
    have hchain := mem_chain_of_mem_follow hd
    have hwalk := reached_subset_walk d c hc
    exact Code.mem_walk_of_mem_chain (Code.walkAll_subset_of_mem hchain c hwalk)
termination_by sizeOf b
decreasing_by exact sizeOf_lt_of_mem_chain hchain

namespace Block

theorem plain_subset (b : Block) (u : Use) : (b.way u).plain ⊆ ["math_number", "text"] := by
  unfold way
  split
  · exact List.nil_subset _
  · split
    case h_5 => split <;> simp
    all_goals simp

/-- Just numbers and texts are read by their field. -/
theorem not_isMalformed_of_plain {b c : Block} (h : b.type = "math_number" ∨ b.type = "text")
    (hc : c ∈ b.reached) : ¬c.IsMalformed := by
  have huses : b.uses = [] := by
    rcases h with h | h <;> simp [uses, h]
  rw [reached_eq, huses] at hc
  obtain rfl := List.mem_singleton.mp hc
  rintro (hnone | ⟨u, hu, -⟩)
  · rw [hnone] at h
    exact absurd h (by decide)
  · rw [huses] at hu
    cases hu

theorem gaveUp_inOrder_iff {α : Type} {xs : List α} {f : α → Descent} {reach : α → List Block}
    {P : Block → Prop} (h : ∀ x ∈ xs, (f x).gaveUp = true ↔ ∃ c ∈ reach x, P c) :
    (Descent.inOrder (xs.map f)).gaveUp = true ↔ ∃ c ∈ xs.flatMap reach, P c := by
  rw [Descent.inOrder_gaveUp_iff, Code.exists_mem_flatMap]
  simp only [List.mem_map, exists_exists_and_eq_and]
  exact exists_congr fun x => and_congr_right (h x)

/-- The calls for a block are counted up to the first malformed one that is come to. -/
theorem gaveUp_descent_iff (b : Block) :
    b.descent.gaveUp = true ↔ ∃ c ∈ b.reached, c.IsMalformed := by
  rw [exists_isMalformed_reached]
  by_cases htype : b.type = ""
  · have hdescent : b.descent = .refusal 0 := by
      rw [descent, htype]
      rfl
    rw [hdescent]
    exact iff_of_true rfl (Or.inl htype)
  · rw [or_iff_right htype, descent_eq htype, Descent.andThen, if_neg Bool.false_ne_true]
    simp only [Descent.inOrder_gaveUp_iff, List.mem_map, exists_exists_and_eq_and]
    refine exists_congr fun u => and_congr_right fun _ => ?_
    by_cases hmisfit : b.isMisfit u = true
    · rw [descentBy, if_pos hmisfit]
      exact iff_of_true rfl (Or.inl hmisfit)
    · rw [descentBy, if_neg hmisfit, Fails, or_iff_right hmisfit, reachedBy]
      refine gaveUp_inOrder_iff fun c hc => ?_
      split
      · rename_i hplain
        have hplain : c.type = "math_number" ∨ c.type = "text" := by
          simpa using b.plain_subset u (List.contains_iff_mem.mp hplain)
        refine iff_of_false Bool.false_ne_true ?_
        rintro ⟨d, hd, hbad⟩
        exact not_isMalformed_of_plain hplain hd hbad
      · exact gaveUp_descent_iff c
termination_by sizeOf b
decreasing_by all_goals exact sizeOf_lt_of_mem_chain (mem_chain_of_mem_follow hc)

end Block

namespace Code

theorem reached_subset_walkAll (roots : List Block) :
    ∀ c ∈ reached roots, c ∈ Block.walkAll roots := by
  have hsection : ∀ s, ∀ c ∈ sectionReached roots s, c ∈ Block.walkAll roots := by
    intro s c hc
    unfold sectionReached at hc
    split at hc
    · rename_i root hroot
      obtain ⟨b, hb, hc⟩ := List.mem_flatMap.mp hc
      refine walkAll_subset_of_mem (List.mem_of_find?_eq_some hroot) c ?_
      exact mem_walk_of_mem_chain (walkAll_subset_of_mem hb c (b.reached_subset_walk c hc))
    · cases hc
  intro c hc
  rw [reached, List.mem_append, List.mem_append, List.mem_flatMap] at hc
  rcases hc with ⟨b, hb, hc⟩ | hc | hc
  · unfold topReached at hc
    split at hc
    · exact walkAll_subset_of_mem hb c (b.reached_subset_walk c hc)
    · cases hc
  · exact hsection .setup c hc
  · exact hsection .loop c hc

/-- The calls for a sketch are counted up to the block over which it is refused. -/
theorem gaveUp_descent_iff (roots : List Block) :
    (descent roots).gaveUp = true ↔ ∃ c ∈ reached roots, c.IsMalformed := by
  have htop : ∀ b, (topDescent b).gaveUp = true ↔ ∃ c ∈ topReached b, c.IsMalformed := by
    intro b
    rw [topDescent, topReached]
    split
    · exact b.gaveUp_descent_iff
    · simp [Descent.flat]
  have hsection : ∀ s, (sectionDescent roots s).gaveUp = true ↔
      ∃ c ∈ sectionReached roots s, c.IsMalformed := by
    intro s
    rw [sectionDescent, sectionReached]
    cases roots.find? fun b => b.type == s.type with
    | none => simp [Descent.flat]
    | some root => exact Block.gaveUp_inOrder_iff fun b _ => b.gaveUp_descent_iff
  have htops : (∃ d ∈ roots.map topDescent, d.gaveUp = true) ↔
      ∃ c ∈ roots.flatMap topReached, c.IsMalformed :=
    Descent.inOrder_gaveUp_iff.symm.trans (Block.gaveUp_inOrder_iff fun b _ => htop b)
  rw [descent, reached, Descent.inOrder_gaveUp_iff]
  simp only [List.mem_append, List.mem_cons, List.not_mem_nil, or_false, or_and_right, exists_or,
    exists_eq_left, htops, hsection]

end Code

/-! ## No room for all -/

theorem isAtomText_negation (cs : List Char) : isAtomText ('!' :: cs) = false := by
  have hname : Text.isNameStart '!' = false := by decide
  have hdigit : Text.isDecimal '!' = false := by decide
  simp [isAtomText, isNameText, isNumberText, isQuotedText, hname, hdigit]

theorem isCallText_negation (cs : List Char) : isCallText ('!' :: cs) = false := by
  have hname : Text.isNameStart '!' = false := by decide
  rw [isCallText]
  split
  · rw [hname]
    rfl
  · rfl

theorem isStepText_negations (n : Nat) : isStepText (List.replicate n '!') = false := by
  rw [isStepText, List.reverse_replicate]
  match n with
  | 0 | 1 => rfl
  | n + 2 => rfl

/-- A raw text of negations is looked at once for each of them. -/
theorem rawCalls_negations (n : Nat) : n ≤ rawCalls (List.replicate n '!') := by
  induction n with
  | zero => exact Nat.zero_le _
  | succ n ih =>
      cases n with
      | zero => decide
      | succ n =>
          have hatom : upToLineFeed isAtomText ('!' :: List.replicate (n + 1) '!') = false := by
            simp [upToLineFeed, isAtomText_negation, List.replicate_succ]
          have hstep : upToLineFeed isStepText ('!' :: List.replicate (n + 1) '!') = false := by
            rw [← List.replicate_succ]
            simp [upToLineFeed, isStepText_negations, List.getLast?_replicate]
          have hleading : isLeading '!' (List.replicate (n + 1) '!') = true := rfl
          rw [List.replicate_succ, rawCalls, hatom, hstep, isCallText_negation, hleading]
          exact Nat.succ_le_succ ih

namespace Code

/-- A loop that waits for a raw text. -/
def awaitingRaw (text : String) : Workspace where
  loop := [.ofTexts "arduino_delay" [] [.value "TIME" (.rawExpression text)]]

theorem descent_awaitingRaw (text : String) :
    descent (awaitingRaw text).roots = ⟨8 + rawCalls (Text.trimmed text).toList, false⟩ := by
  let raw := Block.rawExpression text
  let wait := Block.ofTexts "arduino_delay" [] [.value "TIME" raw]
  have hraw : raw.descent = ⟨rawCalls (Text.trimmed text).toList, false⟩ := by
    have hown : raw.ownCalls = rawCalls (Text.trimmed text).toList := rfl
    have huses : raw.uses = [] := rfl
    have htype : raw.type ≠ "" := show "arduino_raw_expression" ≠ "" by decide
    rw [Block.descent_eq htype, hown, huses]
    simp [Descent.andThen, Descent.inOrder, Descent.flat]
  have hwait : wait.descent = ⟨3 + rawCalls (Text.trimmed text).toList, false⟩ := by
    have huses : wait.uses = [.value "TIME"] := rfl
    have hby : wait.descentBy (.value "TIME") = .inOrder [raw.descent.beneath 3] := rfl
    have hown : wait.ownCalls = 0 := rfl
    have htype : wait.type ≠ "" := show "arduino_delay" ≠ "" by decide
    rw [Block.descent_eq htype, hown, huses, List.map_singleton, hby, hraw]
    simp [Descent.andThen, Descent.inOrder, Descent.flat, Descent.beneath]
  have hloop : sectionDescent (awaitingRaw text).roots .loop = .inOrder [wait.descent.beneath 5] := rfl
  have hsetup : sectionDescent (awaitingRaw text).roots .setup = .flat := rfl
  have htops : (awaitingRaw text).roots.map topDescent = [.flat, .flat] := rfl
  rw [descent, hsetup, hloop, htops, hwait]
  simp [Descent.andThen, Descent.inOrder, Descent.flat, Descent.beneath]
  omega

/-- Whatever room there is, there is a workspace without misfit for whose sketch there is none: it
waits for a raw text with negations enough. -/
theorem generateWithin_bottomless (room : Nat) (style : Style) :
    ∃ w : Workspace, (∀ b ∈ Block.walkAll w.roots, b.type ≠ "") ∧
      (¬ ∃ b ∈ reached w.roots, ∃ u ∈ b.uses, b.isMisfit u = true) ∧
      w.generateWithin room style = .error .bottomless := by
  let text := String.ofList (List.replicate (room + 1) '!')
  let raw := Block.rawExpression text
  let wait := Block.ofTexts "arduino_delay" [] [.value "TIME" raw]
  have hwalk : Block.walkAll (awaitingRaw text).roots =
      [.ofTexts Workspace.setupType [] [.chain Workspace.setupInput []],
        .ofTexts Workspace.loopType [] [.chain Workspace.loopInput [wait]], wait, raw] := rfl
  have hsound : ∀ b ∈ Block.walkAll (awaitingRaw text).roots,
      b.type ≠ "" ∧ ∀ u ∈ b.uses, b.isMisfit u = false := by
    rw [hwalk]
    intro b hb
    simp only [List.mem_cons, List.not_mem_nil, or_false] at hb
    rcases hb with rfl | rfl | rfl | rfl
    · exact ⟨show Workspace.setupType ≠ "" by decide, fun u hu => absurd hu List.not_mem_nil⟩
    · exact ⟨show Workspace.loopType ≠ "" by decide, fun u hu => absurd hu List.not_mem_nil⟩
    · refine ⟨show "arduino_delay" ≠ "" by decide, fun u hu => ?_⟩
      obtain rfl : u = .value "TIME" := List.mem_singleton.mp hu
      rfl
    · exact ⟨show "arduino_raw_expression" ≠ "" by decide, fun u hu => absurd hu List.not_mem_nil⟩
  have htext : Text.trimmed text = text :=
    Text.trimmed_of_ends
      ⟨'!', List.replicate room '!', by rw [String.toList_ofList, List.replicate_succ], by decide⟩
      ⟨List.replicate room '!', '!', by rw [String.toList_ofList, List.replicate_succ'], by decide⟩
  refine ⟨awaitingRaw text, fun b hb => (hsound b hb).1, ?_, ?_⟩
  · rintro ⟨b, hb, u, hu, hmisfit⟩
    rw [(hsound b (reached_subset_walkAll _ b hb)).2 u hu] at hmisfit
    cases hmisfit
  · rw [Workspace.generateWithin, generateWithin]
    refine Room.within_of_lt ?_
    rw [descent_awaitingRaw, htext, String.toList_ofList]
    exact Nat.lt_of_lt_of_le (rawCalls_negations (room + 1)) (Nat.le_add_left _ 8)

end Code

end InoBlocks
