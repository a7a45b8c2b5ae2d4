import InoBlocks.Proofs.Code.Branches

/-!
# What generating reaches

`Block.reached` says which blocks are come to from a block by way of the inputs that its template
reads, and `Code.reached` which are come to from the top blocks of a sketch.  A block is malformed if
it has no type, or if an input that is read as a value holds something else.
-/

namespace InoBlocks

namespace Block

/-! ## Inputs that are read -/

theorem mem_takeWhile_range' {p : Nat → Bool} {n start count : Nat} :
    n ∈ (List.range' start count).takeWhile p ↔
      start ≤ n ∧ n < start + count ∧ ∀ m, start ≤ m → m ≤ n → p m = true := by
  induction count generalizing start with
  | zero =>
      rw [List.range'_zero, List.takeWhile_nil]
      exact ⟨fun h => absurd h List.not_mem_nil, fun ⟨hle, hlt, _⟩ => by omega⟩
  | succ count ih =>
      rw [List.range'_succ, List.takeWhile_cons]
      split
      · rename_i hstart
        rw [List.mem_cons, ih]
        constructor
        · rintro (rfl | ⟨hle, hlt, hall⟩)
          · exact ⟨Nat.le_refl n, by omega, fun m hm hmn => Nat.le_antisymm hmn hm ▸ hstart⟩
          · refine ⟨by omega, by omega, fun m hm hmn => ?_⟩
            rcases Nat.eq_or_lt_of_le hm with rfl | hlt'
            · exact hstart
            · exact hall m hlt' hmn
        · rintro ⟨hle, hlt, hall⟩
          rcases Nat.eq_or_lt_of_le hle with rfl | hlt'
          · exact Or.inl rfl
          · exact Or.inr ⟨hlt', by omega, fun m hm hmn => hall m (by omega) hmn⟩
      · rename_i hstart
        refine ⟨fun h => absurd h List.not_mem_nil, fun ⟨hle, hlt, hall⟩ => ?_⟩
        exact absurd (hall start (Nat.le_refl start) hle) hstart

/-- There are inputs enough for all branches up to the first that is not there. -/
theorem mem_branches {b : Block} {n : Nat} :
    n ∈ b.branches ↔ ∀ m, 0 < m → m ≤ n → b.HasBranch m := by
  rw [branches, List.range_eq_range', mem_takeWhile_range']
  constructor
  · rintro ⟨-, -, hall⟩ m hpos hmn
    simpa [Nat.ne_of_gt hpos] using hall m (Nat.zero_le m) hmn
  · intro hall
    -- The first branch that is not there lies in the range, so the range cuts none off.
    obtain ⟨gap, hpos, hle, hgap⟩ := b.exists_gap
    have hlt : n < gap := Nat.lt_of_not_le fun hle' => hgap (hall gap hpos hle')
    refine ⟨Nat.zero_le n, by omega, fun m _ hmn => ?_⟩
    rcases Nat.eq_zero_or_pos m with rfl | hpos
    · simp
    · simpa using Or.inr (hall m hpos hmn)

/-- No type, or an input that does not hold the value that is read from it. -/
def IsMalformed (b : Block) : Prop :=
  b.type = "" ∨ ∃ u ∈ b.uses, b.isMisfit u = true

/-! ## Blocks that are come to -/

/-- A block and the blocks that are come to from it, each before those in its inputs. -/
def reached (b : Block) : List Block :=
  b :: b.uses.flatMap fun u => (b.follow u).attach.flatMap fun c => c.1.reached
termination_by sizeOf b
decreasing_by exact sizeOf_lt_of_mem_chain (mem_chain_of_mem_follow c.2)

def reachedBy (b : Block) (u : Use) : List Block :=
  (b.follow u).flatMap reached

theorem reached_eq (b : Block) : b.reached = b :: b.uses.flatMap b.reachedBy := by
  rw [reached]
  simp only [List.flatMap_subtype, List.unattach_attach]
  rfl

end Block

namespace Code

/-- What is reached from a top block that is none of the two functions. -/
def topReached (b : Block) : List Block :=
  if b.isDeclaring || b.isRawTop then b.reached else []

/-- What is reached from the statements of one of the two functions. -/
def sectionReached (roots : List Block) (s : Section) : List Block :=
  match roots.find? fun b => b.type == s.type with
  | some root => (root.chain s.input).flatMap Block.reached
  | none => []

/-- The blocks that are come to in generating a sketch, in this order. -/
def reached (roots : List Block) : List Block :=
  roots.flatMap topReached ++ (sectionReached roots .setup ++ sectionReached roots .loop)

end Code

end InoBlocks
