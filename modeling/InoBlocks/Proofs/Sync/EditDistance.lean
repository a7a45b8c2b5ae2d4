import InoBlocks.Sync.Similarity
import Mathlib.Order.Bounds.Basic

/-!
# The distance is the least number of edits

`Edits n xs ys` says that `n` insertions, deletions and replacements of single items turn one
sequence into another.  `cost` is the recursion on the first items of both sequences that such a
number obeys.  A row of the table holds the costs between the prefixes of the sequences, written
back to front, because the next item is always put behind a prefix; `foldl_nextRow` is the
invariant.  That no number of edits is less than the cost holds because one edit changes the cost by
one at most.
-/

namespace InoBlocks

namespace Similarity

variable {α : Type}

/-! ## Edits -/

/-- One item is inserted, deleted or replaced. -/
inductive Edit : List α → List α → Prop
  | insert (before : List α) (item : α) (after : List α) :
      Edit (before ++ after) (before ++ item :: after)
  | delete (before : List α) (item : α) (after : List α) :
      Edit (before ++ item :: after) (before ++ after)
  | replace (before : List α) (old new : α) (after : List α) :
      Edit (before ++ old :: after) (before ++ new :: after)

/-- A number of edits, one after the other. -/
inductive Edits : Nat → List α → List α → Prop
  | refl (xs : List α) : Edits 0 xs xs
  | step {n : Nat} {xs ys zs : List α} (h : Edit xs ys) (hs : Edits n ys zs) : Edits (n + 1) xs zs

variable {m n : Nat} {x : α} {xs ys zs : List α}

theorem Edit.symm (h : Edit xs ys) : Edit ys xs := by
  cases h with
  | insert before item after => exact .delete before item after
  | delete before item after => exact .insert before item after
  | replace before old new after => exact .replace before new old after

theorem Edit.cons (x : α) (h : Edit xs ys) : Edit (x :: xs) (x :: ys) := by
  cases h with
  | insert before item after => exact .insert (x :: before) item after
  | delete before item after => exact .delete (x :: before) item after
  | replace before old new after => exact .replace (x :: before) old new after

theorem Edit.reverse (h : Edit xs ys) : Edit xs.reverse ys.reverse := by
  cases h with
  | insert before item after => simpa using Edit.insert after.reverse item before.reverse
  | delete before item after => simpa using Edit.delete after.reverse item before.reverse
  | replace before old new after => simpa using Edit.replace after.reverse old new before.reverse

namespace Edits

theorem trans (h : Edits m xs ys) (h' : Edits n ys zs) : Edits (m + n) xs zs := by
  induction h with
  | refl xs => simpa using h'
  | @step k _ _ _ hedit _ ih =>
      rw [Nat.add_right_comm]
      exact .step hedit (ih h')

theorem single (h : Edit xs ys) : Edits 1 xs ys :=
  .step h (.refl ys)

theorem symm (h : Edits n xs ys) : Edits n ys xs := by
  induction h with
  | refl xs => exact .refl xs
  | step hedit _ ih => exact ih.trans (single hedit.symm)

theorem cons (x : α) (h : Edits n xs ys) : Edits n (x :: xs) (x :: ys) := by
  induction h with
  | refl xs => exact .refl (x :: xs)
  | step hedit _ ih => exact .step (hedit.cons x) ih

theorem reverse (h : Edits n xs ys) : Edits n xs.reverse ys.reverse := by
  induction h with
  | refl xs => exact .refl xs.reverse
  | step hedit _ ih => exact .step hedit.reverse ih

theorem reverse_iff : Edits n xs.reverse ys.reverse ↔ Edits n xs ys :=
  ⟨fun h => by simpa using h.reverse, reverse⟩

theorem zero_iff : Edits 0 xs ys ↔ xs = ys := by
  constructor
  · intro h
    cases h
    rfl
  · rintro rfl
    exact .refl xs

theorem least (h : Edits m xs ys) (h' : Edits n xs ys) : Edits (min m n) xs ys := by
  rcases Nat.le_total m n with hle | hle
  · rwa [Nat.min_eq_left hle]
  · rwa [Nat.min_eq_right hle]

theorem insertAll (ys : List α) : Edits ys.length [] ys := by
  induction ys with
  | nil => exact .refl []
  | cons y ys ih => exact ih.trans (single (.insert [] y ys))

end Edits

/-! ## The recursion on first items -/

variable [BEq α]

/-- What two sequences cost by their first items: one of them is deleted or inserted, or both are
left behind, at no cost if they are equal. -/
def cost : List α → List α → Nat
  | [], ys => ys.length
  | x :: xs, [] => (x :: xs).length
  | x :: xs, y :: ys =>
      min (min (cost xs (y :: ys) + 1) (cost (x :: xs) ys + 1))
        (cost xs ys + if x == y then 0 else 1)
termination_by xs ys => xs.length + ys.length

theorem ite_le_one (b : Bool) : (if b then 0 else 1) ≤ 1 := by
  cases b <;> decide

theorem cost_nil_left (ys : List α) : cost [] ys = ys.length := by
  rw [cost]

theorem cost_nil_right (xs : List α) : cost xs [] = xs.length := by
  cases xs <;> rw [cost]

theorem cost_cons_cons (x y : α) (xs ys : List α) :
    cost (x :: xs) (y :: ys) =
      min (min (cost xs (y :: ys) + 1) (cost (x :: xs) ys + 1))
        (cost xs ys + if x == y then 0 else 1) := by
  rw [cost]

theorem cost_self [ReflBEq α] (xs : List α) : cost xs xs = 0 := by
  induction xs with
  | nil => rw [cost_nil_left, List.length_nil]
  | cons x xs ih =>
      rw [cost_cons_cons, BEq.rfl, if_pos rfl]
      omega

theorem cost_le_max (xs ys : List α) : cost xs ys ≤ max xs.length ys.length := by
  fun_induction cost xs ys with
  | case1 ys => simp
  | case2 x xs => simp
  | case3 x xs y ys _ _ ih =>
      have hitems := ite_le_one (x == y)
      simp only [List.length_cons]
      omega

/-- Following the recursion, as many edits are made as it counts. -/
theorem edits_cost [LawfulBEq α] (xs ys : List α) : Edits (cost xs ys) xs ys := by
  fun_induction cost xs ys with
  | case1 ys => exact .insertAll ys
  | case2 x xs => exact (Edits.insertAll (x :: xs)).symm
  | case3 x xs y ys hdelete hinsert hboth =>
      have hdeleted : Edits (cost xs (y :: ys) + 1) (x :: xs) (y :: ys) :=
        .step (.delete [] x xs) hdelete
      have hinserted : Edits (cost (x :: xs) ys + 1) (x :: xs) (y :: ys) :=
        hinsert.trans (.single (.insert [] y ys))
      have hboth' : Edits (cost xs ys + if x == y then 0 else 1) (x :: xs) (y :: ys) := by
        split
        · rename_i hxy
          rw [eq_of_beq hxy]
          exact hboth.cons y
        · exact (hboth.cons x).trans (.single (.replace [] x y ys))
      exact (hdeleted.least hinserted).least hboth'

/-! ## An edit changes the cost by one at most -/

theorem cost_cons_left_le (x : α) (xs ys : List α) : cost (x :: xs) ys ≤ cost xs ys + 1 := by
  cases ys with
  | nil => simp [cost_nil_right]
  | cons y ys =>
      rw [cost_cons_cons]
      omega

theorem cost_insert_le (xs : List α) (y : α) (ys : List α) :
    cost xs (y :: ys) ≤ cost xs ys + 1 := by
  cases xs with
  | nil => simp [cost_nil_left]
  | cons x xs =>
      rw [cost_cons_cons]
      omega

theorem cost_delete_le (xs : List α) (y : α) (ys : List α) :
    cost xs ys ≤ cost xs (y :: ys) + 1 := by
  induction xs with
  | nil =>
      simp only [cost_nil_left, List.length_cons]
      omega
  | cons x xs ih =>
      have hleft := cost_cons_left_le x xs ys
      rw [cost_cons_cons]
      omega

theorem cost_replace_le (xs : List α) (old new : α) (ys : List α) :
    cost xs (new :: ys) ≤ cost xs (old :: ys) + 1 := by
  induction xs with
  | nil => simp [cost_nil_left]
  | cons x xs ih =>
      have hnew := ite_le_one (x == new)
      rw [cost_cons_cons, cost_cons_cons]
      omega

/-- What holds of an edit at the front holds of one behind an item. -/
theorem cost_cons_le {ys zs : List α} (h : ∀ xs, cost xs zs ≤ cost xs ys + 1) (y : α)
    (xs : List α) : cost xs (y :: zs) ≤ cost xs (y :: ys) + 1 := by
  induction xs with
  | nil =>
      have hfront := h []
      simp only [cost_nil_left, List.length_cons] at hfront ⊢
      omega
  | cons x xs ih =>
      have hhere := h (x :: xs)
      have hboth := h xs
      rw [cost_cons_cons, cost_cons_cons]
      omega

theorem Edit.cost_le (h : Edit ys zs) (xs : List α) : cost xs zs ≤ cost xs ys + 1 := by
  have hbefore : ∀ (before : List α) {ys zs : List α},
      (∀ xs, cost xs zs ≤ cost xs ys + 1) →
      ∀ xs, cost xs (before ++ zs) ≤ cost xs (before ++ ys) + 1 := by
    intro before ys zs hfront
    induction before with
    | nil => exact hfront
    | cons y before ih => exact cost_cons_le ih y
  cases h with
  | insert before item after => exact hbefore before (fun xs => cost_insert_le xs item after) xs
  | delete before item after => exact hbefore before (fun xs => cost_delete_le xs item after) xs
  | replace before old new after =>
      exact hbefore before (fun xs => cost_replace_le xs old new after) xs

/-- Along edits the cost from a fixed sequence grows by their number at most. -/
theorem Edits.cost_le (h : Edits n ys zs) (xs : List α) : cost xs zs ≤ cost xs ys + n := by
  induction h with
  | refl ys => exact Nat.le_refl _
  | step hedit _ ih =>
      have hstep := hedit.cost_le xs
      omega

theorem cost_isLeast [LawfulBEq α] (xs ys : List α) :
    IsLeast {n | Edits n xs ys} (cost xs ys) := by
  refine ⟨edits_cost xs ys, ?_⟩
  intro n hn
  have hle := Edits.cost_le hn xs
  rwa [cost_self, Nat.zero_add] at hle

/-! ## The table -/

/-- The rest of a row: what the prefix `p` costs against the prefixes that go on from `q`.  Both
prefixes stand back to front. -/
def costsFrom (p q : List α) : List α → List Nat
  | [] => []
  | y :: ys => cost p (y :: q) :: costsFrom p (y :: q) ys

/-- What a prefix, given back to front, costs against all prefixes of a sequence. -/
def row (p ys : List α) : List Nat :=
  cost p [] :: costsFrom p [] ys

theorem firstRow_eq (ys : List α) : firstRow ys = row [] ys := by
  have hrest : ∀ ys q : List α, costsFrom [] q ys = List.range' (q.length + 1) ys.length := by
    intro ys
    induction ys with
    | nil => intro q; rfl
    | cons y ys ih =>
        intro q
        rw [costsFrom, ih, cost_nil_left, List.length_cons, List.length_cons, List.range'_succ]
  rw [firstRow, row, hrest, cost_nil_left, List.range_eq_range', List.range'_succ]
  rfl

/-- The entries of a row follow from those above and to the left by the recursion. -/
theorem extendRow_eq (x : α) (p q ys : List α) :
    extendRow x (cost p q) (cost (x :: p) q) (costsFrom p q ys) ys = costsFrom (x :: p) q ys := by
  induction ys generalizing q with
  | nil => rfl
  | cons y ys ih =>
      rw [costsFrom, costsFrom, extendRow, ← cost_cons_cons, ih]

theorem nextRow_eq (x : α) (p ys : List α) : nextRow ys (row p ys) x = row (x :: p) ys := by
  have hfirst : cost p [] + 1 = cost (x :: p) [] := by
    rw [cost_nil_right, cost_nil_right, List.length_cons]
  rw [row, row, nextRow, hfirst, extendRow_eq]

/-- The invariant of the table: from the row of a prefix the items behind it lead to the row of the
longer prefix. -/
theorem foldl_nextRow (xs p ys : List α) :
    xs.foldl (nextRow ys) (row p ys) = row (xs.reverse ++ p) ys := by
  induction xs generalizing p with
  | nil => rfl
  | cons x xs ih =>
      rw [List.foldl_cons, nextRow_eq, ih, List.reverse_cons, List.append_assoc,
        List.singleton_append]

theorem getLast?_row (p ys : List α) : (row p ys).getLast? = some (cost p ys.reverse) := by
  have hrest : ∀ ys q : List α, (cost p q :: costsFrom p q ys).getLast? =
      some (cost p (ys.reverse ++ q)) := by
    intro ys
    induction ys with
    | nil => intro q; rfl
    | cons y ys ih =>
        intro q
        rw [costsFrom, List.getLast?_cons_cons, ih, List.reverse_cons, List.append_assoc,
          List.singleton_append]
  rw [row, hrest, List.append_nil]

theorem lastEntry_eq (xs ys : List α) : lastEntry xs ys = cost xs.reverse ys.reverse := by
  rw [lastEntry, firstRow_eq, foldl_nextRow, List.append_nil, getLast?_row, Option.getD_some]

theorem lastEntry_le_max (xs ys : List α) : lastEntry xs ys ≤ max xs.length ys.length := by
  have hle := cost_le_max xs.reverse ys.reverse
  rwa [List.length_reverse, List.length_reverse, ← lastEntry_eq] at hle

/-! ## The distance -/

variable [LawfulBEq α]

theorem lastEntry_isLeast (xs ys : List α) :
    IsLeast {n | Edits n xs ys} (lastEntry xs ys) := by
  have hleast := cost_isLeast xs.reverse ys.reverse
  simp only [Edits.reverse_iff] at hleast
  rwa [lastEntry_eq]

/-- Which of the two sequences gives the rows makes no difference. -/
theorem lastEntry_comm (xs ys : List α) : lastEntry xs ys = lastEntry ys xs := by
  refine Nat.le_antisymm ?_ ?_
  · exact (lastEntry_isLeast xs ys).2 (Edits.symm (lastEntry_isLeast ys xs).1)
  · exact (lastEntry_isLeast ys xs).2 (Edits.symm (lastEntry_isLeast xs ys).1)

theorem distance_eq_lastEntry (xs ys : List α) : distance xs ys = lastEntry xs ys := by
  rw [distance]
  split
  · exact lastEntry_comm ys xs
  · rfl

/-- The distance of two sequences is the least number of single items to insert, delete or replace
that turns one into the other.  It is a metric, and is at most the longer length. -/
theorem distance_isLeast (xs ys : List α) :
    IsLeast {n | Edits n xs ys} (distance xs ys) ∧
      distance xs ys = distance ys xs ∧
      (∀ zs, distance xs zs ≤ distance xs ys + distance ys zs) ∧
      (distance xs ys = 0 ↔ xs = ys) ∧
      distance xs ys ≤ max xs.length ys.length := by
  simp only [distance_eq_lastEntry]
  refine ⟨lastEntry_isLeast xs ys, lastEntry_comm xs ys, fun zs => ?_, ?_, lastEntry_le_max xs ys⟩
  · exact (lastEntry_isLeast xs zs).2
      (Edits.trans (lastEntry_isLeast xs ys).1 (lastEntry_isLeast ys zs).1)
  · constructor
    · intro hzero
      have hedits : Edits (lastEntry xs ys) xs ys := (lastEntry_isLeast xs ys).1
      rw [hzero] at hedits
      exact Edits.zero_iff.mp hedits
    · rintro rfl
      exact Nat.le_zero.mp ((lastEntry_isLeast xs xs).2 (Edits.refl xs))

/-- The longer of two texts stands first or second; two edits lead from one to the other. -/
theorem distance_isLeast_blink :
    distance "blinks".toList "brink".toList = 2 ∧ distance "brink".toList "blinks".toList = 2 ∧
      IsLeast {n | Edits n "blinks".toList "brink".toList} 2 := by
  have hdistance : distance "blinks".toList "brink".toList = 2 := by decide
  have hleast := distance_isLeast "blinks".toList "brink".toList
  refine ⟨hdistance, ?_, ?_⟩
  · rw [← hleast.2.1, hdistance]
  · rw [← hdistance]
    exact hleast.1

end Similarity

end InoBlocks
