/-!
# Room for calls

Functions that call one another along a tree have as many calls under way at a time as the tree is
deep.  The interpreter has room for so many, and a computation that needs more ends there.  How much
room there is depends on what is under way already, so it is a parameter here.

Only calls are counted that lead on along the tree.  What a function calls besides goes no deeper
with the input, and has its place beneath the room that is given.
-/

namespace InoBlocks

/-- Why a computation ends without a result where the room for calls is limited. -/
inductive Halt (ε : Type) where
  | fault (e : ε)
  /-- There is no room for another call. -/
  | bottomless
  deriving DecidableEq, Repr

def Halt.map {ε δ : Type} (f : ε → δ) : Halt ε → Halt δ
  | fault e => .fault (f e)
  | bottomless => .bottomless

namespace Room

variable {ε α : Type} {room needed : Nat} {x : Unit → Except ε α}

/-- A computation that needs room for so many calls at a time. -/
def within (room needed : Nat) (x : Unit → Except ε α) : Except (Halt ε) α :=
  if needed ≤ room then (x ()).mapError .fault else .error .bottomless

theorem within_of_le (h : needed ≤ room) : within room needed x = (x ()).mapError .fault :=
  if_pos h

theorem within_of_lt (h : room < needed) : within room needed x = .error .bottomless :=
  if_neg (Nat.not_le_of_lt h)

theorem within_ok (h : needed ≤ room) {a : α} (hx : x () = .ok a) :
    within room needed x = .ok a := by
  rw [within_of_le h, hx]
  rfl

end Room

/-! ## On the way down -/

/-- What a computation that comes to one thing after another needs: the most calls at a time, up to
where it gives up, if it does. -/
structure Descent where
  calls : Nat
  gaveUp : Bool
  deriving DecidableEq, Repr

namespace Descent

/-- A computation that goes no deeper. -/
def flat : Descent := ⟨0, false⟩

/-- A computation that gives up with so many calls under way. -/
def refusal (calls : Nat) : Descent := ⟨calls, true⟩

/-- One computation, and then another unless the first gives up. -/
def andThen (first second : Descent) : Descent :=
  if first.gaveUp then first else ⟨max first.calls second.calls, second.gaveUp⟩

/-- A computation beneath so many more calls. -/
def beneath (calls : Nat) (d : Descent) : Descent :=
  ⟨calls + d.calls, d.gaveUp⟩

/-- Computations in a row. -/
def inOrder : List Descent → Descent
  | [] => flat
  | d :: ds => d.andThen (inOrder ds)

variable {n : Nat}

@[simp] theorem beneath_calls (calls : Nat) (d : Descent) :
    (d.beneath calls).calls = calls + d.calls :=
  rfl

theorem andThen_calls_le {d d' : Descent} (h : d.calls ≤ n) (h' : d'.calls ≤ n) :
    (d.andThen d').calls ≤ n := by
  unfold andThen
  split
  · exact h
  · exact Nat.max_le.mpr ⟨h, h'⟩

theorem inOrder_calls_le {ds : List Descent} (h : ∀ d ∈ ds, d.calls ≤ n) :
    (inOrder ds).calls ≤ n := by
  induction ds with
  | nil => exact Nat.zero_le n
  | cons d ds ih =>
      obtain ⟨hd, hds⟩ := List.forall_mem_cons.mp h
      exact andThen_calls_le hd (ih hds)

theorem inOrder_gaveUp_iff {ds : List Descent} :
    (inOrder ds).gaveUp = true ↔ ∃ d ∈ ds, d.gaveUp = true := by
  induction ds with
  | nil => simp [inOrder, flat]
  | cons d ds ih =>
      rw [inOrder, andThen]
      cases h : d.gaveUp <;> simp [h, ih]

end Descent

end InoBlocks
