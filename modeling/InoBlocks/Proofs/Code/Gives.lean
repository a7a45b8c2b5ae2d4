import InoBlocks.Code.Statement

/-!
# What generating gives

`Gives g a assigned declared` says that a computation of code never fails, what it returns, and
what it leaves behind in the context: the names it assigns and declares, and at most the need of
mathematics.  It holds of a sequence of computations if it holds of each.
-/

namespace InoBlocks

namespace Code

theorem mem_addNew {xs : List String} {x y : String} : y ∈ addNew xs x ↔ y ∈ xs ∨ y = x := by
  unfold addNew
  split
  · rename_i h
    constructor
    · exact Or.inl
    · rintro (hy | rfl)
      · exact hy
      · simpa using h
  · simp

theorem addNew_addNew (xs : List String) (x : String) : addNew (addNew xs x) x = addNew xs x := by
  have hmem : (addNew xs x).contains x = true := by
    rw [List.contains_iff_mem, mem_addNew]
    exact Or.inr rfl
  conv => lhs; rw [addNew, if_pos hmem]

theorem mem_foldl_addNew {ts xs : List String} {y : String} :
    y ∈ ts.foldl addNew xs ↔ y ∈ xs ∨ y ∈ ts := by
  induction ts generalizing xs with
  | nil => simp
  | cons t ts ih => rw [List.foldl_cons, ih, mem_addNew, List.mem_cons, or_assoc]

theorem foldl_addNew_of_nodup {ts xs : List String} (h : (xs ++ ts).Nodup) :
    ts.foldl addNew xs = xs ++ ts := by
  induction ts generalizing xs with
  | nil => simp
  | cons t ts ih =>
      have hnew : t ∉ xs := fun hmem =>
        (List.nodup_append.mp h).2.2 t hmem t List.mem_cons_self rfl
      have hsplit : xs ++ t :: ts = xs ++ [t] ++ ts := by simp
      rw [List.foldl_cons, addNew, if_neg (by simpa using hnew), ih (hsplit ▸ h), ← hsplit]

/-- What a computation has changed in the context, if it warns of nothing and neither declares a
global variable nor has a function. -/
structure Leaves (c c' : Context) (assigned declared : List String) : Prop where
  includes : c'.includes = c.includes ∨ c'.includes = addNew c.includes mathHeader
  globals : c'.globals = c.globals
  functions : c'.functions = c.functions
  findings : c'.findings = c.findings
  assigned : ∀ name, name ∈ c'.assigned ↔ name ∈ c.assigned ∨ name ∈ assigned
  declared : ∀ name, name ∈ c'.declared ↔ name ∈ c.declared ∨ name ∈ declared

namespace Leaves

variable {c c₁ c₂ : Context} {xs ys xs' ys' : List String}

theorem refl (c : Context) : Leaves c c [] [] where
  includes := Or.inl rfl
  globals := rfl
  functions := rfl
  findings := rfl
  assigned := by simp
  declared := by simp

theorem trans (h : Leaves c c₁ xs ys) (h' : Leaves c₁ c₂ xs' ys') :
    Leaves c c₂ (xs ++ xs') (ys ++ ys') where
  includes := by
    rcases h.includes with h₁ | h₁ <;> rcases h'.includes with h₂ | h₂ <;> rw [h₂, h₁]
    · exact Or.inl rfl
    · exact Or.inr rfl
    · exact Or.inr rfl
    · exact Or.inr (addNew_addNew _ _)
  globals := h'.globals.trans h.globals
  functions := h'.functions.trans h.functions
  findings := h'.findings.trans h.findings
  assigned := by
    intro name
    rw [h'.assigned, h.assigned, List.mem_append, or_assoc]
  declared := by
    intro name
    rw [h'.declared, h.declared, List.mem_append, or_assoc]

theorem addInclude (c : Context) : Leaves c (c.addInclude mathHeader) [] [] where
  includes := Or.inr rfl
  globals := rfl
  functions := rfl
  findings := rfl
  assigned := by simp [Context.addInclude]
  declared := by simp [Context.addInclude]

theorem assign (c : Context) (name : String) : Leaves c (c.assign name) [name] [] where
  includes := Or.inl rfl
  globals := rfl
  functions := rfl
  findings := rfl
  assigned := by simp [Context.assign, mem_addNew]
  declared := by simp [Context.assign]

theorem declare (c : Context) (name : String) : Leaves c (c.declare name) [] [name] where
  includes := Or.inl rfl
  globals := rfl
  functions := rfl
  findings := rfl
  assigned := by simp [Context.declare]
  declared := by simp [Context.declare, mem_addNew]

end Leaves

/-- A computation succeeds in every context, with the same result, and leaves the same behind. -/
def Gives {α : Type} (g : Gen α) (a : α) (assigned declared : List String) : Prop :=
  ∀ c, ∃ c', g c = .ok (a, c') ∧ Leaves c c' assigned declared

namespace Gives

variable {α β : Type} {g : Gen α} {f : α → Gen β} {a : α} {b : β} {xs ys xs' ys' : List String}

theorem pure (a : α) : Gives (Pure.pure a) a [] [] :=
  fun c => ⟨c, rfl, .refl c⟩

theorem bind (h : Gives g a xs ys) (h' : Gives (f a) b xs' ys') :
    Gives (g >>= f) b (xs ++ xs') (ys ++ ys') := by
  intro c
  obtain ⟨c₁, hg, hleaves⟩ := h c
  obtain ⟨c₂, hf, hleaves'⟩ := h' c₁
  refine ⟨c₂, ?_, hleaves.trans hleaves'⟩
  change (g c >>= fun p => f p.1 p.2) = _
  rw [hg]
  exact hf

theorem of_eq {a' : α} (h : Gives g a xs ys) (ha : a = a') : Gives g a' xs ys :=
  ha ▸ h

/-- A computation whose result is only put into another form. -/
theorem map (h : Gives g a xs ys) (k : α → β) : Gives (g >>= fun x => Pure.pure (k x)) (k a) xs ys := by
  have hbind := h.bind (f := fun x => Pure.pure (k x)) (pure (k a))
  rwa [List.append_nil, List.append_nil] at hbind

theorem modify {k : Context → Context} (h : ∀ c, Leaves c (k c) xs ys) :
    Gives (MonadState.modifyGet fun c => ((), k c) : Gen Unit) () xs ys :=
  fun c => ⟨k c, rfl, h c⟩

theorem needMath : Gives needMath () [] [] :=
  modify Leaves.addInclude

end Gives

namespace Shape

theorem operand_eq {s : Shape} {template : Shape → Gen Operand} (htype : s.type ≠ "")
    (htemplate : Value.template? s.type = some template) : s.operand = template s := by
  rw [operand, if_neg (by simpa using htype)]
  simp only [htemplate]

/-- A shape whose input of some name holds one part with a value. -/
theorem gives_value {s : Shape} {name : String} {part : Part} {operand : Operand}
    (hchain : s.chain name = [part]) (hpart : Gives part.value operand [] []) (default : String)
    (demanded : Nat) :
    Gives (s.value name default demanded)
      (Expr.guarded operand.text operand.binding demanded) [] [] := by
  have htarget : Gives (s.target name) (some part) [] [] := by
    rw [target, hchain]
    exact .pure _
  exact htarget.bind (hpart.map _)

theorem gives_unguarded {s : Shape} {name : String} {part : Part} {operand : Operand}
    (hchain : s.chain name = [part]) (hpart : Gives part.value operand [] []) (default : String) :
    Gives (s.value name default) operand.text [] [] := by
  have hvalue := gives_value hchain hpart default Binding.unknown
  rwa [Expr.guarded, if_neg (by exact Nat.not_lt_zero _)] at hvalue

end Shape

end Code

end InoBlocks
