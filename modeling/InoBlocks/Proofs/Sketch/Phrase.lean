import InoBlocks.Proofs.Token.Word

/-!
# Phrases

The grammar of expressions as a relation: which words are an expression, and of what strength.
A phrase of some strength is a phrase of every smaller one, down to that of an assignment, and a
group makes a primary of any phrase.  The places in a tree are free.
-/

namespace InoBlocks

namespace TokenKind

/-- The strength with which a token goes on with an operand in front of it, zero if it does not
go on. -/
def joins : TokenKind → Nat
  | assign | plusAssign => 1
  | logicalOr => 2
  | logicalAnd => 3
  | equal | notEqual => 4
  | lessThan | lessEqual | greaterThan | greaterEqual => 5
  | plus | minus => 6
  | multiply | divide | modulo => 7
  | leftParen | dot | increment | decrement => 9
  | _ => 0

def inPhrase : TokenKind → Bool
  | number | string | identifier | boolean | high | low | input | output | inputPullup | assign
  | plusAssign | plus | minus | multiply | divide | modulo | increment | decrement | equal
  | notEqual | lessThan | lessEqual | greaterThan | greaterEqual | logicalAnd | logicalOr
  | logicalNot | comma | dot | leftParen | rightParen => true
  | _ => false

def begins : TokenKind → Bool
  | number | string | identifier | boolean | high | low | input | output | inputPullup | plus
  | minus | increment | decrement | logicalNot | leftParen => true
  | _ => false

def namesValue (kind : TokenKind) : Bool :=
  kind == boolean || kind.isConstant

theorem inPhrase_of_joins {kind : TokenKind} (h : kind.joins ≠ 0) : kind.inPhrase = true := by
  cases kind <;> first | rfl | exact absurd rfl h

theorem joins_of_isAssignment {kind : TokenKind} (h : ExprGrammar.isAssignment kind = true) :
    kind.joins = 1 := by
  cases kind <;> first | rfl | exact absurd h (by decide)

theorem joins_of_isTrailing {kind : TokenKind} (h : ExprGrammar.isTrailing kind = true) :
    kind.joins = 9 := by
  cases kind <;> first | rfl | exact absurd h (by decide)

theorem begins_of_isLeading {kind : TokenKind} (h : ExprGrammar.isLeading kind = true) :
    kind.begins = true := by
  cases kind <;> first | rfl | exact absurd h (by decide)

theorem inPhrase_of_begins {kind : TokenKind} (h : kind.begins = true) :
    kind.inPhrase = true := by
  cases kind <;> first | rfl | exact absurd h (by decide)

theorem begins_of_namesValue {kind : TokenKind} (h : kind.namesValue = true) :
    kind.begins = true ∧ ExprGrammar.isLeading kind = false := by
  cases kind <;> first | exact ⟨rfl, rfl⟩ | exact absurd h (by decide)

end TokenKind

/-- Items with a comma between any two of them, as words. -/
inductive Listed : List (List Word × Expr) → List Word → Prop where
  | none : Listed [] []
  | one (a : List Word × Expr) : Listed [a] a.1
  | more (a b : List Word × Expr) {rest : List (List Word × Expr)} {comma : Word}
      {ws : List Word} : comma.kind = .comma → Listed (b :: rest) ws →
      Listed (a :: b :: rest) (a.1 ++ comma :: ws)

/-- Words that are an expression of some strength, and the expression. -/
inductive Phrase : Nat → List Word → Expr → Prop where
  | name (l : Location) {id : String} : isAnalogPin id = false →
      Phrase 10 [⟨.identifier, id⟩] (.name l id)
  | pin (l : Location) {id : String} : isAnalogPin id = true →
      Phrase 10 [⟨.identifier, id⟩] (.pin l id true)
  | number (l : Location) {raw : String} {value : Binary64} : Number.double? raw = some value →
      Phrase 10 [⟨.number, raw⟩] (.literal l (.number value) raw)
  | string (l : Location) (raw : String) :
      Phrase 10 [⟨.string, raw⟩] (.literal l (.text (ExprGrammar.unquote raw)) raw)
  | constant (l : Location) {kind : TokenKind} (text : String) : kind.namesValue = true →
      Phrase 10 [⟨kind, text⟩] (.literal l (.text text) text)
  | group {left right : Word} {ws : List Word} {e : Expr} : left.kind = .leftParen →
      right.kind = .rightParen → Phrase 1 ws e → Phrase 10 (left :: ws ++ [right]) e
  | member (l : Location) {dot property : Word} {ws : List Word} {e : Expr} : dot.kind = .dot →
      property.kind = .identifier → Phrase 9 ws e →
      Phrase 9 (ws ++ [dot, property]) (.member l e property.text)
  | call (l : Location) {left right : Word} {us vs : List Word} {e : Expr}
      {arguments : List (List Word × Expr)} : left.kind = .leftParen →
      right.kind = .rightParen → Phrase 9 us e → Listed arguments vs →
      (∀ a ∈ arguments, Phrase 1 a.1 a.2) →
      Phrase 9 (us ++ left :: vs ++ [right]) (.call l e (arguments.map Prod.snd))
  | step (l : Location) {op : Word} {ws : List Word} {e : Expr} :
      ExprGrammar.isTrailing op.kind = true → Phrase 9 ws e →
      Phrase 9 (ws ++ [op]) (.unary l op.text e false)
  | leading (l : Location) {op : Word} {ws : List Word} {e : Expr} :
      ExprGrammar.isLeading op.kind = true → Phrase 8 ws e →
      Phrase 8 (op :: ws) (.unary l op.text e true)
  | binary (l : Location) {n : Nat} {op : Word} {us vs : List Word} {a b : Expr} :
      2 ≤ n → n ≤ 7 → op.kind.joins = n → Phrase n us a → Phrase (n + 1) vs b →
      Phrase n (us ++ op :: vs) (.binary l op.text a b)
  | assign (l : Location) {op : Word} {us vs : List Word} {a b : Expr} :
      ExprGrammar.isAssignment op.kind = true → Phrase 2 us a → Phrase 1 vs b →
      Phrase 1 (us ++ op :: vs) (.assign l op.text a b)
  | loosen {n : Nat} {ws : List Word} {e : Expr} : 1 ≤ n → Phrase (n + 1) ws e → Phrase n ws e

namespace Phrase

variable {n m : Nat} {ws : List Word} {e : Expr}

theorem loosenTo (h : Phrase n ws e) (hm : 1 ≤ m) (hle : m ≤ n) : Phrase m ws e := by
  induction n with
  | zero => omega
  | succ n ih =>
      by_cases heq : m = n + 1
      · exact heq ▸ h
      · exact ih (.loosen (by omega) h) (by omega)

theorem one_le (h : Phrase n ws e) : 1 ≤ n := by
  induction h with
  | loosen hn _ _ => exact hn
  | _ => omega

theorem le_ten (h : Phrase n ws e) : n ≤ 10 := by
  induction h with
  | loosen _ _ ih => omega
  | _ => omega

/-- Every word of a list is a word of an item or a comma. -/
theorem listed_mem {items : List (List Word × Expr)} (h : Listed items ws) {w : Word}
    (hw : w ∈ ws) : w.kind = .comma ∨ ∃ a ∈ items, w ∈ a.1 := by
  induction h with
  | none => cases hw
  | one a => exact Or.inr ⟨a, List.mem_singleton_self a, hw⟩
  | more a b hcomma _ ih =>
      rcases List.mem_append.mp hw with hw | hw
      · exact Or.inr ⟨a, List.mem_cons_self, hw⟩
      · rcases List.mem_cons.mp hw with rfl | hw
        · exact Or.inl hcomma
        · rcases ih hw with hk | ⟨c, hc, hw⟩
          · exact Or.inl hk
          · exact Or.inr ⟨c, List.mem_cons_of_mem a hc, hw⟩

theorem mem_of_listed {items : List (List Word × Expr)} (h : Listed items ws)
    {a : List Word × Expr} (ha : a ∈ items) {w : Word} (hw : w ∈ a.1) : w ∈ ws := by
  induction h with
  | none => cases ha
  | one b =>
      rw [List.mem_singleton.mp ha] at hw
      exact hw
  | more b c _ _ ih =>
      rcases List.mem_cons.mp ha with rfl | ha
      · exact List.mem_append_left _ hw
      · exact List.mem_append_right _ (List.mem_cons_of_mem _ (ih ha))

theorem inPhrase (h : Phrase n ws e) : ∀ w ∈ ws, w.kind.inPhrase = true := by
  have hparen : ∀ {w : Word}, w.kind = .leftParen ∨ w.kind = .rightParen →
      w.kind.inPhrase = true := by
    rintro w (h | h) <;> rw [h] <;> rfl
  induction h with
  | name | pin | number | string =>
      intro w hw
      rw [List.mem_singleton.mp hw]
      rfl
  | constant l text hkind =>
      intro w hw
      rw [List.mem_singleton.mp hw]
      exact TokenKind.inPhrase_of_begins (TokenKind.begins_of_namesValue hkind).1
  | group hleft hright _ ih =>
      intro w hw
      simp only [List.mem_append, List.mem_cons, List.not_mem_nil, or_false] at hw
      rcases hw with (rfl | hw) | rfl
      · exact hparen (Or.inl hleft)
      · exact ih w hw
      · exact hparen (Or.inr hright)
  | member l hdot hproperty _ ih =>
      intro w hw
      simp only [List.mem_append, List.mem_cons, List.not_mem_nil, or_false] at hw
      rcases hw with hw | rfl | rfl
      · exact ih w hw
      · rw [hdot]
        rfl
      · rw [hproperty]
        rfl
  | call l hleft hright _ hlist _ ih ihs =>
      intro w hw
      simp only [List.mem_append, List.mem_cons, List.not_mem_nil, or_false] at hw
      rcases hw with (hw | rfl | hw) | rfl
      · exact ih w hw
      · exact hparen (Or.inl hleft)
      · rcases listed_mem hlist hw with hk | ⟨a, ha, hwa⟩
        · rw [hk]
          rfl
        · exact ihs a ha w hwa
      · exact hparen (Or.inr hright)
  | step l hop _ ih =>
      intro w hw
      rcases List.mem_append.mp hw with hw | hw
      · exact ih w hw
      · rw [List.mem_singleton.mp hw]
        exact TokenKind.inPhrase_of_joins (by rw [TokenKind.joins_of_isTrailing hop]; decide)
  | leading l hop _ ih =>
      intro w hw
      rcases List.mem_cons.mp hw with rfl | hw
      · exact TokenKind.inPhrase_of_begins (TokenKind.begins_of_isLeading hop)
      · exact ih w hw
  | binary l hlow _ hop _ _ iha ihb =>
      intro w hw
      rcases List.mem_append.mp hw with hw | hw
      · exact iha w hw
      · rcases List.mem_cons.mp hw with rfl | hw
        · exact TokenKind.inPhrase_of_joins (by omega)
        · exact ihb w hw
  | assign l hop _ _ iha ihb =>
      intro w hw
      rcases List.mem_append.mp hw with hw | hw
      · exact iha w hw
      · rcases List.mem_cons.mp hw with rfl | hw
        · exact TokenKind.inPhrase_of_joins (by rw [TokenKind.joins_of_isAssignment hop]; decide)
        · exact ihb w hw
  | loosen _ _ ih => exact ih

/-- A phrase has a first word.  If it is of the strength of a trailing operator or a primary,
that is no operator in front of an operand. -/
theorem exists_head (h : Phrase n ws e) :
    ∃ w us, ws = w :: us ∧ w.kind.begins = true ∧
      (9 ≤ n → ExprGrammar.isLeading w.kind = false) := by
  have happ : ∀ {ws vs : List Word}, (∃ w us, ws = w :: us ∧ w.kind.begins = true ∧
      (9 ≤ 9 → ExprGrammar.isLeading w.kind = false)) →
      ∃ w us, ws ++ vs = w :: us ∧ w.kind.begins = true ∧
        (9 ≤ 9 → ExprGrammar.isLeading w.kind = false) := by
    rintro ws vs ⟨w, us, rfl, hw⟩
    exact ⟨w, us ++ vs, rfl, hw⟩
  induction h with
  | name | pin | number | string => exact ⟨_, _, rfl, rfl, fun _ => rfl⟩
  | constant l text hkind =>
      obtain ⟨hbegins, hleading⟩ := TokenKind.begins_of_namesValue hkind
      exact ⟨_, _, rfl, hbegins, fun _ => hleading⟩
  | group hleft => exact ⟨_, _, rfl, by rw [hleft]; rfl, fun _ => by rw [hleft]; rfl⟩
  | member _ _ _ _ ih => exact happ ih
  | call _ _ _ _ _ _ ih =>
      rw [List.append_assoc]
      exact happ ih
  | step _ _ _ ih => exact happ ih
  | leading _ hop => exact ⟨_, _, rfl, TokenKind.begins_of_isLeading hop, by omega⟩
  | binary l _ hhigh _ _ _ iha =>
      obtain ⟨w, us, rfl, hw, -⟩ := iha
      exact ⟨w, _, rfl, hw, by omega⟩
  | assign l _ _ _ iha =>
      obtain ⟨w, us, rfl, hw, -⟩ := iha
      exact ⟨w, _, rfl, hw, by omega⟩
  | loosen _ _ ih =>
      obtain ⟨w, us, rfl, hw, hleading⟩ := ih
      exact ⟨w, us, rfl, hw, fun h => hleading (by omega)⟩

end Phrase

end InoBlocks
