import InoBlocks.Proofs.Sketch.StatementSteps

/-!
# Statements as words

Which words are a statement, if every body stands between braces: the grammar of statements
without its readers.  Reading such words gives the statement back, places aside, or reaches a
limit of nesting.
-/

namespace InoBlocks

def TokenKind.startsClause (kind : TokenKind) : Bool :=
  kind.begins || kind.beginsType || kind == .leftBrace || kind == .ifWord || kind == .forWord ||
    kind == .whileWord

namespace Grammar

open Word

/-- Words that declare a variable, with their semicolon. -/
inductive Declared : List Word → Node → Prop where
  | plain (l : Location) {ws : List Word} {type : String} (name : String) : TypeWords ws type →
      Declared (ws ++ [⟨.identifier, name⟩, symbol .semicolon]) (.declaration l type name .empty)
  | valued (l : Location) {ws vs : List Word} {type : String} {e : Expr} (name : String) :
      TypeWords ws type → Phrase 1 vs e →
      Declared (ws ++ ⟨.identifier, name⟩ :: symbol .assign :: vs ++ [symbol .semicolon])
        (.declaration l type name e)

/-- Words that are an expression, or no words. -/
inductive Spare : List Word → Expr → Prop where
  | none : Spare [] .empty
  | some {ws : List Word} {e : Expr} : Phrase 1 ws e → Spare ws e

/-- Words that are the first part of the header of a loop, with their semicolon. -/
inductive Opening : List Word → Node → Prop where
  | declared {ws : List Word} {n : Node} : Declared ws n → Opening ws n
  | bare {ws : List Word} {e : Expr} : Phrase 1 ws e →
      Opening (ws ++ [symbol .semicolon]) (.bare e)
  | none : Opening [symbol .semicolon] .empty

def bracedWords (items : List (List Word × Node)) : List Word :=
  symbol .leftBrace :: items.flatMap Prod.fst ++ [symbol .rightBrace]

/-- Words that are a statement. -/
inductive Clause : List Word → Node → Prop where
  | declared {ws : List Word} {n : Node} : Declared ws n → Clause ws n
  | effect (l : Location) {ws : List Word} {e : Expr} : Phrase 1 ws e →
      Clause (ws ++ [symbol .semicolon]) (.effect l e)
  | block (l : Location) (items : List (List Word × Node)) : (∀ a ∈ items, Clause a.1 a.2) →
      Clause (bracedWords items) (.block l (items.map Prod.snd))
  | branch (l l' : Location) {ws : List Word} {test : Expr} (items : List (List Word × Node)) :
      Phrase 1 ws test → (∀ a ∈ items, Clause a.1 a.2) →
      Clause (⟨.ifWord, "if"⟩ :: symbol .leftParen :: ws ++ symbol .rightParen :: bracedWords items)
        (.branch l test (.block l' (items.map Prod.snd)) .empty)
  | branchElse (l l' : Location) {ws vs : List Word} {test : Expr} {otherwise : Node}
      (items : List (List Word × Node)) : Phrase 1 ws test → (∀ a ∈ items, Clause a.1 a.2) →
      Clause vs otherwise →
      Clause (⟨.ifWord, "if"⟩ :: symbol .leftParen :: ws ++ symbol .rightParen ::
          bracedWords items ++ ⟨.elseWord, "else"⟩ :: vs)
        (.branch l test (.block l' (items.map Prod.snd)) otherwise)
  | whileLoop (l l' : Location) {ws : List Word} {test : Expr} (items : List (List Word × Node)) :
      Phrase 1 ws test → (∀ a ∈ items, Clause a.1 a.2) →
      Clause (⟨.whileWord, "while"⟩ :: symbol .leftParen :: ws ++ symbol .rightParen ::
          bracedWords items)
        (.whileLoop l test (.block l' (items.map Prod.snd)))
  | forLoop (l l' : Location) {us vs ws : List Word} {init : Node} {test update : Expr}
      (items : List (List Word × Node)) : Opening us init → Spare vs test → Spare ws update →
      (∀ a ∈ items, Clause a.1 a.2) →
      Clause (⟨.forWord, "for"⟩ :: symbol .leftParen :: us ++ vs ++ symbol .semicolon :: ws ++
          symbol .rightParen :: bracedWords items)
        (.forLoop l init test update (.block l' (items.map Prod.snd)))

theorem TypeWords.exists_head {ws : List Word} {type : String} (h : TypeWords ws type) :
    ∃ w us, ws = w :: us ∧ w.kind.beginsType = true := by
  cases h with
  | @one w hw => exact ⟨w, [], rfl, by simp [TokenKind.beginsType, hw]⟩
  | @unsigned u w hu hw => exact ⟨u, [w], rfl, by rw [hu]; rfl⟩

theorem Declared.exists_head {ws : List Word} {n : Node} (h : Declared ws n) :
    ∃ w us, ws = w :: us ∧ w.kind.beginsType = true := by
  cases h with
  | plain l name htype =>
      obtain ⟨w, us, rfl, hw⟩ := htype.exists_head
      exact ⟨w, _, rfl, hw⟩
  | valued l name htype _ =>
      obtain ⟨w, us, rfl, hw⟩ := htype.exists_head
      exact ⟨w, _, rfl, hw⟩

theorem Clause.exists_head {ws : List Word} {n : Node} (h : Clause ws n) :
    ∃ w us, ws = w :: us ∧ w.kind.startsClause = true := by
  cases h with
  | declared h =>
      obtain ⟨w, us, rfl, hw⟩ := h.exists_head
      exact ⟨w, us, rfl, by simp [TokenKind.startsClause, hw]⟩
  | effect l h =>
      obtain ⟨w, us, rfl, hw, -⟩ := h.exists_head
      exact ⟨w, _, rfl, by simp [TokenKind.startsClause, hw]⟩
  | block => exact ⟨_, _, rfl, rfl⟩
  | branch => exact ⟨_, _, rfl, rfl⟩
  | branchElse => exact ⟨_, _, rfl, rfl⟩
  | whileLoop => exact ⟨_, _, rfl, rfl⟩
  | forLoop => exact ⟨_, _, rfl, rfl⟩

end Grammar

end InoBlocks
