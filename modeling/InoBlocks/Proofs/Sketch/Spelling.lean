import InoBlocks.Code.Value
import InoBlocks.Proofs.Sketch.Phrase
import InoBlocks.Proofs.Token.FirmText

/-!
# Spellings

How the texts of expressions are put together from words.  A spelling is read as its words
whatever comes behind it, unless that goes on with its last word.  It never begins with a
character that would make another operator of the one in front of it, and it has no blank at its
ends.
-/

namespace InoBlocks

namespace Word

def symbol (kind : TokenKind) : Word :=
  ⟨kind, kind.symbol?.getD ""⟩

@[simp] theorem symbol_kind (kind : TokenKind) : (symbol kind).kind = kind := rfl

theorem symbol_eq {kind : TokenKind} {text : String} (h : kind.symbol? = some text) :
    symbol kind = ⟨kind, text⟩ := by
  rw [symbol, h, Option.getD_some]

theorem readsBy_symbol (kind : TokenKind) {text : String} (h : kind.symbol? = some text)
    (read : List Char → List Word) [Cutting read] :
    ReadsBy read text.toList [symbol kind] kind.runsOn := by
  have hfirm := firm_symbol h
  rw [symbol_eq h]
  exact hfirm.readsBy read

theorem readsAs_symbol (kind : TokenKind) {text : String} (h : kind.symbol? = some text) :
    ReadsAs text.toList [symbol kind] kind.runsOn :=
  readsBy_symbol kind h words

/-- What goes on with the last word of an expression: the characters of names, and a point if
that word may be a number. -/
def tail (pointed : Bool) (d : Char) : Bool :=
  Text.isNameChar d || (pointed && d == '.')

theorem tail_false_le (pointed : Bool) (d : Char) (h : tail false d = true) :
    tail pointed d = true := by
  simp only [tail, Bool.or_eq_true, Bool.false_and] at *
  rcases h with h | h
  · exact Or.inl h
  · cases h

theorem tail_le_true (pointed : Bool) (d : Char) (h : tail pointed d = true) :
    tail true d = true := by
  simp only [tail, Bool.or_eq_true, Bool.and_eq_true, Bool.true_and] at *
  rcases h with h | ⟨-, h⟩
  · exact Or.inl h
  · exact Or.inr h

end Word

open Word

/-- A text that is read as some words wherever an expression may stand, with no comment among
them. -/
structure Spelling (text : String) (ws : List Word) (pointed : Bool) : Prop where
  readsBy (read : List Char → List Word) [Cutting read] :
    ReadsBy read text.toList ws (tail pointed)
  head : ∃ c cs, text.toList = c :: cs ∧ c ≠ '=' ∧ Text.isBlank c = false
  last : ∃ cs d, text.toList = cs ++ [d] ∧ Text.isBlank d = false

namespace Spelling

variable {text : String} {ws : List Word} {pointed : Bool}

theorem reads (h : Spelling text ws pointed) : ReadsAs text.toList ws (tail pointed) :=
  h.readsBy words

theorem pointed_true (h : Spelling text ws pointed) : Spelling text ws true :=
  ⟨fun read _ => (h.readsBy read).mono (tail_le_true pointed), h.head, h.last⟩

theorem ofFalse (h : Spelling text ws false) (pointed : Bool) : Spelling text ws pointed :=
  ⟨fun read _ => (h.readsBy read).mono (tail_false_le pointed), h.head, h.last⟩

theorem trimmed_eq (h : Spelling text ws pointed) : Text.trimmed text = text := by
  obtain ⟨c, cs, hc, -, hblank⟩ := h.head
  exact Text.trimmed_of_ends ⟨c, cs, hc, hblank⟩ h.last

theorem ne_empty (h : Spelling text ws pointed) : text ≠ "" := by
  rintro rfl
  obtain ⟨c, cs, hc, -⟩ := h.head
  cases hc

theorem runsOn_le_tail {kind : TokenKind} (hsymbol : kind.symbol? = none)
    (hphrase : kind.inPhrase = true) (d : Char) (hd : kind.runsOn d = true) :
    tail (kind == .number) d = true := by
  cases kind <;>
    first
    | exact absurd hphrase (by decide)
    | exact absurd hsymbol (by decide)
    | exact absurd hd Bool.false_ne_true
    | exact Bool.or_eq_true_iff.mpr (Or.inl hd)
    | skip
  -- A number goes on with digits, which are characters of names, and with a point.
  simp only [TokenKind.runsOn, Bool.or_eq_true, beq_iff_eq] at hd
  rcases hd with hd | rfl
  · exact Bool.or_eq_true_iff.mpr (Or.inl (Text.isNameChar_of_isDigit hd))
  · decide

theorem word {w : Word} (h : w.Firm) (hsymbol : w.kind.symbol? = none)
    (hphrase : w.kind.inPhrase = true) : Spelling w.text [w] (w.kind == .number) := by
  obtain ⟨hhead, hlast⟩ := h.ends hsymbol
  exact ⟨fun read _ => (h.readsBy read).mono (runsOn_le_tail hsymbol hphrase), hhead, hlast⟩

/-- The words of a text in parentheses, if it has to stand in them. -/
def guardedWords (ws : List Word) (binding demanded : Nat) : List Word :=
  if binding < demanded then symbol .leftParen :: ws ++ [symbol .rightParen] else ws

theorem parenthesized (h : Spelling text ws pointed) :
    Spelling ("(" ++ text ++ ")") (symbol .leftParen :: ws ++ [symbol .rightParen]) false := by
  constructor
  · intro read _
    have hleft := readsBy_symbol .leftParen rfl read
    have hright := readsBy_symbol .rightParen rfl read
    rw [String.toList_append, String.toList_append]
    have hopen := hleft.append (h.readsBy read) (fun _ _ _ _ => rfl)
    have hclose := hopen.append_cons (d := ')') hright (by cases pointed <;> decide)
    exact hclose.mono fun d hd => absurd hd Bool.false_ne_true
  · exact ⟨'(', (text ++ ")").toList, by simp, by decide⟩
  · exact ⟨("(" ++ text).toList, ')', by simp, by decide⟩

theorem guarded (h : Spelling text ws pointed) (binding demanded : Nat) :
    Spelling (Expr.guarded text binding demanded) (guardedWords ws binding demanded) pointed := by
  rw [Expr.guarded, guardedWords]
  split
  · exact h.parenthesized.ofFalse pointed
  · exact h

theorem tail_blank (pointed : Bool) : tail pointed ' ' = false := by
  cases pointed <;> decide

theorem runsOn_blank {kind : TokenKind} {op : String} (hop : kind.symbol? = some op) :
    kind.runsOn ' ' = false := by
  cases kind <;> first | rfl | cases hop

/-- The right operand may run on into what follows, if nothing may follow. -/
theorem readsBy_infixed {kind : TokenKind} {op left right : String} {us vs : List Word} {p : Bool}
    {runsOn : Char → Bool} (hop : kind.symbol? = some op) (hl : Spelling left us p)
    {read : List Char → List Word} [Cutting read] (hr : ReadsBy read right.toList vs runsOn) :
    ReadsBy read (left ++ " " ++ op ++ " " ++ right).toList (us ++ symbol kind :: vs) runsOn := by
  have hleft := (hl.readsBy read).blank (tail_blank p)
  have hmiddle := (readsBy_symbol _ hop read).blank (runsOn_blank hop)
  simpa using hleft.seq (hmiddle.seq hr)

theorem infixed {kind : TokenKind} {op left right : String} {us vs : List Word} {p q : Bool}
    (hop : kind.symbol? = some op) (hl : Spelling left us p) (hr : Spelling right vs q) :
    Spelling (left ++ " " ++ op ++ " " ++ right) (us ++ symbol kind :: vs) q := by
  constructor
  · exact fun read _ => readsBy_infixed hop hl (hr.readsBy read)
  · obtain ⟨c, cs, hc, hne⟩ := hl.head
    exact ⟨c, cs ++ (" " ++ op ++ " " ++ right).toList, by simp [hc], hne⟩
  · obtain ⟨cs, d, hd, hblank⟩ := hr.last
    exact ⟨(left ++ " " ++ op ++ " ").toList ++ cs, d, by simp [hd], hblank⟩

/-- What does not fuse with its operator does not run on from it either. -/
theorem readsBy_joinLeading {kind : TokenKind} {op : String} (hop : kind.symbol? = some op)
    (hkind : ExprGrammar.isLeading kind = true) {runsOn : Char → Bool}
    (hhead : ∃ c cs, text.toList = c :: cs ∧ c ≠ '=') {read : List Char → List Word} [Cutting read]
    (h : ReadsBy read text.toList ws runsOn) :
    ReadsBy read (joinLeading op text).toList (symbol kind :: ws) runsOn := by
  obtain ⟨c, cs, hc, hne⟩ := hhead
  have hsymbol := readsBy_symbol _ hop read
  rw [InoBlocks.joinLeading]
  split
  · simpa using (hsymbol.blank (runsOn_blank hop)).seq h
  · rename_i hfuses
    have hrunsOn : kind.runsOn c = false := by
      rw [hc] at hfuses
      cases kind <;>
        first
        | exact absurd hkind (by decide)
        | rfl
        | exact beq_eq_false_iff_ne.mpr hne
        | (cases hop
           simp only [fuses, TokenKind.runsOn] at hfuses ⊢
           grind)
    rw [String.toList_append]
    rw [hc] at h ⊢
    exact hsymbol.append_cons h hrunsOn

theorem joinLeading_head {kind : TokenKind} {op : String} (hop : kind.symbol? = some op)
    (hkind : ExprGrammar.isLeading kind = true) (text : String) :
    ∃ c cs, (InoBlocks.joinLeading op text).toList = c :: cs ∧ c ≠ '=' ∧
      Text.isBlank c = false := by
  have hhead : ∃ d ds, op.toList = d :: ds ∧ d ≠ '=' ∧ Text.isBlank d = false := by
    cases kind <;> first | exact absurd hkind (by decide) | skip
    all_goals
      cases hop
      exact ⟨_, _, rfl, by decide⟩
  obtain ⟨d, ds, hd, hdne⟩ := hhead
  rw [InoBlocks.joinLeading]
  split
  · exact ⟨d, ds ++ (" " ++ text).toList, by simp [hd], hdne⟩
  · exact ⟨d, ds ++ text.toList, by simp [hd], hdne⟩

theorem joinLeading {kind : TokenKind} {op : String} (hop : kind.symbol? = some op)
    (hkind : ExprGrammar.isLeading kind = true) (h : Spelling text ws pointed) :
    Spelling (joinLeading op text) (symbol kind :: ws) pointed := by
  constructor
  · obtain ⟨c, cs, hc, hne, -⟩ := h.head
    exact fun read _ => readsBy_joinLeading hop hkind ⟨c, cs, hc, hne⟩ (h.readsBy read)
  · exact joinLeading_head hop hkind text
  · obtain ⟨es, x, hx, hxblank⟩ := h.last
    rw [InoBlocks.joinLeading]
    split
    · exact ⟨(op ++ " ").toList ++ es, x, by simp [hx], hxblank⟩
    · exact ⟨op.toList ++ es, x, by simp [hx], hxblank⟩

theorem step {kind : TokenKind} {op : String} (hop : kind.symbol? = some op)
    (hkind : ExprGrammar.isTrailing kind = true) (h : Spelling text ws pointed) :
    Spelling (text ++ op) (ws ++ [symbol kind]) false := by
  have hrunsOn : kind.runsOn = fun _ => false := by
    cases kind <;> first | exact absurd hkind (by decide) | rfl
  have hhead : ∃ d ds, op.toList = d :: ds ∧ tail pointed d = false := by
    cases kind <;> first | exact absurd hkind (by decide) | skip
    all_goals
      cases hop
      exact ⟨_, _, rfl, by cases pointed <;> decide⟩
  have hlast : ∃ es x, op.toList = es ++ [x] ∧ Text.isBlank x = false := by
    cases kind <;> first | exact absurd hkind (by decide) | skip
    · cases hop
      exact ⟨['+'], '+', rfl, by decide⟩
    · cases hop
      exact ⟨['-'], '-', rfl, by decide⟩
  obtain ⟨d, ds, hd, htail⟩ := hhead
  constructor
  · intro read _
    have hsymbol := readsBy_symbol _ hop read
    rw [String.toList_append]
    rw [hd] at hsymbol ⊢
    rw [hrunsOn] at hsymbol
    exact ((h.readsBy read).append_cons hsymbol htail).mono fun d hd =>
      absurd hd Bool.false_ne_true
  · obtain ⟨c, cs, hc, hne⟩ := h.head
    exact ⟨c, cs ++ op.toList, by simp [hc], hne⟩
  · obtain ⟨es, x, hx, hxblank⟩ := hlast
    exact ⟨text.toList ++ es, x, by simp [hx], hxblank⟩

theorem member {property : String} (hproperty : Word.Firm ⟨.identifier, property⟩)
    (h : Spelling text ws false) :
    Spelling (text ++ "." ++ property) (ws ++ [symbol .dot, ⟨.identifier, property⟩]) false := by
  constructor
  · intro read _
    have hdot := readsBy_symbol .dot rfl read
    have hname := (word hproperty rfl rfl).readsBy read
    rw [String.toList_append, String.toList_append]
    have hpoint := (h.readsBy read).append_cons (d := '.') hdot (by decide)
    have hall := hpoint.seq hname
    rw [List.append_assoc ws] at hall
    exact hall
  · obtain ⟨c, cs, hc, hne⟩ := h.head
    exact ⟨c, cs ++ ("." ++ property).toList, by simp [hc], hne⟩
  · obtain ⟨cs, d, hd, hblank⟩ := (word hproperty rfl rfl).last
    dsimp only at hd
    exact ⟨(text ++ ".").toList ++ cs, d, by simp [hd], hblank⟩

/-- Texts with a comma and a blank between any two of them. -/
theorem listed {items : List (String × List Word)} (h : ∀ a ∈ items, Spelling a.1 a.2 true)
    (read : List Char → List Word) [Cutting read] :
    ReadsBy read (", ".intercalate (items.map Prod.fst)).toList
      ([symbol .comma].intercalate (items.map Prod.snd)) (tail true) := by
  have hcomma := (readsBy_symbol .comma rfl read).blank rfl
  rw [String.toList_intercalate]
  induction items with
  | nil => exact fun _ _ => rfl
  | cons a items ih =>
      have hfirst := h a List.mem_cons_self
      have hrest := ih fun b hb => h b (List.mem_cons_of_mem a hb)
      cases items with
      | nil => simpa using hfirst.readsBy read
      | cons b items =>
          simp only [List.map_cons, List.intercalate_cons_cons, List.append_assoc] at hrest ⊢
          exact (hfirst.readsBy read).append_cons (d := ',') (hcomma.seq hrest) (by decide)

theorem call {items : List (String × List Word)} (h : Spelling text ws pointed)
    (hitems : ∀ a ∈ items, Spelling a.1 a.2 true) :
    Spelling (text ++ "(" ++ ", ".intercalate (items.map Prod.fst) ++ ")")
      (ws ++ symbol .leftParen :: [symbol .comma].intercalate (items.map Prod.snd) ++
        [symbol .rightParen]) false := by
  constructor
  · intro read _
    have hleft := readsBy_symbol .leftParen rfl read
    have hright := readsBy_symbol .rightParen rfl read
    have hopen := (h.readsBy read).append_cons (d := '(') hleft (by cases pointed <;> decide)
    have hall := (hopen.seq (listed hitems read)).append_cons (d := ')') hright (by decide)
    have hfalse : ReadsBy read _ _ (tail false) :=
      hall.mono fun d hd => absurd hd Bool.false_ne_true
    simpa using hfalse
  · obtain ⟨c, cs, hc, hne⟩ := h.head
    exact ⟨c, cs ++ ("(" ++ ", ".intercalate (items.map Prod.fst) ++ ")").toList, by simp [hc], hne⟩
  · exact ⟨(text ++ "(" ++ ", ".intercalate (items.map Prod.fst)).toList, ')', by simp, by decide⟩

end Spelling

/-! ## The texts of headers -/

namespace Word

/-- A word with something in parentheses and a blank behind it. -/
theorem reads_header {kind : TokenKind} {word : String} (hword : Firm ⟨kind, word⟩)
    (hblank : kind.runsOn ' ' = false) {inside : List Char} {ws : List Word}
    (h : ReadsAs inside ws (tail true)) :
    ReadsAlone (word.toList ++ ' ' :: '(' :: (inside ++ [')', ' ']))
      (⟨kind, word⟩ :: symbol .leftParen :: ws ++ [symbol .rightParen]) := by
  have hleft : ReadsAlone ['('] [symbol .leftParen] := readsAs_symbol .leftParen rfl
  have hright : ReadsAlone ([')'] ++ [' ']) [symbol .rightParen] :=
    (readsAs_symbol .rightParen rfl).blank rfl
  have hfront := (hword.readsAs.blank hblank).seq hleft
  have hall := (hfront.seq h).append_cons (d := ')') hright (by decide)
  simpa using hall

/-- The header of a function without parameters, up to its brace. -/
theorem reads_functionHeader {name : String} (hname : Firm ⟨.identifier, name⟩) :
    ReadsAlone ("void ".toList ++ (name.toList ++ "() \x7b".toList))
      [⟨.voidType, "void"⟩, ⟨.identifier, name⟩, symbol .leftParen, symbol .rightParen,
        symbol .leftBrace] := by
  have hvoid : ReadsAlone ("void".toList ++ [' ']) [⟨.voidType, "void"⟩] :=
    (firm_ofWord (show TokenKind.ofWord "void" = .voidType by decide) (by decide)
      (by decide)).readsAs.blank (by decide)
  have hleft : ReadsAlone ['('] [symbol .leftParen] := readsAs_symbol .leftParen rfl
  have hright : ReadsAlone ([')'] ++ [' ']) [symbol .rightParen] :=
    (readsAs_symbol .rightParen rfl).blank rfl
  have hbrace : ReadsAlone ['{'] [symbol .leftBrace] := readsAs_symbol .leftBrace rfl
  have hparens := hname.readsAs.append_cons (hleft.seq (hright.seq hbrace))
    (show TokenKind.identifier.runsOn '(' = false by decide)
  have hfront : "void ".toList = "void".toList ++ [' '] := by decide
  have hback : "() \x7b".toList = ['('] ++ ([')'] ++ [' '] ++ ['{']) := by decide
  rw [hfront, hback]
  exact hvoid.seq hparens

end Word

/-! ## The phrases of spellings -/

namespace Phrase

variable {n : Nat} {ws us vs : List Word} {e a b : Expr} {kind : TokenKind} {op : String}

theorem group_symbol (h : Phrase 1 ws e) :
    Phrase 10 (symbol .leftParen :: ws ++ [symbol .rightParen]) e :=
  .group rfl rfl h

theorem call_symbol (l : Location) {arguments : List (List Word × Expr)} (h : Phrase 9 us e)
    (hlist : Listed arguments vs) (hitems : ∀ a ∈ arguments, Phrase 1 a.1 a.2) :
    Phrase 9 (us ++ symbol .leftParen :: vs ++ [symbol .rightParen])
      (.call l e (arguments.map Prod.snd)) :=
  .call l rfl rfl h hlist hitems

theorem guarded (h : Phrase n ws e) {demanded : Nat} (hlow : 1 ≤ demanded)
    (hhigh : demanded ≤ 10) : Phrase demanded (Spelling.guardedWords ws n demanded) e := by
  rw [Spelling.guardedWords]
  split
  · have hgroup := group_symbol (h.loosenTo (Nat.le_refl 1) h.one_le)
    exact hgroup.loosenTo hlow hhigh
  · exact h.loosenTo hlow (by omega)

theorem member_symbol (l : Location) (property : String) (h : Phrase 9 ws e) :
    Phrase 9 (ws ++ [symbol .dot, ⟨.identifier, property⟩]) (.member l e property) :=
  .member l rfl rfl h

theorem step_symbol (l : Location) (hkind : ExprGrammar.isTrailing kind = true)
    (hop : kind.symbol? = some op) (h : Phrase 9 ws e) :
    Phrase 9 (ws ++ [symbol kind]) (.unary l op e false) := by
  rw [symbol_eq hop]
  exact .step l hkind h

theorem leading_symbol (l : Location) (hkind : ExprGrammar.isLeading kind = true)
    (hop : kind.symbol? = some op) (h : Phrase 8 ws e) :
    Phrase 8 (symbol kind :: ws) (.unary l op e true) := by
  rw [symbol_eq hop]
  exact .leading l hkind h

theorem binary_symbol (l : Location) (hlow : 2 ≤ kind.joins) (hhigh : kind.joins ≤ 7)
    (hop : kind.symbol? = some op) (ha : Phrase kind.joins us a)
    (hb : Phrase (kind.joins + 1) vs b) :
    Phrase kind.joins (us ++ symbol kind :: vs) (.binary l op a b) := by
  rw [symbol_eq hop]
  exact .binary l hlow hhigh rfl ha hb

theorem assign_symbol (l : Location) (hkind : ExprGrammar.isAssignment kind = true)
    (hop : kind.symbol? = some op) (ha : Phrase 2 us a) (hb : Phrase 1 vs b) :
    Phrase 1 (us ++ symbol kind :: vs) (.assign l op a b) := by
  rw [symbol_eq hop]
  exact .assign l hkind ha hb

end Phrase

theorem listed_intercalate (items : List (List Word × Expr)) :
    Listed items ([symbol .comma].intercalate (items.map Prod.fst)) := by
  induction items with
  | nil => exact .none
  | cons a items ih =>
      cases items with
      | nil => simpa using .one a
      | cons b items =>
          simp only [List.map_cons, List.intercalate_cons_cons, List.append_assoc] at ih ⊢
          exact .more a b rfl ih

end InoBlocks
