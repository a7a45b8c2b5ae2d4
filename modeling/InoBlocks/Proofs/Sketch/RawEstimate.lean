import InoBlocks.Proofs.Code.Gives
import InoBlocks.Proofs.Sketch.Layered
import InoBlocks.Proofs.Sketch.Onward
import InoBlocks.Proofs.Sketch.RawCall

/-!
# The strength of raw text is not guessed too high

A raw text that is read as one expression binds at least as tightly as is guessed from its
characters, so it is put in parentheses wherever its outermost operator would be torn apart.  For
what looks like a single call this asks that the scan for its parentheses passes over the literals
and the comments as the lexer does.
-/

namespace InoBlocks

open Word

/-! ## What the words of a text are, by the guess -/

theorem exists_gap {holds : List Char → Bool} {cs : List Char}
    (h : upToLineFeed holds cs = true) :
    ∃ front gap, cs = front ++ gap ∧ holds front = true ∧ gap.all Token.isLayout = true := by
  rw [upToLineFeed, Bool.or_eq_true, Bool.and_eq_true, beq_iff_eq] at h
  rcases h with h | ⟨hlast, h⟩
  · exact ⟨cs, [], (List.append_nil cs).symm, h, rfl⟩
  · obtain ⟨front, rfl⟩ := List.getLast?_eq_some_iff.mp hlast
    rw [List.dropLast_concat] at h
    exact ⟨front, ['\n'], rfl, h, rfl⟩

theorem words_gap {gap : List Char} (hgap : gap.all Token.isLayout = true) :
    words (gap ++ [';']) = [⟨.semicolon, ";"⟩] ∧ Apart isPlainChar (gap ++ [';']) := by
  refine ⟨by rw [words_layouts hgap]; rfl, ?_⟩
  cases gap with
  | nil => exact apart_cons (by decide) []
  | cons c gap =>
      rw [List.all_cons, Bool.and_eq_true] at hgap
      exact apart_cons (not_isPlainChar_of_isLayout hgap.1) _

theorem atom_words {cs : List Char} (h : upToLineFeed isAtomText cs = true) :
    ∃ ws, words (cs ++ [';']) = ws ++ [⟨.semicolon, ";"⟩] ∧
      (∀ w ∈ ws, w.kind.isPlain = true) ∧
      ((∀ w ∈ ws, w.kind ≠ .dot) ∨ ∀ w ∈ ws, w.kind ≠ .identifier) := by
  obtain ⟨front, gap, rfl, hfront, hgap⟩ := exists_gap h
  obtain ⟨hsemicolon, hapart⟩ := words_gap hgap
  obtain ⟨ws, hws, hplain⟩ := words_of_isAtomText hfront hapart
  exact ⟨ws, by rw [List.append_assoc, hws, hsemicolon], hplain⟩

theorem tight_of_isStepText {cs : List Char} (h : upToLineFeed isStepText cs = true) :
    ∃ ws, words (cs ++ [';']) = ws ++ [⟨.semicolon, ";"⟩] ∧ Tight ws := by
  obtain ⟨front, gap, rfl, hfront, hgap⟩ := exists_gap h
  obtain ⟨ws, op, hws, hne, hplain, hop⟩ := words_of_isStepText hfront (gap ++ [';'])
  refine ⟨ws ++ [op], ?_, .step hplain hne hop⟩
  rw [List.append_assoc, hws, (words_gap hgap).1, List.append_assoc]
  rfl

theorem tight_of_isCallText {cs : List Char} (h : isCallText cs = true)
    (halong : ScansAlong cs) :
    ∃ ws, words (cs ++ [';']) = ws ++ [⟨.semicolon, ";"⟩] ∧ Tight ws := by
  cases cs with
  | nil => cases h
  | cons c cs =>
      rw [isCallText] at h
      split at h
      · rename_i rest hdrop
        rw [Bool.and_eq_true, Bool.and_eq_true] at h
        obtain ⟨⟨hc, -⟩, hcloses⟩ := h
        obtain ⟨front, rfl, hfront⟩ : ∃ front, cs = front ++ '(' :: rest ∧
            ∀ d ∈ front, isMemberChar d = true := by
          refine ⟨cs.takeWhile isMemberChar, ?_, List.all_eq_true.mp List.all_takeWhile⟩
          rw [← hdrop, List.takeWhile_append_dropWhile]
        have hplain : ∀ d ∈ c :: front, isPlainChar d = true := by
          refine List.forall_mem_cons.mpr
            ⟨isPlainChar_of_isNameChar (Text.isNameChar_of_isNameStart hc), fun d hd => ?_⟩
          have hmember := hfront d hd
          rw [isMemberChar, Bool.or_eq_true, beq_iff_eq] at hmember
          rcases hmember with hword | rfl
          · exact isPlainChar_of_isWord hword
          · decide
        have hapart : Apart isPlainChar ('(' :: (rest ++ [';'])) := apart_cons (by decide) _
        have hsplit : c :: (front ++ '(' :: rest) ++ [';'] =
            c :: front ++ '(' :: (rest ++ [';']) := by simp
        have hfirm : Firm ⟨.leftParen, "("⟩ := firm_symbol rfl
        have hread : ∀ read [Cutting read], read ('(' :: (rest ++ [';'])) = _ :=
          fun read _ => hfirm.readsBy read (rest ++ [';']) fun _ _ => rfl
        have hinside : ScansAlong rest := by
          obtain ⟨us, hus, -⟩ := wordsFrom_plain hapart hplain (Nat.zero_le _)
          intro w hw
          refine halong w ?_
          rw [hsplit, hus, hread (wordsFrom 0)]
          exact List.mem_append_right us (List.mem_cons_of_mem _ hw)
        obtain ⟨us, hne, hus, hfrom⟩ :=
          words_named hapart hc fun d hd => hplain d (List.mem_cons_of_mem c hd)
        obtain ⟨vs, hvs, hwithin⟩ := staysWithin_of_closesLast (Nat.le_refl 1) hcloses hinside
        refine ⟨us ++ ⟨.leftParen, "("⟩ :: vs, ?_,
          .call (fun w hw => (hfrom w hw).plain) hne rfl hwithin⟩
        rw [hsplit, hus, hread words, hvs, List.append_assoc]
        rfl
      · cases h

/-- A text that is guessed to bind as tightly as a call holds together. -/
theorem tight_of_rawBinding {cs : List Char} (h : Binding.trailing ≤ rawBinding cs)
    (halong : isCallText cs = true → ScansAlong cs) :
    ∃ ws, words (cs ++ [';']) = ws ++ [⟨.semicolon, ";"⟩] ∧ Tight ws := by
  revert h
  fun_cases rawBinding cs with
  | case2 c cs hatom =>
      intro _
      obtain ⟨ws, hws, hplain, -⟩ := atom_words hatom
      exact ⟨ws, hws, .of_plain hplain⟩
  | case3 c cs hatom htrailing =>
      intro _
      rcases (Bool.or_eq_true _ _).mp htrailing with hstep | hcall
      · exact tight_of_isStepText hstep
      · exact tight_of_isCallText hcall (halong hcall)
  | _ => exact fun h => absurd h (by decide)

/-- An operator in front of an operand is cut by itself. -/
theorem read_leading {c : Char} {cs : List Char} (h : isLeading c cs = true) :
    ∃ op : Word, ExprGrammar.isLeading op.kind = true ∧
      ∀ (read : List Char → List Word) [Cutting read] (rest : List Char),
        read (c :: cs ++ rest) = op :: read (cs ++ rest) := by
  cases cs with
  | nil => cases h
  | cons next cs =>
      simp only [isLeading, Bool.and_eq_true, Bool.or_eq_true, beq_iff_eq, Bool.not_eq_true',
        Bool.or_eq_false_iff, beq_eq_false_iff_ne] at h
      obtain ⟨hc, ⟨hplus, hminus⟩, hequals⟩ := h
      rcases hc with (rfl | rfl) | rfl
      · have hfirm : Firm ⟨.logicalNot, "!"⟩ := firm_symbol rfl
        refine ⟨_, rfl, fun read _ rest => hfirm.readsBy read _ (apart_cons ?_ _)⟩
        simpa [TokenKind.runsOn] using hequals
      · have hfirm : Firm ⟨.minus, "-"⟩ := firm_symbol rfl
        refine ⟨_, rfl, fun read _ rest => hfirm.readsBy read _ (apart_cons ?_ _)⟩
        simpa [TokenKind.runsOn] using hminus
      · have hfirm : Firm ⟨.plus, "+"⟩ := firm_symbol rfl
        refine ⟨_, rfl, fun read _ rest => hfirm.readsBy read _ (apart_cons ?_ _)⟩
        simpa [TokenKind.runsOn] using And.intro hplus hequals

/-- The strength that is guessed of a text is not above that of the phrase that its words are. -/
theorem rawBinding_le_of_phrase {cs : List Char} {ws : List Word} {semicolon : Word} {n : Nat}
    {e : Expr} (hwords : words (cs ++ [';']) = ws ++ [semicolon]) (hphrase : Phrase n ws e)
    (halong : isCallText cs = true ∨ isCallText cs.tail = true → ScansAlong cs) :
    rawBinding cs ≤ e.binding := by
  have hsame : ∀ {us : List Word}, words (cs ++ [';']) = us ++ [⟨.semicolon, ";"⟩] → us = ws :=
    fun hus => (List.append_inj' (hus.symm.trans hwords) rfl).1
  have htight : Binding.trailing ≤ rawBinding cs → Binding.trailing ≤ e.binding := by
    intro h
    obtain ⟨us, hus, htight⟩ := tight_of_rawBinding h fun hcall => halong (Or.inl hcall)
    exact (hsame hus ▸ htight).trailing_le hphrase
  fun_cases rawBinding cs with
  | case1 => exact Nat.zero_le _
  | case2 c cs hatom =>
      obtain ⟨us, hus, hplain, hpoint⟩ := atom_words hatom
      obtain rfl := hsame hus
      exact hphrase.primary_of_plain hplain hpoint
  | case3 c cs hatom htrailing =>
      rw [rawBinding, if_neg hatom, if_pos htrailing] at htight
      exact htight (Nat.le_refl _)
  | case4 c cs hatom htrailing hleading =>
      rw [Bool.and_eq_true, decide_eq_true_eq] at hleading
      obtain ⟨op, hop, hread⟩ := read_leading hleading.1
      obtain ⟨us, hus, htight⟩ := tight_of_rawBinding hleading.2 fun hcall =>
        ((halong (Or.inr hcall)).of_word (hread (wordsFrom 0) [';'])).2
      obtain rfl : op :: us = ws := hsame (by rw [hread words, hus]; rfl)
      exact htight.leading_le hop hphrase
  | case5 => exact Nat.zero_le _

/-! ## Expressions that are statements -/

namespace Grammar

open Read ExprGrammar

/-- An expression by itself is read up to its semicolon. -/
theorem expression_of_statementOf {parts : Parts} {s s' : ReadState} {l : Location} {e : Expr}
    (h : statementOf parts s = .ok (.effect l e) s') :
    ∃ semicolon, parts.expression s.tokens = .ok e (semicolon :: s'.tokens) ∧
      semicolon.kind = .semicolon := by
  have hother : ∀ {x : Recover Node}, Builds x (fun node => ∀ l e, node ≠ .effect l e) →
      x s ≠ .ok (.effect l e) s' := fun hx hrun => hx.ok hrun l e rfl
  have hreading : ∀ {x : Read Node}, Builds x (fun node => ∀ l e, node ≠ .effect l e) →
      reading x s ≠ .ok (.effect l e) s' := fun hx => hother hx.reading
  obtain ⟨kind, s₁, hkind, hrun⟩ := bind_eq_ok h
  obtain rfl : s₁ = s := by
    obtain ⟨ts, hpeek, rfl⟩ := reading_eq_ok hkind
    cases hpeek
    rfl
  split at hrun
  · refine absurd hrun (hother ?_)
    exact Builds.after fun _ => Builds.after fun _ => Builds.after fun _ =>
      Builds.after fun _ => .pure (by simp)
  · refine absurd hrun (hother ?_)
    exact Builds.after fun _ => Builds.after fun _ => Builds.after fun _ => .pure (by simp)
  · refine absurd hrun (hother ?_)
    exact Builds.after fun _ => Builds.after fun _ => Builds.after fun _ => .pure (by simp)
  · refine absurd hrun (hreading ?_)
    exact Builds.after fun _ => Builds.after fun _ => Builds.after fun _ => .pure (by simp)
  · refine absurd hrun (hother ?_)
    refine Builds.after fun _ => Builds.after fun _ => Builds.after fun _ =>
      Builds.after fun _ => Builds.after fun _ => .ite ?_ ?_ <;>
      exact Builds.after fun _ => .pure (by simp)
  · split at hrun
    · refine absurd hrun (hreading ?_)
      exact Builds.after fun _ => Builds.after fun _ => Builds.after fun _ =>
        Builds.after fun _ => Builds.after fun _ => .pure (by simp)
    · obtain ⟨ts, heffect, rfl⟩ := reading_eq_ok hrun
      obtain ⟨t, us, hpeek, hvalue⟩ := bind_eq_ok heffect
      obtain ⟨e', vs, he, hbehind⟩ := bind_eq_ok hvalue
      obtain ⟨semicolon, rest, hexpect, hnode⟩ := bind_eq_ok hbehind
      obtain ⟨rfl, hsemicolon⟩ := expect_eq_ok (by decide) hexpect
      cases hpeek
      cases hnode
      exact ⟨semicolon, he, hsemicolon⟩

theorem expression_of_statement {limit levelsLeft depth : Nat} {s s' : ReadState} {l : Location}
    {e : Expr} (h : statement limit levelsLeft depth s = .ok (some (.effect l e)) s') :
    ∃ n semicolon, expression n (depth + 1) s.tokens = .ok e (semicolon :: s'.tokens) ∧
      semicolon.kind = .semicolon := by
  cases levelsLeft with
  | zero => cases recovering_eq_some h
  | succ n =>
      rw [statement] at h
      split at h
      · cases recovering_eq_some h
      · exact ⟨n, expression_of_statementOf (recovering_eq_some h)⟩

/-! ## The guess -/

theorem value_raw {raw s : Code.Shape} {name text : String}
    (htype : raw.type = "arduino_raw_expression")
    (htext : Text.trimmed (raw.field "CODE") = text) (hne : text ≠ "")
    (hchain : s.chain name = [raw.toPart]) (default : String) (demanded : Nat)
    (c : Code.Context) :
    s.value name default demanded c =
      .ok (Expr.guarded text (rawBinding text.toList) demanded, c) := by
  have htarget : s.target name = pure (some raw.toPart) := by rw [Code.Shape.target, hchain]
  have hoperand : raw.operand = pure ⟨text, rawBinding text.toList⟩ := by
    have htemplate : raw.operand = Code.Value.raw raw :=
      Code.Shape.operand_eq (by rw [htype]; decide) (by rw [htype]; rfl)
    rw [htemplate, Code.Value.raw, htext]
    simp only [beq_eq_false_iff_ne.mpr hne, Bool.false_eq_true, ↓reduceIte]
  rw [Code.Shape.value, htarget, pure_bind]
  simp only [Code.Shape.toPart, hoperand, pure_bind]
  rfl

/-- What is guessed of a raw text that is one expression is not above its strength; and where more
is demanded than that strength, a raw block with the text comes out in parentheses. -/
theorem rawBinding_le_binding {text : String} {run rest : List Token}
    {limit levelsLeft depth recoveries : Nat} {findings : Findings} {l : Location} {e : Expr}
    (hrun : run.map Token.word = words (text ++ ";").toList)
    (hread : statement limit levelsLeft depth ⟨run ++ rest, recoveries, findings⟩ =
      .ok (some (.effect l e)) ⟨rest, recoveries, findings⟩)
    (halong : isCallText text.toList = true ∨ isCallText text.toList.tail = true →
      ScansAlong text.toList) :
    (∃ n, rawBinding? text = some n ∧ n ≤ e.binding) ∧
      ∀ (raw s : Code.Shape) (name default : String) (demanded : Nat) (c : Code.Context),
        raw.type = "arduino_raw_expression" → Text.trimmed (raw.field "CODE") = text →
        s.chain name = [raw.toPart] → e.binding < demanded →
        s.value name default demanded c = .ok ("(" ++ text ++ ")", c) := by
  obtain ⟨n, semicolon, hexpression, -⟩ := expression_of_statement hread
  obtain ⟨us, hsplit, hphrase⟩ := expression_sound n (depth + 1) _ _ _ hexpression
  obtain rfl : run = us ++ [semicolon] := by
    refine List.append_cancel_right (hsplit.trans ?_)
    rw [List.append_assoc, List.singleton_append]
  rw [List.map_append, List.map_singleton, String.toList_append] at hrun
  have hle : rawBinding text.toList ≤ e.binding :=
    rawBinding_le_of_phrase hrun.symm hphrase halong
  have hne : text ≠ "" := by
    rintro rfl
    obtain ⟨w, ws, hws, -⟩ := hphrase.exists_head
    have hone : words ("".toList ++ ";".toList) = [⟨.semicolon, ";"⟩] := by decide
    have hlength := congrArg List.length (hrun.trans hone)
    simp [hws] at hlength
  refine ⟨⟨_, by rw [rawBinding?, if_neg (by simpa using hne)], hle⟩, ?_⟩
  intro raw s name default demanded c htype htext hchain hlt
  rw [value_raw htype htext hne hchain, Expr.guarded, if_pos (Nat.lt_of_le_of_lt hle hlt)]

/-- The strength of a text that is read, with a semicolon behind it, as one expression up to its
end, without a finding. -/
def strength? (text : String) : Option Nat :=
  let tokens := Token.significant (text ++ ";") ""
  match statement defaultRecoveryLimit maxNesting 0 ⟨tokens, 0, .empty "parser"⟩ with
  | .ok (some (.effect _ e)) s =>
      if s.tokens = tokens.drop (tokens.length - 1) ∧ s.recoveries = 0 ∧
        s.findings = .empty "parser" then some e.binding else none
  | _ => none

theorem exists_run_of_strength? {text : String} {n : Nat} (h : strength? text = some n) :
    ∃ (run rest : List Token) (l : Location) (e : Expr),
      run.map Token.word = words (text ++ ";").toList ∧
      statement defaultRecoveryLimit maxNesting 0 ⟨run ++ rest, 0, .empty "parser"⟩ =
        .ok (some (.effect l e)) ⟨rest, 0, .empty "parser"⟩ ∧ e.binding = n := by
  have hwords := significant_word (text ++ ";") ""
  rw [strength?] at h
  split at h
  · rename_i l e s hread
    split at h
    · rename_i hstate
      obtain ⟨tokens, recoveries, findings⟩ := s
      obtain ⟨rfl, rfl, rfl⟩ := hstate
      generalize Token.significant (text ++ ";") "" = tokens at hwords hread
      have hjoin : tokens.dropLast ++ tokens.drop (tokens.length - 1) = tokens := by
        rw [List.dropLast_eq_take, List.take_append_drop]
      refine ⟨tokens.dropLast, tokens.drop (tokens.length - 1), l, e, ?_, ?_, Option.some.inj h⟩
      · rw [List.map_dropLast, hwords, List.dropLast_concat]
      · rw [hjoin, hread]
    · cases h
  · cases h

def rawShape (text : String) : Code.Shape :=
  ⟨"arduino_raw_expression", [("CODE", .text text)], []⟩

def productShape (text : String) : Code.Shape :=
  ⟨"math_arithmetic", [("OP", .text "MULTIPLY")], [("A", [(rawShape text).toPart])]⟩

/-- A call behind an operator, with a comment, an escaped quote and a parenthesis in quotes. -/
def quotedCall : String := "-f(a /* one */, \"\\\")\", (b))"

theorem rawBinding_le_binding_call :
    (∃ (run rest : List Token) (l : Location) (e : Expr),
      run.map Token.word = words (quotedCall ++ ";").toList ∧
      statement defaultRecoveryLimit maxNesting 0 ⟨run ++ rest, 0, .empty "parser"⟩ =
        .ok (some (.effect l e)) ⟨rest, 0, .empty "parser"⟩ ∧
      isCallText quotedCall.toList.tail = true ∧ ScansAlong quotedCall.toList ∧
      e.binding = Binding.leading ∧
      ∃ n, rawBinding? quotedCall = some n ∧ n ≤ e.binding) ∧
    ∀ c, (productShape "a + f(b)").value "A" "0" (Binding.ofOperator "*") c =
      .ok ("(a + f(b))", c) := by
  have hcall : isCallText quotedCall.toList.tail = true ∧ ScansAlong quotedCall.toList ∧
      strength? quotedCall = some Binding.leading := by
    decide +kernel
  have hsum : ScansAlong "a + f(b)".toList ∧ strength? "a + f(b)" = some 6 := by
    decide +kernel
  constructor
  · obtain ⟨run, rest, l, e, hrun, hread, hbinding⟩ := exists_run_of_strength? hcall.2.2
    have hle := (rawBinding_le_binding hrun hread fun _ => hcall.2.1).1
    exact ⟨run, rest, l, e, hrun, hread, hcall.1, hcall.2.1, hbinding, hle⟩
  · obtain ⟨run, rest, l, e, hrun, hread, hbinding⟩ := exists_run_of_strength? hsum.2
    have hlt : e.binding < Binding.ofOperator "*" := by
      rw [hbinding]
      decide
    exact fun c => (rawBinding_le_binding hrun hread fun _ => hsum.1).2
      (rawShape "a + f(b)") (productShape "a + f(b)") "A" "0" _ c rfl (by decide) rfl hlt

/-- The text is an expression that the guess takes to bind tighter than it does, and tighter than
`*`: it is multiplied without parentheses. -/
def Overrated (text : String) : Prop :=
  ∃ (run rest : List Token) (l : Location) (e : Expr) (n : Nat),
    run.map Token.word = words (text ++ ";").toList ∧
    statement defaultRecoveryLimit maxNesting 0 ⟨run ++ rest, 0, .empty "parser"⟩ =
      .ok (some (.effect l e)) ⟨rest, 0, .empty "parser"⟩ ∧
    rawBinding? text = some n ∧ e.binding < n ∧ e.binding < Binding.ofOperator "*" ∧
    ∀ c, (productShape text).value "A" "0" (Binding.ofOperator "*") c = .ok (text, c)

theorem overrated_of_strength? {text : String} (hstrength : strength? text = some 6)
    (hguess : rawBinding text.toList = 9) (htrimmed : Text.trimmed text = text)
    (hne : text ≠ "") : Overrated text := by
  obtain ⟨run, rest, l, e, hrun, hread, hbinding⟩ := exists_run_of_strength? hstrength
  have hproduct : Binding.ofOperator "*" = 7 := by decide
  refine ⟨run, rest, l, e, 9, hrun, hread, ?_, by omega, by omega, fun c => ?_⟩
  · rw [rawBinding?, if_neg (by simpa using hne), hguess]
  · have hraw : Text.trimmed ((rawShape text).field "CODE") = text := htrimmed
    have hchain : (productShape text).chain "A" = [(rawShape text).toPart] := rfl
    rw [value_raw rfl hraw hne hchain, hguess, hproduct]
    rfl

/-- Sums of two calls that are taken for one: with an escaped backslash in front of a closing
quote, and with a parenthesis in each of two comments. -/
theorem rawBinding_exceeds :
    Overrated "f(\"\\\\\") + g(\"\\\"\")" ∧ Overrated "f(a /*(*/) + (b /*)*/)" := by
  constructor
  · exact overrated_of_strength? (by decide +kernel) (by decide +kernel) (by decide +kernel)
      (by decide)
  · exact overrated_of_strength? (by decide +kernel) (by decide +kernel) (by decide +kernel)
      (by decide)

end Grammar

end InoBlocks
