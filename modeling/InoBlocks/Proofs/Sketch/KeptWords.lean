import InoBlocks.Proofs.Sketch.Printing
import InoBlocks.Proofs.Token.Respacing
import Mathlib.Data.List.Basic

/-!
# What an expression keeps of its words

Reading an expression and writing it down again loses no word, adds none and moves none, but for
parentheses.  A phrase determines its words through its tree, parentheses aside: `Expr.texts` says
how they are spelled, and a word that the lexer cuts is known by its spelling.

All words but the last are firm, so what is written down is read by the words that were printed.
The last one may be a literal that is left open, and then it is the last one that is printed, too.
-/

namespace InoBlocks

namespace TokenKind

def isParen (kind : TokenKind) : Bool :=
  kind == leftParen || kind == rightParen

theorem isParen_of_namesValue {kind : TokenKind} (h : kind.namesValue = true) :
    kind.isParen = false := by
  cases kind <;> first | rfl | exact absurd h (by decide)

theorem isParen_of_isLeading {kind : TokenKind} (h : ExprGrammar.isLeading kind = true) :
    kind.isParen = false := by
  cases kind <;> first | rfl | exact absurd h (by decide)

theorem isParen_of_joins {kind : TokenKind} (hlow : 1 ≤ kind.joins) (hhigh : kind.joins ≤ 7) :
    kind.isParen = false := by
  cases kind <;> first | rfl | exact absurd hlow (by decide) | exact absurd hhigh (by decide)

theorem isLeading_of_isTrailing {kind : TokenKind} (h : ExprGrammar.isTrailing kind = true) :
    ExprGrammar.isLeading kind = true := by
  cases kind <;> first | rfl | exact absurd h (by decide)

end TokenKind

namespace Word

def kept (ws : List Word) : List Word :=
  ws.filter fun w => !w.kind.isParen

variable {w : Word}

theorem kept_nil : kept [] = [] := rfl

theorem kept_append (us vs : List Word) : kept (us ++ vs) = kept us ++ kept vs :=
  List.filter_append us vs

theorem kept_cons (h : w.kind.isParen = false) (ws : List Word) : kept (w :: ws) = w :: kept ws :=
  List.filter_cons_of_pos (by simp [h])

theorem kept_singleton (h : w.kind.isParen = false) : kept [w] = [w] :=
  kept_cons h []

theorem kept_paren (h : w.kind.isParen = true) (ws : List Word) : kept (w :: ws) = kept ws :=
  List.filter_cons_of_neg (by simp [h])

/-- Words that are cut as they are can be told by their texts. -/
theorem words_texts {ws : List Word} (h : ∀ w ∈ ws, w.Lexed) :
    (ws.map text).flatMap (fun s => words s.toList) = ws := by
  induction ws with
  | nil => rfl
  | cons w ws ih =>
      have hw : words w.text.toList = [w] := (h w List.mem_cons_self).standsAlone
      rw [List.map_cons, List.flatMap_cons, hw, ih fun v hv => h v (List.mem_cons_of_mem w hv)]
      rfl

end Word

open Word

/-! ## The words of a phrase -/

namespace Expr

mutual

/-- The texts of the words of an expression, in order, parentheses left out. -/
def texts : Expr → List String
  | .empty => []
  | .name _ id => [id]
  | .literal _ _ raw => [raw]
  | .pin _ id _ => [id]
  | .member _ object property => object.texts ++ [".", property]
  | .call _ callee arguments => callee.texts ++ (textsBehind arguments).tail
  | .binary _ operator left right | .assign _ operator left right =>
      left.texts ++ operator :: right.texts
  | .unary _ operator operand before =>
      if before then operator :: operand.texts else operand.texts ++ [operator]
  | .foreign _ _ _ value => value.texts

/-- The texts of the words of some expressions, each behind a comma. -/
def textsBehind : List Expr → List String
  | [] => []
  | e :: es => "," :: e.texts ++ textsBehind es

end

end Expr

namespace Phrase

theorem texts_listed {items : List (List Word × Expr)} {ws : List Word} (h : Listed items ws)
    (hlexed : ∀ w ∈ ws, w.Lexed) (hitems : ∀ a ∈ items, (kept a.1).map Word.text = a.2.texts) :
    (kept ws).map Word.text = (Expr.textsBehind (items.map Prod.snd)).tail := by
  induction h with
  | none => rfl
  | one a => simp [Expr.textsBehind, hitems a List.mem_cons_self]
  | @more a b rest comma ws hcomma hrest ih =>
      have htext : comma.text = "," := (hlexed comma (by simp)).text_eq (by rw [hcomma]; rfl)
      have hbehind := ih (fun w hw => hlexed w (by simp [hw])) fun c hc =>
        hitems c (List.mem_cons_of_mem a hc)
      rw [kept_append, kept_cons (by rw [hcomma]; rfl), List.map_append, List.map_cons, hbehind,
        htext, hitems a List.mem_cons_self]
      simp [Expr.textsBehind]

/-- The words of a phrase are spelled as its expression says. -/
theorem texts_eq {n : Nat} {ws : List Word} {e : Expr} (h : Phrase n ws e)
    (hlexed : ∀ w ∈ ws, w.Lexed) : (kept ws).map Word.text = e.texts := by
  have hparen : ∀ {w : Word}, w.kind = .leftParen ∨ w.kind = .rightParen →
      w.kind.isParen = true := by
    rintro w (h | h) <;> rw [h] <;> rfl
  induction h with
  | name | pin | number | string => rfl
  | constant l text hkind =>
      rw [kept_singleton (TokenKind.isParen_of_namesValue hkind)]
      rfl
  | group hleft hright _ ih =>
      rw [List.cons_append, kept_paren (hparen (Or.inl hleft)), kept_append,
        kept_paren (hparen (Or.inr hright)), kept_nil, List.append_nil]
      exact ih fun w hw => hlexed w (by simp [hw])
  | @member l dot property ws e hdot hproperty _ ih =>
      have htext : dot.text = "." := (hlexed dot (by simp)).text_eq (by rw [hdot]; rfl)
      rw [kept_append, kept_cons (by rw [hdot]; rfl), kept_singleton (by rw [hproperty]; rfl),
        List.map_append, ih fun w hw => hlexed w (by simp [hw]), Expr.texts, ← htext]
      rfl
  | call l hleft hright _ hlist _ ih ihs =>
      have hlisted := texts_listed hlist (fun w hw => hlexed w (by simp [hw])) fun a ha =>
        ihs a ha fun w hw => hlexed w (by simp [mem_of_listed hlist ha hw])
      rw [kept_append, kept_paren (hparen (Or.inr hright)), kept_append,
        kept_paren (hparen (Or.inl hleft)), List.map_append, List.map_append, hlisted,
        ih fun w hw => hlexed w (by simp [hw]), kept_nil, List.map_nil, List.append_nil]
      rfl
  | step l hop _ ih =>
      have hop' := TokenKind.isParen_of_isLeading (TokenKind.isLeading_of_isTrailing hop)
      rw [kept_append, kept_singleton hop', List.map_append, ih fun w hw => hlexed w (by simp [hw])]
      rfl
  | leading l hop _ ih =>
      rw [kept_cons (TokenKind.isParen_of_isLeading hop), List.map_cons,
        ih fun w hw => hlexed w (by simp [hw])]
      rfl
  | binary l hlow hhigh hop _ _ iha ihb =>
      have hop' := TokenKind.isParen_of_joins (hop ▸ Nat.le_of_succ_le hlow) (hop ▸ hhigh)
      rw [kept_append, kept_cons hop', List.map_append, List.map_cons,
        iha fun w hw => hlexed w (by simp [hw]), ihb fun w hw => hlexed w (by simp [hw])]
      rfl
  | assign l hop _ _ iha ihb =>
      have hjoins := TokenKind.joins_of_isAssignment hop
      have hop' := TokenKind.isParen_of_joins (Nat.le_of_eq hjoins.symm) (by rw [hjoins]; decide)
      rw [kept_append, kept_cons hop', List.map_append, List.map_cons,
        iha fun w hw => hlexed w (by simp [hw]), ihb fun w hw => hlexed w (by simp [hw])]
      rfl
  | loosen _ _ ih => exact ih hlexed

/-- Two phrases of one expression have the same words, parentheses aside. -/
theorem kept_eq {n m : Nat} {ws vs : List Word} {e : Expr} (h : Phrase n ws e) (h' : Phrase m vs e)
    (hws : ∀ w ∈ ws, w.Lexed) (hvs : ∀ w ∈ vs, w.Lexed) : kept ws = kept vs := by
  have hmem : ∀ {us : List Word} {w : Word}, w ∈ kept us → w ∈ us := fun hw =>
    (List.mem_filter.mp hw).1
  rw [← words_texts fun w hw => hws w (hmem hw), ← words_texts fun w hw => hvs w (hmem hw),
    h.texts_eq hws, h'.texts_eq hvs]

end Phrase

/-! ## A literal that is left open -/

namespace Word

theorem Lexed.readsBy {w : Word} (h : w.Lexed) (read : List Char → List Word) [Cutting read] :
    ReadsBy read w.text.toList [w] fun _ => true := by
  obtain ⟨kind, text⟩ := w
  obtain ⟨c, cs, rfl, hc, hkind, hscan⟩ := h
  intro rest hrest
  cases rest with
  | nil =>
      have hcut : read (c :: cs) = _ := Cutting.scan hc hscan hkind
      rw [List.append_nil, String.toList_ofList, hcut, List.take_length, List.drop_length]
      rfl
  | cons d ds => cases hrest d rfl

theorem Lexed.quote {w : Word} (h : w.Lexed) (hstring : w.kind = .string) :
    ∃ c cs, w.text.toList = c :: cs ∧ (c = '"' ∨ c = '\'') := by
  obtain ⟨c, cs, htext, -, hkind, hscan⟩ := h
  refine ⟨c, cs, by rw [htext, String.toList_ofList], ?_⟩
  rw [hstring] at hscan
  rcases Token.scan_cases hscan (by decide) with ⟨hc, -⟩ | ⟨-, hk, -⟩ | ⟨-, hk, -⟩ | ⟨-, -, hop⟩
  · exact hc
  · cases hk
  · exact absurd hk.symm (TokenKind.ofWord_ne _).1
  · cases Token.symbol?_of_scanOperator hop

end Word

namespace Expr

/-- The text of an expression is read as a phrase of it, if nothing comes behind it. -/
def PrintedLast (e : Expr) : Prop :=
  ∃ ws, Phrase e.binding ws e ∧ ReadsBy (wordsFrom 0) e.source.toList ws (fun _ => true) ∧
    ∃ c cs, e.source.toList = c :: cs ∧ c ≠ '='

/-- Two operands with an operator between them, the right one without parentheses. -/
theorem PrintedLast.infixed {kind : TokenKind} {op : String} {a b : Expr} {n m : Nat}
    (hop : kind.symbol? = some op) (ha : a.Printed) (hn : 1 ≤ n) (hn' : n ≤ 10)
    (hb : b.PrintedLast) (hm : 1 ≤ m) (hm' : m ≤ b.binding) :
    ∃ us vs, Phrase n us a ∧ Phrase m vs b ∧
      ReadsBy (wordsFrom 0) (guarded a.source a.binding n ++ " " ++ op ++ " " ++
        guarded b.source b.binding m).toList (us ++ symbol kind :: vs) (fun _ => true) ∧
      ∃ c cs, (guarded a.source a.binding n ++ " " ++ op ++ " " ++
        guarded b.source b.binding m).toList = c :: cs ∧ c ≠ '=' := by
  obtain ⟨us, hleft, hspelling⟩ := ha.guarded n hn hn'
  obtain ⟨vs, hright, hreads, -⟩ := hb
  obtain ⟨c, cs, hc, hne, -⟩ := hspelling.head
  have hguarded : guarded b.source b.binding m = b.source := if_neg (Nat.not_lt.mpr hm')
  rw [hguarded]
  refine ⟨us, vs, hleft, hright.loosenTo hm hm', Spelling.readsBy_infixed hop hspelling hreads,
    c, cs ++ (" " ++ op ++ " " ++ b.source).toList, ?_, hne⟩
  simp [hc]

theorem eq_of_append_singleton {us vs : List Word} {w v : Word} (h : us ++ [w] = vs ++ [v]) :
    us = vs ∧ w = v := by
  obtain ⟨hfront, hlast⟩ := List.append_inj' h rfl
  exact ⟨hfront, (List.cons.inj hlast).1⟩

/-- An operand that ends with an open literal stands in no parentheses, since these would have to
close behind it. -/
theorem printedLast_of_phrase {n : Nat} {ws : List Word} {e : Expr} (h : Phrase n ws e)
    {init : List Word} {w : Word} (hws : ws = init ++ [w]) (hstring : w.kind = .string)
    (hlexed : w.Lexed) (hfirm : ∀ u ∈ init, u.Firm) (hmember : ∀ p ∈ e.parts, ¬ p.isNumberMember) :
    n ≤ e.binding ∧ e.PrintedLast := by
  have hnot : ∀ (us : List Word) {init : List Word} {v : Word},
      us ++ [v] = init ++ [w] → v.kind ≠ .string → False := by
    intro us init v heq hne
    rw [(eq_of_append_singleton heq).2] at hne
    exact hne hstring
  have hbehind : ∀ (us : List Word) {n : Nat} {vs init : List Word} {b : Expr}, Phrase n vs b →
      us ++ vs = init ++ [w] → ∃ vs', vs = vs' ++ [w] ∧ init = us ++ vs' := by
    intro us n vs init b hb heq
    obtain ⟨v, vs', rfl, -⟩ := hb.exists_head
    obtain ⟨front, x, hx⟩ :=
      (List.eq_nil_or_concat' (v :: vs')).resolve_left (List.cons_ne_nil v vs')
    rw [hx, ← List.append_assoc] at heq
    obtain ⟨rfl, rfl⟩ := eq_of_append_singleton heq
    exact ⟨front, hx, rfl⟩
  induction h generalizing init with
  | name | pin | number => exact (hnot [] hws (by simp)).elim
  | constant l text hkind =>
      refine (hnot [] hws ?_).elim
      rintro rfl
      cases hkind
  | string l raw =>
      obtain ⟨rfl, rfl⟩ : [] = init ∧ _ = w := eq_of_append_singleton hws
      obtain ⟨c, cs, htext, hc⟩ := hlexed.quote rfl
      refine ⟨Nat.le_refl _, _, .string l raw, hlexed.readsBy (wordsFrom 0), c, cs, htext, ?_⟩
      rcases hc with rfl | rfl <;> decide
  | group _ hright => exact (hnot _ hws (by rw [hright]; decide)).elim
  | @member l dot property ws e hdot hproperty =>
      have hsplit : ws ++ [dot] ++ [property] = init ++ [w] := by simpa using hws
      exact (hnot _ hsplit (by rw [hproperty]; decide)).elim
  | call l _ hright => exact (hnot _ hws (by rw [hright]; decide)).elim
  | step l hop =>
      refine (hnot _ hws ?_).elim
      intro hkind
      rw [hkind] at hop
      cases hop
  | @leading l op ws e hop he ih =>
      obtain ⟨vs, rfl, rfl⟩ := hbehind [op] he hws
      obtain ⟨text, hsymbol⟩ := TokenKind.symbol?_of_isLeading hop
      have htext := (hfirm op (by simp)).lexed.text_eq hsymbol
      obtain ⟨hle, us, hphrase, hreads, hhead⟩ := ih rfl (fun u hu => hfirm u (by simp [hu]))
        fun p hp => hmember p (List.mem_cons_of_mem _ hp)
      have hguarded : guarded e.source e.binding Binding.leading = e.source :=
        if_neg (Nat.not_lt.mpr hle)
      rw [htext, PrintedLast, source, if_pos rfl, hguarded]
      obtain ⟨c, cs, hc, hne, -⟩ := Spelling.joinLeading_head hsymbol hop e.source
      exact ⟨Nat.le_refl 8, _, (hphrase.loosenTo (by decide) hle).leading_symbol l hop hsymbol,
        Spelling.readsBy_joinLeading hsymbol hop hhead hreads, c, cs, hc, hne⟩
  | @binary l n op us vs a b hlow hhigh hop ha hb iha ihb =>
      obtain ⟨vs', rfl, rfl⟩ := hbehind (us ++ [op]) hb (by simpa using hws)
      obtain ⟨text, hsymbol⟩ : ∃ text, op.kind.symbol? = some text :=
        TokenKind.symbol?_of_joins (by omega)
      have htext := (hfirm op (by simp)).lexed.text_eq hsymbol
      have hstrength := TokenKind.ofOperator_of_symbol? hsymbol (by omega) (by omega)
      have hleft := (proper_of_phrase ha fun u hu => hfirm u (by simp [hu])).printed fun p hp =>
        hmember p (List.mem_cons_of_mem _ (List.mem_append_left _ hp))
      obtain ⟨hle, hright⟩ := ihb rfl (fun u hu => hfirm u (by simp [hu])) fun p hp =>
        hmember p (List.mem_cons_of_mem _ (List.mem_append_right _ hp))
      obtain ⟨us', ws, hus, hws, hreads, hhead⟩ := hright.infixed (n := n) hsymbol hleft
        (by omega) (by omega) (by omega) hle
      rw [htext, PrintedLast, source, binding, hstrength, hop]
      subst hop
      exact ⟨Nat.le_refl _, _, hus.binary_symbol l hlow hhigh hsymbol hws, hreads, hhead⟩
  | @assign l op us vs a b hop ha hb iha ihb =>
      obtain ⟨vs', rfl, rfl⟩ := hbehind (us ++ [op]) hb (by simpa using hws)
      have hjoins := TokenKind.joins_of_isAssignment hop
      obtain ⟨text, hsymbol⟩ : ∃ text, op.kind.symbol? = some text :=
        TokenKind.symbol?_of_joins (by omega)
      have htext := (hfirm op (by simp)).lexed.text_eq hsymbol
      have hstrength := TokenKind.ofOperator_of_symbol? hsymbol (by omega) (by omega)
      have hleft := (proper_of_phrase ha fun u hu => hfirm u (by simp [hu])).printed fun p hp =>
        hmember p (List.mem_cons_of_mem _ (List.mem_append_left _ hp))
      obtain ⟨hle, hright⟩ := ihb rfl (fun u hu => hfirm u (by simp [hu])) fun p hp =>
        hmember p (List.mem_cons_of_mem _ (List.mem_append_right _ hp))
      obtain ⟨us', ws, hus, hws, hreads, hhead⟩ := hright.infixed (n := 2) hsymbol hleft
        (by decide) (by decide) (by decide) hle
      rw [htext, PrintedLast, source, binding, hstrength, hjoins]
      exact ⟨Nat.le_refl _, _, hus.assign_symbol l hop hsymbol hws, hreads, hhead⟩
  | loosen hn _ ih =>
      obtain ⟨hle, hprinted⟩ := ih hws hfirm hmember
      exact ⟨Nat.le_of_succ_le hle, hprinted⟩

/-- A phrase of words of which all but the last are firm is printed with the same words,
parentheses aside. -/
theorem kept_source {n : Nat} {init : List Word} {w : Word} {e : Expr}
    (h : Phrase n (init ++ [w]) e) (hfirm : ∀ u ∈ init, u.Firm) (hlexed : w.Lexed)
    (hmember : ∀ p ∈ e.parts, ¬ p.isNumberMember) :
    kept (wordsFrom 0 e.source.toList) = kept (init ++ [w]) := by
  obtain ⟨ws, hphrase, hreads⟩ : ∃ ws, Phrase e.binding ws e ∧
      ∃ runsOn, ReadsBy (wordsFrom 0) e.source.toList ws runsOn := by
    by_cases hw : w.Firm
    · have hall : ∀ u ∈ init ++ [w], u.Firm := by
        intro u hu
        rcases List.mem_append.mp hu with hu | hu
        · exact hfirm u hu
        · rwa [List.mem_singleton.mp hu]
      obtain ⟨ws, hphrase, hspelling⟩ := (proper_of_phrase h hall).printed hmember
      exact ⟨ws, hphrase, _, hspelling.readsBy (wordsFrom 0)⟩
    · have hstring : w.kind = .string := by
        by_contra hstring
        exact hw (hlexed.firm hstring)
      obtain ⟨-, ws, hphrase, hreads, -⟩ :=
        printedLast_of_phrase h rfl hstring hlexed hfirm hmember
      exact ⟨ws, hphrase, _, hreads⟩
  obtain ⟨runsOn, hreads⟩ := hreads
  have hall : ∀ u ∈ init ++ [w], u.Lexed := by
    intro u hu
    rcases List.mem_append.mp hu with hu | hu
    · exact (hfirm u hu).lexed
    · rwa [List.mem_singleton.mp hu]
  have hprinted : ∀ u ∈ ws, u.Lexed := by
    intro u hu
    have hcomment : u.kind ≠ .comment := by
      intro hkind
      have hin := hphrase.inPhrase u hu
      rw [hkind] at hin
      cases hin
    have hmem : u ∈ words e.source.toList := by
      refine List.mem_filter.mpr ⟨?_, by simpa [isSignificant] using hcomment⟩
      rwa [hreads.words_eq]
    exact lexed_of_mem hmem
  rw [hreads.words_eq]
  exact hphrase.kept_eq h hprinted hall

end Expr

namespace ExprGrammar

/-- What reading takes for an expression is printed again word by word, parentheses aside. -/
theorem expression_keepsWords {source file : String} {before ts rest : List Token}
    {levelsLeft depth : Nat} {e : Expr} (hts : before ++ ts = Token.significant source file)
    (hread : expression levelsLeft depth ts = .ok e rest)
    (hmember : ∀ p ∈ e.parts, ¬ p.isNumberMember) (file' : String) :
    ∃ run, ts = run ++ rest ∧
      kept ((Token.tokenize e.source file').map Token.word) =
        kept (run.map Token.word) ++ [endMark] := by
  obtain ⟨run, rfl, hphrase⟩ := expression_sound levelsLeft depth ts e rest hread
  refine ⟨run, rfl, ?_⟩
  rcases List.eq_nil_or_concat' run with rfl | ⟨init, last, rfl⟩
  · obtain ⟨w, us, hcons, -⟩ := hphrase.exists_head
    cases hcons
  have hin : ∀ t ∈ init ++ [last], t.kind.inPhrase = true := fun t ht =>
    hphrase.inPhrase t.word (List.mem_map_of_mem ht)
  have hne : ∀ t ∈ init ++ [last], ∀ kind : TokenKind, kind.inPhrase = false → t.kind ≠ kind := by
    rintro t ht kind hkind rfl
    exact Bool.false_ne_true (hkind.symm.trans (hin t ht))
  -- Whatever another token of the run follows is firm.
  have hfirm : ∀ u ∈ init.map Token.word, u.Firm := by
    intro u hu
    obtain ⟨t, ht, rfl⟩ := List.mem_map.mp hu
    have hsteady := Token.steady_significant source file
    have hsplit : before ++ (init ++ [last] ++ rest) = before ++ init ++ last :: rest := by simp
    rw [← hts, hsplit] at hsteady
    exact hsteady.firm List.mem_cons_self (hne last (by simp) _ rfl)
      (List.mem_append_right before ht) (hne t (by simp [ht]) _ rfl)
  have hlexed : last.word.Lexed := by
    have hlast : last ∈ Token.significant source file := by
      rw [← hts]
      simp
    have hword := List.mem_map_of_mem (f := Token.word) hlast
    rw [significant_word] at hword
    rcases List.mem_append.mp hword with hword | hword
    · exact lexed_of_mem hword
    · have hend := congrArg Word.kind (List.mem_singleton.mp hword)
      exact absurd hend (hne last (by simp) _ rfl)
  rw [List.map_append, List.map_singleton] at hphrase ⊢
  rw [Token.tokenize, tokensFrom_word, kept_append, Expr.kept_source hphrase hfirm hlexed hmember]
  rfl

/-- Signs, parentheses that are needed and some that are not, and a literal that is left open. -/
def tangledExpression : String :=
  "x += -(-(a)) * (f)(b, (1.5)).g++ + (c && d) - (\"//\") % !\"it's"

theorem expression_keepsWords_tangled :
    ∃ (e : Expr) (run rest : List Token),
      expression maxNesting 0 (Token.significant tangledExpression "") = .ok e rest ∧
      e.source = "x += - -a * f(b, 1.5).g++ + (c && d) - \"//\" % !\"it's" ∧
      Token.significant tangledExpression "" = run ++ rest ∧
      kept ((Token.tokenize e.source "").map Token.word) =
        kept (run.map Token.word) ++ [endMark] := by
  have heval : (match expression maxNesting 0 (Token.significant tangledExpression "") with
      | .ok e _ => some (e.source, e.parts.all fun p => !p.isNumberMember)
      | .error _ _ => none) =
        some ("x += - -a * f(b, 1.5).g++ + (c && d) - \"//\" % !\"it's", true) := by
    decide +kernel
  cases hread : expression maxNesting 0 (Token.significant tangledExpression "") with
  | error stop rest =>
      rw [hread] at heval
      cases heval
  | ok e rest =>
      rw [hread] at heval
      obtain ⟨hsource, hparts⟩ := Prod.mk.inj (Option.some.inj heval)
      have hmember : ∀ p ∈ e.parts, ¬ p.isNumberMember := fun p hp => by
        simpa using List.all_eq_true.mp hparts p hp
      have hts : [] ++ Token.significant tangledExpression "" =
          Token.significant tangledExpression "" := List.nil_append _
      obtain ⟨run, hrun, hkept⟩ := expression_keepsWords hts hread hmember ""
      exact ⟨e, run, rest, rfl, hsource, hrun, hkept⟩

end ExprGrammar

end InoBlocks
