import InoBlocks.Proofs.Sketch.Phrase
import InoBlocks.Proofs.Sketch.Steps
import Mathlib.Tactic.IntervalCases

/-!
# Phrases are read

In front of a token that does not go on with it, a phrase is read as its expression, or reading
stops inside the phrase because a limit of nesting is reached.  Nothing else can happen.
-/

namespace InoBlocks

namespace Expr

theorem forgetList_eq_map (es : List Expr) : forgetList es = es.map forget := by
  induction es with
  | nil => rfl
  | cons e es ih => rw [forgetList, ih, List.map_cons]

end Expr

/-- Whether a fault is that a limit of nesting is reached. -/
def Fault.IsNesting (fault : Fault) : Prop :=
  ∃ limit, fault.cause = .nestedTooDeep limit

namespace ExprGrammar

open Read

/-- Reading stopped inside some tokens, for a limit of nesting is reached; the tokens behind them
are all left. -/
def Deep {α : Type} (us rest : List Token) (r : EStateM.Result Stop (List Token) α) : Prop :=
  ∃ fault vs, fault.IsNesting ∧ vs <:+ us ∧ r = .error (.misread fault) (vs ++ rest)

namespace Deep

variable {α β : Type} {us rest : List Token}

theorem behind (ws : List Token) {r : EStateM.Result Stop (List Token) α} (h : Deep us rest r) :
    Deep (ws ++ us) rest r := by
  obtain ⟨fault, vs, hfault, hvs, hr⟩ := h
  exact ⟨fault, vs, hfault, hvs.trans (List.suffix_append ws us), hr⟩

theorem before (ws : List Token) {r : EStateM.Result Stop (List Token) α}
    (h : Deep us (ws ++ rest) r) : Deep (us ++ ws) rest r := by
  obtain ⟨fault, vs, hfault, ⟨hs, hvs⟩, hr⟩ := h
  exact ⟨fault, vs ++ ws, hfault, ⟨hs, by rw [← hvs, List.append_assoc]⟩,
    by rw [hr, List.append_assoc]⟩

theorem bind {x : Read α} {f : α → Read β} {ts : List Token} (h : Deep us rest (x ts)) :
    Deep us rest ((x >>= f) ts) := by
  obtain ⟨fault, vs, hfault, hvs, hr⟩ := h
  exact ⟨fault, vs, hfault, hvs, bind_error hr⟩

theorem tooDeep (limit : Nat) (us rest : List Token) :
    Deep us rest (ExprGrammar.tooDeep (α := α) limit (us ++ rest)) := by
  have hstop : ∀ ts, ExprGrammar.tooDeep (α := α) limit ts = .error
      (.misread { cause := .nestedTooDeep limit, location := some (ts.headD default).location })
      ts := fun _ => rfl
  exact ⟨_, us, ⟨limit, rfl⟩, List.suffix_refl us, hstop (us ++ rest)⟩

end Deep

/-- A step reads tokens as an expression, places aside, or stops inside them for a limit of
nesting. -/
def Reads (x : Read Expr) (us rest : List Token) (e : Expr) : Prop :=
  Deep us rest (x (us ++ rest)) ∨ ∃ e', e'.forget = e.forget ∧ x (us ++ rest) = .ok e' rest

/-! ## The reader of a strength, and how it goes on -/

def reader (k : Nat) : Nat → Nat → Read Expr
  | 1, depth => assignment (inner? k) depth
  | 9, depth => trailing (inner? k) depth
  | 10, depth => primary (inner? k) depth
  | n, depth => chains (leading (inner? k)) (levels.drop (n - 2)) depth

/-- Going down a level reads what is read there, or reaches a limit. -/
theorem descend_cases {α : Type} (k depth : Nat) (body : Inner → Nat → Read α)
    (us rest : List Token) :
    Deep us rest (descend (inner? k) depth body (us ++ rest)) ∨
    ∃ k', k = k' + 1 ∧ descend (inner? k) depth body =
      body ⟨reader k' 1, reader k' 8⟩ (depth + 1) := by
  cases k with
  | zero => exact Or.inl (Deep.tooDeep maxNesting us rest)
  | succ k =>
      by_cases hdepth : maxTreeDepth ≤ depth
      · left
        rw [inner?, descend, if_pos hdepth]
        exact Deep.tooDeep maxTreeDepth us rest
      · right
        exact ⟨k, rfl, by rw [inner?, descend, if_neg hdepth]; rfl⟩

/-- How the reader of a strength goes on once it has read a phrase. -/
def goOn (k n fuel depth : Nat) (e : Expr) : Read Expr :=
  if n = 9 then trailers (inner? k) depth fuel e
  else if 2 ≤ n ∧ n ≤ 7 then chainRest (reader k (n + 1)) (fun kind => kind.joins == n) fuel depth e
  else pure e

theorem reader_chain (k : Nat) {n : Nat} (hlow : 2 ≤ n) (hhigh : n ≤ 7) (depth : Nat) :
    reader k n depth =
      reader k (n + 1) depth >>= fun e => remaining >>= fun fuel => goOn k n fuel depth e := by
  have hops : ∀ m, m ≤ 5 →
      levels.getD m [] :: levels.drop (m + 1) = levels.drop m ∧
      (levels.getD m []).contains = fun kind => kind.joins == m + 2 := by
    intro m hm
    interval_cases m <;> refine ⟨rfl, funext fun kind => ?_⟩ <;> cases kind <;> rfl
  obtain ⟨m, rfl⟩ := Nat.exists_eq_add_of_le' hlow
  obtain ⟨hdrop, hcontains⟩ := hops m (by omega)
  have hread : reader k (m + 2) depth = chains (leading (inner? k)) (levels.drop m) depth := by
    unfold reader
    split <;> first | omega | rfl
  have hnext : reader k (m + 2 + 1) = chains (leading (inner? k)) (levels.drop (m + 1)) := by
    funext d
    unfold reader
    split <;> first | omega | rfl
  rw [hread, ← hdrop, chains, chain, hcontains, ← hnext]
  have hgo : ∀ fuel e, goOn k (m + 2) fuel depth e =
      chainRest (reader k (m + 2 + 1)) (fun kind => kind.joins == m + 2) fuel depth e := by
    intro fuel e
    rw [goOn, if_neg (by omega), if_pos (by omega)]
  simp only [hgo]

theorem reader_assignment (k depth : Nat) :
    reader k 1 depth = (do
      let e ← reader k 2 depth
      match ← accept isAssignment with
      | none => return e
      | some t =>
          let value ← descend (inner? k) depth fun i d => i.expression d
          return .assign e.location t.text e value) := rfl

theorem reader_leading (k depth : Nat) : reader k 8 depth = leading (inner? k) depth := rfl

theorem reader_trailing (k depth : Nat) :
    reader k 9 depth =
      reader k 10 depth >>= fun e => remaining >>= fun fuel => goOn k 9 fuel depth e := rfl

theorem goOn_trailing (k fuel depth : Nat) (e : Expr) :
    goOn k 9 fuel depth e = trailers (inner? k) depth fuel e := rfl

theorem goOn_chain (k : Nat) {n : Nat} (hlow : 2 ≤ n) (hhigh : n ≤ 7) (fuel depth : Nat)
    (e : Expr) : goOn k n fuel depth e =
      chainRest (reader k (n + 1)) (fun kind => kind.joins == n) fuel depth e := by
  rw [goOn, if_neg (by omega), if_pos ⟨hlow, hhigh⟩]

/-- A reader stops in front of a token that does not join at its strength. -/
theorem goOn_stop (k : Nat) {n : Nat} (fuel depth : Nat) (e : Expr) {rest : List Token}
    (hrest : (kindAt 0 rest).joins ≠ n) : goOn k n fuel depth e rest = .ok e rest := by
  unfold goOn
  split
  · rename_i hn
    cases fuel with
    | zero => rfl
    | succ fuel =>
        have hkind : ∀ kind : TokenKind, kind.joins = 9 → (kindAt 0 rest == kind) = false := by
          intro kind hjoins
          rw [beq_eq_false_iff_ne]
          intro heq
          exact hrest (by rw [heq, hjoins, hn])
        rw [trailers, bind_ok (peekKind_apply 0 rest), if_neg (by simp [hkind .leftParen rfl]),
          if_neg (by simp [hkind .dot rfl]),
          if_neg (by simp [isTrailing, hkind .increment rfl, hkind .decrement rfl])]
        rfl
  · split
    · cases fuel with
      | zero => rfl
      | succ fuel =>
          rw [chainRest, bind_ok (accept_none (by simpa using hrest))]
          rfl
    · rfl

/-- A phrase of some strength may stand in front of a token. -/
def Stops (n : Nat) (rest : List Token) : Prop :=
  (kindAt 0 rest).joins < n ∨ ((kindAt 0 rest).joins = n ∧ n ≠ 1)

/-- The reader of a strength has read some tokens as an expression and goes on from there, or
has stopped inside them for a limit of nesting. -/
def Begins (k n depth : Nat) (us rest : List Token) (e : Expr) : Prop :=
  Deep us rest (reader k n depth (us ++ rest)) ∨
  ∃ e' fuel d, e'.forget = e.forget ∧ rest.length ≤ fuel ∧
    reader k n depth (us ++ rest) = goOn k n fuel d e' rest

theorem Begins.reads {k n depth : Nat} {us rest : List Token} {e : Expr}
    (h : Begins k n depth us rest e) (hrest : (kindAt 0 rest).joins ≠ n) :
    Reads (reader k n depth) us rest e := by
  rcases h with h | ⟨e', fuel, d, hforget, -, h⟩
  · exact Or.inl h
  · exact Or.inr ⟨e', hforget, by rw [h, goOn_stop k fuel d e' hrest]⟩

theorem Reads.begins {k n depth : Nat} {us rest : List Token} {e : Expr}
    (h : Reads (reader k n depth) us rest e) (hn : n = 1 ∨ n = 8 ∨ n = 10) :
    Begins k n depth us rest e := by
  rcases h with h | ⟨e', hforget, h⟩
  · exact Or.inl h
  · refine Or.inr ⟨e', rest.length, depth, hforget, Nat.le_refl _, ?_⟩
    rw [h, goOn, if_neg (by omega), if_neg (by omega)]
    rfl

/-! ## Splitting tokens by their words -/

theorem map_word_cons {us : List Token} {w : Word} {ws : List Word}
    (h : us.map Token.word = w :: ws) :
    ∃ t vs, us = t :: vs ∧ t.kind = w.kind ∧ t.text = w.text ∧ vs.map Token.word = ws := by
  obtain ⟨t, vs, hus, hw, hvs⟩ := List.map_eq_cons_iff.mp h
  exact ⟨t, vs, hus, by rw [← hw, Token.word_kind], by rw [← hw, Token.word_text], hvs⟩

theorem map_word_append_cons {us : List Token} {w : Word} {ws vs : List Word}
    (h : us.map Token.word = ws ++ w :: vs) :
    ∃ us₁ t us₂, us = us₁ ++ t :: us₂ ∧ us₁.map Token.word = ws ∧ t.kind = w.kind ∧
      t.text = w.text ∧ us₂.map Token.word = vs := by
  obtain ⟨us₁, us', hus, hws, hrest⟩ := List.map_eq_append_iff.mp h
  obtain ⟨t, us₂, rfl, hkind, htext, hvs⟩ := map_word_cons hrest
  exact ⟨us₁, t, us₂, hus, hws, hkind, htext, hvs⟩

/-! ## Primaries -/

section Primary

variable {inner : Option Inner} {depth : Nat} {t : Token} {rest : List Token}

theorem primary_identifier (h : t.kind = .identifier) :
    primary inner depth (t :: rest) = .ok (nameOrPin t) rest := by
  rw [primary, bind_ok (peek_cons t rest)]
  simp only [h]
  rw [bind_ok (advance_cons (by rw [h]; decide))]
  rfl

theorem primary_number (h : t.kind = .number) {value : Binary64}
    (hvalue : Number.double? t.text = some value) :
    primary inner depth (t :: rest) = .ok (.literal t.location (.number value) t.text) rest := by
  rw [primary, bind_ok (peek_cons t rest)]
  simp only [h]
  rw [bind_ok (advance_cons (by rw [h]; decide)), number, hvalue]
  rfl

theorem primary_string (h : t.kind = .string) :
    primary inner depth (t :: rest) =
      .ok (.literal t.location (.text (unquote t.text)) t.text) rest := by
  rw [primary, bind_ok (peek_cons t rest)]
  simp only [h]
  rw [bind_ok (advance_cons (by rw [h]; decide))]
  rfl

theorem primary_constant (h : t.kind.namesValue = true) :
    primary inner depth (t :: rest) = .ok (.literal t.location (.text t.text) t.text) rest := by
  have hend : t.kind ≠ .endOfInput := by
    intro hkind
    rw [hkind] at h
    exact absurd h (by decide)
  rw [primary, bind_ok (peek_cons t rest)]
  cases hkind : t.kind <;>
    first
    | rw [hkind] at h
      exact absurd h (by decide)
    | exact bind_ok (advance_cons hend)

theorem primary_group (inner : Option Inner) (depth : Nat) (rest : List Token)
    (h : t.kind = .leftParen) :
    primary inner depth (t :: rest) =
      (descend inner depth (fun i d => i.expression d) >>= fun e =>
        expect .rightParen "')'" >>= fun _ => pure e) rest := by
  rw [primary, bind_ok (peek_cons t rest)]
  simp only [h]
  rw [bind_ok (advance_cons (by rw [h]; decide))]

end Primary

/-! ## Going on -/

theorem trailers_member {inner : Option Inner} {depth fuel : Nat} {e : Expr} {dot name : Token}
    {rest : List Token} (hdot : dot.kind = .dot) (hname : name.kind = .identifier) :
    trailers inner depth (fuel + 1) e (dot :: name :: rest) =
      trailers inner depth fuel (.member e.location e name.text) rest := by
  rw [trailers, bind_ok (peekKind_apply 0 _), kindAt_cons, hdot, if_neg (by decide),
    if_pos (by decide), bind_ok (advance_cons (by rw [hdot]; decide)),
    bind_ok (expect_of_kind hname (by decide) _)]

theorem trailers_step {inner : Option Inner} {depth fuel : Nat} {e : Expr} {op : Token}
    {rest : List Token} (hop : isTrailing op.kind = true) :
    trailers inner depth (fuel + 1) e (op :: rest) =
      trailers inner depth fuel (.unary e.location op.text e false) rest := by
  have hne : ∀ kind, isTrailing kind = false → op.kind ≠ kind := by
    rintro kind hkind rfl
    rw [hop] at hkind
    cases hkind
  rw [trailers, bind_ok (peekKind_apply 0 _), kindAt_cons,
    if_neg (by simpa using hne .leftParen rfl), if_neg (by simpa using hne .dot rfl), if_pos hop,
    bind_ok (advance_cons (hne .endOfInput rfl))]

theorem trailers_call {inner : Option Inner} {depth fuel : Nat} {e : Expr} {left : Token}
    {rest : List Token} (hleft : left.kind = .leftParen) :
    trailers inner depth (fuel + 1) e (left :: rest) =
      (descend inner depth (fun i d => arguments (i.expression d)) >>= fun es =>
        expect .rightParen "')' after arguments" >>= fun _ =>
          trailers inner depth fuel (.call e.location e es)) rest := by
  rw [trailers, bind_ok (peekKind_apply 0 _), kindAt_cons, hleft, if_pos (by decide),
    bind_ok (advance_cons (by rw [hleft]; decide))]

/-- A chain takes the next operator of its level, or is at the limit of nesting. -/
theorem chainRest_operator (operand : Nat → Read Expr) (operators : TokenKind → Bool) {op : Token}
    {ts : List Token} (fuel depth : Nat) (e : Expr) (hop : operators op.kind = true)
    (hend : op.kind ≠ .endOfInput) :
    (∃ fault : Fault, fault.IsNesting ∧
      chainRest operand operators (fuel + 1) depth e (op :: ts) = .error (.misread fault) ts) ∨
    chainRest operand operators (fuel + 1) depth e (op :: ts) =
      (operand (depth + 1) >>= fun right =>
        chainRest operand operators fuel (depth + 1) (.binary e.location op.text e right)) ts := by
  rw [chainRest, bind_ok (accept_of_kind hop hend)]
  dsimp only
  by_cases hdepth : maxTreeDepth ≤ depth
  · left
    rw [if_pos hdepth]
    exact ⟨_, ⟨_, rfl⟩, rfl⟩
  · right
    rw [if_neg hdepth]

/-! ## Arguments -/

/-- Arguments behind a comma are read up to the closing parenthesis. -/
theorem moreArguments_reads {x : Read Expr} {items : List (List Word × Expr)} {ws : List Word}
    (h : Listed items ws) (hne : items ≠ [])
    (hx : ∀ a ∈ items, ∀ us rest, us.map Token.word = a.1 → (kindAt 0 rest).joins = 0 →
      Reads x us rest a.2) {comma : Token} (hcomma : comma.kind = .comma) {us rest : List Token}
    (hus : us.map Token.word = ws) (hrest : kindAt 0 rest = .rightParen) (fuel : Nat)
    (hfuel : us.length < fuel) :
    Deep us rest (moreArguments x fuel (comma :: us ++ rest)) ∨
    ∃ es, es.map Expr.forget = items.map (fun a => a.2.forget) ∧
      moreArguments x fuel (comma :: us ++ rest) = .ok es rest := by
  induction h generalizing comma us fuel with
  | none => exact absurd rfl hne
  | one a =>
      obtain ⟨fuel, rfl⟩ := Nat.exists_eq_add_of_lt hfuel
      have hmore : moreArguments x (us.length + fuel) rest = .ok [] rest := by
        cases us.length + fuel with
        | zero => rfl
        | succ fuel =>
            rw [moreArguments, bind_ok (acceptKind_none (by rw [hrest]; decide))]
            rfl
      rw [moreArguments, List.cons_append, bind_ok (acceptKind_of_kind hcomma (by decide))]
      rcases hx a List.mem_cons_self us rest hus (by rw [hrest]; rfl) with hdeep | ⟨e, he, hok⟩
      · exact Or.inl hdeep.bind
      · refine Or.inr ⟨[e], by simp [he], ?_⟩
        simp only
        rw [bind_ok hok, bind_ok hmore]
        rfl
  | more a b hc hlist ih =>
      obtain ⟨us₁, comma', us₂, rfl, hus₁, hkind, -, hus₂⟩ := map_word_append_cons hus
      have hcomma' : comma'.kind = .comma := by rw [hkind, hc]
      obtain ⟨fuel, rfl⟩ := Nat.exists_eq_add_of_lt hfuel
      have htail := ih (by simp) (fun c hmem => hx c (List.mem_cons_of_mem a hmem)) hcomma' hus₂
        ((us₁ ++ comma' :: us₂).length + fuel) (by simp only [List.length_append, List.length_cons]; omega)
      rw [moreArguments, List.cons_append, bind_ok (acceptKind_of_kind hcomma (by decide)),
        List.append_assoc]
      rcases hx a List.mem_cons_self us₁ (comma' :: us₂ ++ rest) hus₁
        (by rw [List.cons_append, kindAt_cons, hcomma']; rfl) with hdeep | ⟨e, he, hok⟩
      · exact Or.inl (hdeep.bind.before (comma' :: us₂))
      · simp only
        rw [bind_ok hok]
        rcases htail with hdeep | ⟨es, hes, hok'⟩
        · exact Or.inl ((hdeep.bind.behind [comma']).behind us₁)
        · refine Or.inr ⟨e :: es, by simp [he, hes], ?_⟩
          rw [bind_ok hok']
          rfl

/-- The arguments of a call are read up to the closing parenthesis. -/
theorem arguments_reads {x : Read Expr} {items : List (List Word × Expr)} {ws : List Word}
    (h : Listed items ws) (hphrase : ∀ a ∈ items, Phrase 1 a.1 a.2)
    (hx : ∀ a ∈ items, ∀ us rest, us.map Token.word = a.1 → (kindAt 0 rest).joins = 0 →
      Reads x us rest a.2) {us : List Token} (hus : us.map Token.word = ws) {rest : List Token}
    (hrest : kindAt 0 rest = .rightParen) :
    Deep us rest (arguments x (us ++ rest)) ∨
    ∃ es, es.map Expr.forget = items.map (fun a => a.2.forget) ∧
      arguments x (us ++ rest) = .ok es rest := by
  have hopen : ∀ {a : List Word × Expr} {vs : List Token}, Phrase 1 a.1 a.2 →
      vs.map Token.word = a.1 → ∀ ts, (kindAt 0 (vs ++ ts) == .rightParen) = false := by
    intro a vs ha hvs ts
    obtain ⟨w, ws', hws, hbegins, -⟩ := ha.exists_head
    obtain ⟨t, vs', rfl, hkind, -⟩ := map_word_cons (hvs.trans hws)
    rw [beq_eq_false_iff_ne, List.cons_append, kindAt_cons, hkind]
    intro hparen
    rw [hparen] at hbegins
    cases hbegins
  cases h with
  | none =>
      obtain rfl := List.map_eq_nil_iff.mp hus
      refine Or.inr ⟨[], rfl, ?_⟩
      rw [arguments, List.nil_append, bind_ok (peekKind_apply 0 _), hrest]
      rfl
  | one a =>
      have ha := hopen (hphrase a List.mem_cons_self) hus rest
      have hmore : moreArguments x rest.length rest = .ok [] rest := by
        cases rest.length with
        | zero => rfl
        | succ fuel =>
            rw [moreArguments, bind_ok (acceptKind_none (by rw [hrest]; decide))]
            rfl
      rw [arguments, bind_ok (peekKind_apply 0 _), if_neg (by rw [ha]; exact Bool.false_ne_true)]
      rcases hx a List.mem_cons_self us rest hus (by rw [hrest]; rfl) with hdeep | ⟨e, he, hok⟩
      · exact Or.inl hdeep.bind
      · refine Or.inr ⟨[e], by simp [he], ?_⟩
        rw [bind_ok hok, bind_ok (remaining_apply rest), bind_ok hmore]
        rfl
  | more a b hc hlist =>
      obtain ⟨us₁, comma, us₂, rfl, hus₁, hkind, -, hus₂⟩ := map_word_append_cons hus
      have hcomma : comma.kind = .comma := by rw [hkind, hc]
      have ha := hopen (hphrase a List.mem_cons_self) hus₁ (comma :: us₂ ++ rest)
      have htail := moreArguments_reads hlist (by simp)
        (fun c hmem => hx c (List.mem_cons_of_mem a hmem)) hcomma hus₂ hrest
        (comma :: us₂ ++ rest).length (by simp only [List.length_append, List.length_cons]; omega)
      rw [List.append_assoc, arguments, bind_ok (peekKind_apply 0 _), if_neg (by rw [ha]; exact Bool.false_ne_true)]
      rcases hx a List.mem_cons_self us₁ (comma :: us₂ ++ rest) hus₁
        (by rw [List.cons_append, kindAt_cons, hcomma]; rfl) with hdeep | ⟨e, he, hok⟩
      · exact Or.inl (hdeep.bind.before (comma :: us₂))
      · rw [bind_ok hok, bind_ok (remaining_apply _)]
        rcases htail with hdeep | ⟨es, hes, hok'⟩
        · exact Or.inl ((hdeep.bind.behind [comma]).behind us₁)
        · refine Or.inr ⟨e :: es, by simp [he, hes], ?_⟩
          rw [bind_ok hok']
          rfl

/-! ## Phrases -/

/-- What reads phrases of every strength: the claim that the induction over a phrase carries. -/
def Readable (n : Nat) (ws : List Word) (e : Expr) : Prop :=
  ∀ k depth us rest, us.map Token.word = ws → Stops n rest → Begins k n depth us rest e

theorem Readable.reads {n : Nat} {ws : List Word} {e : Expr} (h : Readable n ws e)
    (k depth : Nat) {us rest : List Token} (hus : us.map Token.word = ws)
    (hrest : (kindAt 0 rest).joins < n) : Reads (reader k n depth) us rest e :=
  (h k depth us rest hus (Or.inl hrest)).reads (by omega)

theorem readable_leaf {ws : List Word} {e : Expr} {w : Word} (hws : ws = [w])
    (h : ∀ inner depth t rest, t.word = w →
      ∃ e', e'.forget = e.forget ∧ primary inner depth (t :: rest) = .ok e' rest) :
    Readable 10 ws e := by
  intro k depth us rest hus _
  obtain ⟨t, rfl, ht⟩ := List.map_eq_singleton_iff.mp (hus.trans hws)
  exact Reads.begins (Or.inr (h (inner? k) depth t rest ht)) (Or.inr (Or.inr rfl))

theorem readable_group {left right : Word} {ws : List Word} {e : Expr}
    (hleft : left.kind = .leftParen) (hright : right.kind = .rightParen)
    (ih : Readable 1 ws e) : Readable 10 (left :: ws ++ [right]) e := by
  intro k depth us rest hus _
  obtain ⟨l, us', rfl, hl, -, hus'⟩ := map_word_cons hus
  obtain ⟨us₁, r, us₂, rfl, hus₁, hr, -, hus₂⟩ := map_word_append_cons hus'
  obtain rfl := List.map_eq_nil_iff.mp hus₂
  have hr' : r.kind = .rightParen := hr.trans hright
  refine Reads.begins ?_ (Or.inr (Or.inr rfl))
  have hprimary := primary_group (inner? k) depth (us₁ ++ r :: rest) (hl.trans hleft)
  have htokens : l :: (us₁ ++ [r]) ++ rest = l :: (us₁ ++ r :: rest) := by simp
  rw [Reads, reader, htokens, hprimary]
  rcases descend_cases k depth (fun i d => i.expression d) us₁ (r :: rest) with hdeep | ⟨k', -, hd⟩
  · exact Or.inl ((hdeep.bind.before [r]).behind [l])
  · rw [hd]
    dsimp only
    have hstops : (kindAt 0 (r :: rest)).joins < 1 := by
      rw [kindAt_cons, hr']
      decide
    rcases ih.reads k' (depth + 1) hus₁ hstops with hdeep | ⟨e', he', hok⟩
    · exact Or.inl ((Deep.bind hdeep |>.before [r]).behind [l])
    · refine Or.inr ⟨e', he', ?_⟩
      rw [bind_ok hok, bind_ok (expect_of_kind hr' (by decide) _)]
      rfl

theorem readable_member (l : Location) {dot property : Word} {ws : List Word} {e : Expr}
    (hdot : dot.kind = .dot) (hproperty : property.kind = .identifier) (ih : Readable 9 ws e) :
    Readable 9 (ws ++ [dot, property]) (.member l e property.text) := by
  intro k depth us rest hus _
  obtain ⟨us₁, d, us₂, rfl, hus₁, hd, -, hus₂⟩ := map_word_append_cons hus
  obtain ⟨p, rfl, hp⟩ := List.map_eq_singleton_iff.mp hus₂
  have hd' : d.kind = .dot := hd.trans hdot
  have hp' : p.kind = .identifier := by rw [← hproperty, ← hp, Token.word_kind]
  have htext : p.text = property.text := by rw [← hp, Token.word_text]
  have hstops : Stops 9 (d :: p :: rest) := by
    right
    rw [kindAt_cons, hd']
    decide
  have htokens : us₁ ++ [d, p] ++ rest = us₁ ++ d :: p :: rest := by simp
  rw [Begins, htokens]
  rcases ih k depth us₁ (d :: p :: rest) hus₁ hstops with hdeep | ⟨e', fuel, d', he', hfuel, hok⟩
  · exact Or.inl (hdeep.before [d, p])
  · obtain ⟨fuel, rfl⟩ := Nat.exists_eq_add_of_lt hfuel
    refine Or.inr ⟨.member e'.location e' p.text, rest.length + 1 + fuel, d', ?_, by omega, ?_⟩
    · rw [Expr.forget, Expr.forget, he', htext]
    · rw [hok, goOn_trailing, List.length_cons, trailers_member hd' hp', goOn_trailing]

theorem readable_step (l : Location) {op : Word} {ws : List Word} {e : Expr}
    (hop : isTrailing op.kind = true) (ih : Readable 9 ws e) :
    Readable 9 (ws ++ [op]) (.unary l op.text e false) := by
  intro k depth us rest hus _
  obtain ⟨us₁, o, us₂, rfl, hus₁, ho, htext, hus₂⟩ := map_word_append_cons hus
  obtain rfl := List.map_eq_nil_iff.mp hus₂
  rw [← ho] at hop
  have hstops : Stops 9 (o :: rest) := by
    right
    rw [kindAt_cons, TokenKind.joins_of_isTrailing hop]
    decide
  have htokens : us₁ ++ [o] ++ rest = us₁ ++ o :: rest := by simp
  rw [Begins, htokens]
  rcases ih k depth us₁ (o :: rest) hus₁ hstops with hdeep | ⟨e', fuel, d, he', hfuel, hok⟩
  · exact Or.inl (hdeep.before [o])
  · obtain ⟨fuel, rfl⟩ := Nat.exists_eq_add_of_lt hfuel
    refine Or.inr ⟨.unary e'.location o.text e' false, rest.length + fuel, d, ?_, by omega, ?_⟩
    · rw [Expr.forget, Expr.forget, he', htext]
    · rw [hok, goOn_trailing, trailers_step hop, goOn_trailing]

theorem readable_call (l : Location) {left right : Word} {us vs : List Word} {e : Expr}
    {items : List (List Word × Expr)} (hleft : left.kind = .leftParen)
    (hright : right.kind = .rightParen) (hlist : Listed items vs)
    (hitems : ∀ a ∈ items, Phrase 1 a.1 a.2) (ih : Readable 9 us e)
    (ihs : ∀ a ∈ items, Readable 1 a.1 a.2) :
    Readable 9 (us ++ left :: vs ++ [right]) (.call l e (items.map Prod.snd)) := by
  intro k depth ts rest hts _
  rw [List.append_assoc, List.cons_append] at hts
  obtain ⟨us₁, lt, us₂, rfl, hus₁, hlt, -, hus₂⟩ := map_word_append_cons hts
  obtain ⟨vs₁, rt, vs₂, rfl, hvs₁, hrt, -, hvs₂⟩ := map_word_append_cons hus₂
  obtain rfl := List.map_eq_nil_iff.mp hvs₂
  have hlt' : lt.kind = .leftParen := hlt.trans hleft
  have hrt' : rt.kind = .rightParen := hrt.trans hright
  have hstops : Stops 9 (lt :: (vs₁ ++ rt :: rest)) := by
    right
    rw [kindAt_cons, hlt']
    decide
  have htokens : us₁ ++ lt :: (vs₁ ++ [rt]) ++ rest = us₁ ++ lt :: (vs₁ ++ rt :: rest) := by simp
  rw [Begins, htokens]
  rcases ih k depth us₁ _ hus₁ hstops with hdeep | ⟨e', fuel, d, he', hfuel, hok⟩
  · rw [show lt :: (vs₁ ++ rt :: rest) = lt :: (vs₁ ++ [rt]) ++ rest by simp] at hdeep ⊢
    exact Or.inl (hdeep.before _)
  · obtain ⟨fuel, rfl⟩ := Nat.exists_eq_add_of_lt hfuel
    rw [hok, goOn_trailing, trailers_call hlt']
    rcases descend_cases k d (fun i d => arguments (i.expression d)) vs₁ (rt :: rest)
      with hdeep | ⟨k', -, hd⟩
    · exact Or.inl (((hdeep.bind.before [rt]).behind [lt]).behind us₁)
    · rw [hd]
      dsimp only
      have hargs := arguments_reads (x := reader k' 1 (d + 1)) hlist hitems
        (fun a ha us rest hus hrest => (ihs a ha).reads k' (d + 1) hus (by omega)) hvs₁
        ((kindAt_cons rt rest).trans hrt')
      rcases hargs with hdeep | ⟨es, hes, hargs⟩
      · exact Or.inl (((Deep.bind hdeep |>.before [rt]).behind [lt]).behind us₁)
      · refine Or.inr ⟨.call e'.location e' es, (vs₁ ++ rt :: rest).length + fuel, d, ?_, ?_, ?_⟩
        · rw [Expr.forget, Expr.forget, he', Expr.forgetList_eq_map, Expr.forgetList_eq_map, hes,
            List.map_map]
          rfl
        · simp only [List.length_append, List.length_cons]
          omega
        · rw [bind_ok hargs, bind_ok (expect_of_kind hrt' (by decide) _)]
          rfl

theorem readable_leading (l : Location) {op : Word} {ws : List Word} {e : Expr}
    (hop : isLeading op.kind = true) (ih : Readable 8 ws e) :
    Readable 8 (op :: ws) (.unary l op.text e true) := by
  intro k depth us rest hus hrest
  obtain ⟨o, us', rfl, ho, htext, hus'⟩ := map_word_cons hus
  rw [← ho] at hop
  have hend : o.kind ≠ .endOfInput := by
    intro hk
    rw [hk] at hop
    exact absurd hop (by decide)
  have hstops : (kindAt 0 rest).joins < 8 := by
    rcases hrest with hlt | ⟨heq, -⟩
    · exact hlt
    · exact absurd heq (by cases kindAt 0 rest <;> decide)
  refine Reads.begins ?_ (Or.inr (Or.inl rfl))
  rw [Reads, reader_leading, leading, List.cons_append, bind_ok (accept_of_kind hop hend)]
  dsimp only
  rcases descend_cases k depth (fun i d => i.leading d) us' rest with hdeep | ⟨k', -, hd⟩
  · exact Or.inl (hdeep.bind.behind [o])
  · rw [hd]
    dsimp only
    rcases ih.reads k' (depth + 1) hus' hstops with hdeep | ⟨e', he', hok⟩
    · exact Or.inl (Deep.bind hdeep |>.behind [o])
    · refine Or.inr ⟨.unary o.location o.text e' true, ?_, ?_⟩
      · rw [Expr.forget, Expr.forget, he', htext]
      · rw [bind_ok hok]
        rfl

theorem readable_binary (l : Location) {n : Nat} {op : Word} {us vs : List Word} {a b : Expr}
    (hlow : 2 ≤ n) (hhigh : n ≤ 7) (hop : op.kind.joins = n) (iha : Readable n us a)
    (ihb : Readable (n + 1) vs b) : Readable n (us ++ op :: vs) (.binary l op.text a b) := by
  intro k depth ts rest hts hrest
  obtain ⟨us₁, o, us₂, rfl, hus₁, ho, htext, hus₂⟩ := map_word_append_cons hts
  rw [← ho] at hop
  have hend : o.kind ≠ .endOfInput := by
    intro hk
    rw [hk] at hop
    change 0 = n at hop
    omega
  have hstops : Stops n (o :: (us₂ ++ rest)) := Or.inr ⟨hop, by omega⟩
  have hstops' : (kindAt 0 rest).joins < n + 1 := by
    rcases hrest with h | ⟨h, -⟩ <;> omega
  have htokens : us₁ ++ o :: us₂ ++ rest = us₁ ++ o :: (us₂ ++ rest) := by simp
  rw [Begins, htokens]
  rcases iha k depth us₁ _ hus₁ hstops with hdeep | ⟨a', fuel, d, ha', hfuel, hok⟩
  · exact Or.inl (hdeep.before (o :: us₂))
  · obtain ⟨fuel, rfl⟩ := Nat.exists_eq_add_of_lt hfuel
    rw [hok, goOn_chain k hlow hhigh]
    rcases chainRest_operator (reader k (n + 1)) (fun kind => kind.joins == n)
      ((us₂ ++ rest).length + fuel) d a' (by simpa using hop) hend
      with ⟨fault, hfault, herror⟩ | hgo
    · exact Or.inl ⟨fault, us₂, hfault, List.suffix_append_of_suffix (List.suffix_cons o us₂),
        herror⟩
    · rw [hgo]
      rcases ihb.reads k (d + 1) hus₂ hstops' with hdeep | ⟨b', hb', hok'⟩
      · exact Or.inl ((hdeep.bind.behind [o]).behind us₁)
      · refine Or.inr ⟨.binary a'.location o.text a' b', (us₂ ++ rest).length + fuel, d + 1, ?_, ?_,
          ?_⟩
        · rw [Expr.forget, Expr.forget, ha', hb', htext]
        · simp only [List.length_append]
          omega
        · rw [bind_ok hok', goOn_chain k hlow hhigh]

theorem readable_assign (l : Location) {op : Word} {us vs : List Word} {a b : Expr}
    (hop : isAssignment op.kind = true) (iha : Readable 2 us a) (ihb : Readable 1 vs b) :
    Readable 1 (us ++ op :: vs) (.assign l op.text a b) := by
  intro k depth ts rest hts hrest
  obtain ⟨us₁, o, us₂, rfl, hus₁, ho, htext, hus₂⟩ := map_word_append_cons hts
  rw [← ho] at hop
  have hend : o.kind ≠ .endOfInput := by
    intro hk
    rw [hk] at hop
    exact absurd hop (by decide)
  have hstops : (kindAt 0 (o :: (us₂ ++ rest))).joins < 2 := by
    rw [kindAt_cons, TokenKind.joins_of_isAssignment hop]
    decide
  have hstops' : (kindAt 0 rest).joins < 1 := by
    rcases hrest with h | ⟨-, h⟩
    · exact h
    · exact absurd rfl h
  have htokens : us₁ ++ o :: us₂ ++ rest = us₁ ++ o :: (us₂ ++ rest) := by simp
  refine Reads.begins ?_ (Or.inl rfl)
  rw [Reads, htokens, reader_assignment]
  rcases iha.reads k depth hus₁ hstops with hdeep | ⟨a', ha', hok⟩
  · exact Or.inl ((Deep.bind hdeep).before (o :: us₂))
  · rw [bind_ok hok, bind_ok (accept_of_kind hop hend)]
    dsimp only
    rcases descend_cases k depth (fun i d => i.expression d) us₂ rest with hdeep | ⟨k', -, hd⟩
    · exact Or.inl ((hdeep.bind.behind [o]).behind us₁)
    · rw [hd]
      dsimp only
      rcases ihb.reads k' (depth + 1) hus₂ hstops' with hdeep | ⟨b', hb', hok'⟩
      · exact Or.inl ((Deep.bind hdeep |>.behind [o]).behind us₁)
      · refine Or.inr ⟨.assign a'.location o.text a' b', ?_, ?_⟩
        · rw [Expr.forget, Expr.forget, ha', hb', htext]
        · rw [bind_ok hok']
          rfl

theorem readable_loosen {n : Nat} {ws : List Word} {e : Expr} (hn : 1 ≤ n)
    (h : Phrase (n + 1) ws e) (ih : Readable (n + 1) ws e) : Readable n ws e := by
  intro k depth us rest hus hrest
  have hstops : (kindAt 0 rest).joins < n + 1 := by
    rcases hrest with hlt | ⟨heq, -⟩ <;> omega
  have hcases : n = 1 ∨ (2 ≤ n ∧ n ≤ 7 ∨ n = 9) ∨ n = 8 ∨ 10 ≤ n := by omega
  rcases hcases with rfl | hchain | rfl | hprimary
  · -- No assignment comes after the operand.
    have hassign : isAssignment (kindAt 0 rest) = false := by
      rw [Bool.eq_false_iff]
      intro hassign
      rcases hrest with hlt | ⟨-, hne⟩
      · rw [TokenKind.joins_of_isAssignment hassign] at hlt
        omega
      · exact hne rfl
    refine Reads.begins ?_ (Or.inl rfl)
    rw [Reads, reader_assignment]
    rcases ih.reads k depth hus hstops with hdeep | ⟨e', he', hok⟩
    · exact Or.inl (Deep.bind hdeep)
    · refine Or.inr ⟨e', he', ?_⟩
      rw [bind_ok hok, bind_ok (accept_none hassign)]
      rfl
  · have hreader : reader k n depth =
        reader k (n + 1) depth >>= fun e => remaining >>= fun fuel => goOn k n fuel depth e := by
      rcases hchain with ⟨hlow, hhigh⟩ | rfl
      · exact reader_chain k hlow hhigh depth
      · exact reader_trailing k depth
    rw [Begins, hreader]
    rcases ih.reads k depth hus hstops with hdeep | ⟨e', he', hok⟩
    · exact Or.inl (Deep.bind hdeep)
    · refine Or.inr ⟨e', rest.length, depth, he', Nat.le_refl _, ?_⟩
      rw [bind_ok hok, bind_ok (remaining_apply rest)]
  · -- The operand begins with no operator.
    obtain ⟨w, ws', rfl, -, hleading⟩ := h.exists_head
    obtain ⟨t, us', rfl, ht, -⟩ := map_word_cons hus
    have hnone : isLeading (kindAt 0 (t :: us' ++ rest)) = false := by
      rw [List.cons_append, kindAt_cons, ht]
      exact hleading (Nat.le_refl 9)
    refine Reads.begins ?_ (Or.inr (Or.inl rfl))
    rw [Reads, reader_leading, leading, bind_ok (accept_none hnone)]
    exact ih.reads k depth hus hstops
  · exact absurd h.le_ten (by omega)

/-- A phrase is read as its expression, by the reader of its strength and of every smaller one,
unless a limit of nesting is reached inside it. -/
theorem readable_of_phrase {n : Nat} {ws : List Word} {e : Expr} (h : Phrase n ws e) :
    Readable n ws e := by
  induction h with
  | name l hid =>
      refine readable_leaf rfl fun inner depth t rest ht => ?_
      have hkind : t.kind = .identifier := congrArg Word.kind ht
      have htext := congrArg Word.text ht
      dsimp only [Token.word_text] at htext
      exact ⟨_, by rw [nameOrPin, htext, hid]; rfl, primary_identifier hkind⟩
  | pin l hid =>
      refine readable_leaf rfl fun inner depth t rest ht => ?_
      have hkind : t.kind = .identifier := congrArg Word.kind ht
      have htext := congrArg Word.text ht
      dsimp only [Token.word_text] at htext
      exact ⟨_, by rw [nameOrPin, htext, hid]; rfl, primary_identifier hkind⟩
  | number l hvalue =>
      refine readable_leaf rfl fun inner depth t rest ht => ?_
      have hkind : t.kind = .number := congrArg Word.kind ht
      have htext := congrArg Word.text ht
      dsimp only [Token.word_text] at htext
      subst htext
      exact ⟨.literal t.location _ _, rfl, primary_number hkind hvalue⟩
  | string l raw =>
      refine readable_leaf rfl fun inner depth t rest ht => ?_
      have hkind : t.kind = .string := congrArg Word.kind ht
      have htext := congrArg Word.text ht
      dsimp only [Token.word_text] at htext
      subst htext
      exact ⟨.literal t.location _ _, rfl, primary_string hkind⟩
  | constant l text hconstant =>
      refine readable_leaf rfl fun inner depth t rest ht => ?_
      have hkind := congrArg Word.kind ht
      have htext := congrArg Word.text ht
      dsimp only [Token.word_text, Token.word_kind] at htext hkind
      subst htext
      exact ⟨.literal t.location _ _, rfl, primary_constant (by rw [hkind, hconstant])⟩
  | group hleft hright _ ih => exact readable_group hleft hright ih
  | member l hdot hproperty _ ih => exact readable_member l hdot hproperty ih
  | call l hleft hright _ hlist hitems ih ihs =>
      exact readable_call l hleft hright hlist hitems ih ihs
  | step l hop _ ih => exact readable_step l hop ih
  | leading l hop _ ih => exact readable_leading l hop ih
  | binary l hlow hhigh hop _ _ iha ihb => exact readable_binary l hlow hhigh hop iha ihb
  | assign l hop _ _ iha ihb => exact readable_assign l hop iha ihb
  | loosen hn h ih => exact readable_loosen hn h ih

/-- An expression is read from its words, or reading stops inside them for a limit of nesting. -/
theorem expression_reads {ws : List Word} {e : Expr} (h : Phrase 1 ws e) (levelsLeft depth : Nat)
    {us : List Token} (hus : us.map Token.word = ws) (rest : List Token)
    (hrest : (kindAt 0 rest).joins = 0) :
    Reads (expression levelsLeft depth) us rest e :=
  (readable_of_phrase h).reads levelsLeft depth hus (by omega)

end ExprGrammar

end InoBlocks
