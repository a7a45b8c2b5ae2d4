import InoBlocks.Proofs.Number.Unsigned
import InoBlocks.Proofs.Sketch.Phrase
import InoBlocks.Proofs.Sketch.Steps

/-!
# What readers take

A tidy reader takes tokens from the front of a list only, and only of some kinds; where it fails,
it fails for a reason of the grammar; and what it reads depends on no token behind the one it
stops at.  The readers of expressions are tidy.  Their loops run on the number of tokens that are
left, and that number never cuts them short.
-/

namespace InoBlocks

open Read ExprGrammar

/-! ## Spellings and stops -/

namespace Token

/-- A number is spelled as the lexer cuts it: a digit, then digits with at most one point. -/
def IsSpelled (t : Token) : Prop :=
  t.kind = .number → ∃ c cs, t.text = String.ofList (c :: cs) ∧ c.isDigit = true ∧
    numberLength false cs = cs.length

/-- The numbers among tokens are spelled as the lexer cuts them. -/
def Spelled (ts : List Token) : Prop :=
  ∀ t ∈ ts, t.IsSpelled

end Token

/-- A cause that the grammar of a sketch has for a fault; a block that the end of the input cuts
off is reported in words of its own. -/
def Cause.IsSyntax : Cause → Prop
  | .unexpectedToken .. | .nestedTooDeep _ => True
  | .missingToken expected _ => expected ≠ "'\x7d' before end of input"
  | _ => False

def Stop.IsSyntax : Stop → Prop
  | .misread fault => fault.cause.IsSyntax
  | _ => False

/-! ## Passing over tokens -/

/-- Tokens with some at their front taken off, all of kinds that are allowed. -/
def Passes (allowed : TokenKind → Bool) (ts us : List Token) : Prop :=
  ∃ front, ts = front ++ us ∧ ∀ t ∈ front, allowed t.kind = true

namespace Passes

variable {allowed allowed' : TokenKind → Bool} {ts us vs : List Token}

theorem refl (ts : List Token) : Passes allowed ts ts :=
  ⟨[], rfl, by simp⟩

theorem trans (h : Passes allowed ts us) (h' : Passes allowed us vs) : Passes allowed ts vs := by
  obtain ⟨front, rfl, hfront⟩ := h
  obtain ⟨more, rfl, hmore⟩ := h'
  refine ⟨front ++ more, by simp, fun t ht => ?_⟩
  rcases List.mem_append.mp ht with ht | ht
  · exact hfront t ht
  · exact hmore t ht

theorem mono (h : Passes allowed ts us) (hle : ∀ k, allowed k = true → allowed' k = true) :
    Passes allowed' ts us := by
  obtain ⟨front, rfl, hfront⟩ := h
  exact ⟨front, rfl, fun t ht => hle _ (hfront t ht)⟩

theorem suffix (h : Passes allowed ts us) : us <:+ ts := by
  obtain ⟨front, rfl, -⟩ := h
  exact List.suffix_append front us

theorem length_le (h : Passes allowed ts us) : us.length ≤ ts.length :=
  h.suffix.length_le

theorem cons {t : Token} (h : allowed t.kind = true) : Passes allowed (t :: ts) ts :=
  ⟨[t], rfl, by simpa using h⟩

theorem spelled (h : Passes allowed ts us) (hts : Token.Spelled ts) : Token.Spelled us :=
  fun t ht => hts t (h.suffix.mem ht)

end Passes

def leftBy {σ α : Type} : EStateM.Result Stop σ α → σ
  | .ok _ s => s
  | .error _ s => s

section Bind

variable {σ α β : Type} {x : EStateM Stop σ α} {f g : α → EStateM Stop σ β} {s : σ}

/-- Two steps after one and the same agree if they agree where it leads. -/
theorem bind_congr_at (h : ∀ a s', x s = .ok a s' → f a s' = g a s') :
    (x >>= f) s = (x >>= g) s := by
  cases hx : x s with
  | ok a s' => rw [bind_ok hx, bind_ok hx, h a s' hx]
  | error stop s' => rw [bind_error hx, bind_error hx]

/-- Steps that agree in a state agree with the same step after them. -/
theorem bind_congr_left {y : EStateM Stop σ α} (h : x s = y s) : (x >>= f) s = (y >>= f) s := by
  cases hx : x s with
  | ok a s' => rw [bind_ok hx, bind_ok (h ▸ hx)]
  | error stop s' => rw [bind_error hx, bind_error (h ▸ hx)]

end Bind

/-! ## Taking -/

/-- In front of a token of some kind, a reader takes tokens of allowed kinds, and if it fails, and
the numbers that it took are spelled right, it fails for a reason of the grammar. -/
def TakesAt {α : Type} (allowed : TokenKind → Bool) (kind : TokenKind) (x : Read α) : Prop :=
  ∀ ts, kindAt 0 ts = kind → Passes allowed ts (leftBy (x ts)) ∧
    ∀ front us stop, ts = front ++ us → Token.Spelled front → x ts = .error stop us →
      stop.IsSyntax

/-- A reader takes tokens of allowed kinds, and if it fails, and the numbers that it took are
spelled right, it fails for a reason of the grammar. -/
def Takes {α : Type} (allowed : TokenKind → Bool) (x : Read α) : Prop :=
  ∀ kind, TakesAt allowed kind x

section Takes

variable {α β : Type} {allowed allowed' : TokenKind → Bool} {kind : TokenKind}

theorem Takes.passes {x : Read α} (h : Takes allowed x) (ts : List Token) :
    Passes allowed ts (leftBy (x ts)) :=
  (h _ ts rfl).1

theorem Takes.passes_ok {x : Read α} (h : Takes allowed x) {ts us : List Token} {a : α}
    (hx : x ts = .ok a us) : Passes allowed ts us := by
  have := h.passes ts
  rwa [hx] at this

theorem Takes.mono {x : Read α} (h : Takes allowed x)
    (hle : ∀ k, allowed k = true → allowed' k = true) : Takes allowed' x :=
  fun k ts hk => ⟨(h k ts hk).1.mono hle, (h k ts hk).2⟩

theorem TakesAt.bind {x : Read α} {f : α → Read β} (hx : TakesAt allowed kind x)
    (hf : ∀ a, Takes allowed (f a)) : TakesAt allowed kind (x >>= f) := by
  intro ts hts
  obtain ⟨hpass, hfault⟩ := hx ts hts
  cases hrun : x ts with
  | ok a us =>
      rw [hrun] at hpass
      obtain ⟨hpass', hfault'⟩ := hf a _ us rfl
      rw [bind_ok hrun]
      refine ⟨hpass.trans hpass', fun front us' stop hts hspelled hstop => ?_⟩
      rw [hstop] at hpass'
      obtain ⟨first, hfirst, -⟩ := hpass
      obtain ⟨second, hsecond, -⟩ := hpass'
      refine hfault' second us' stop hsecond (fun t ht => hspelled t ?_) hstop
      have hfront : front = first ++ second := by
        have hall : ts = first ++ (second ++ us') := hfirst.trans (congrArg (first ++ ·) hsecond)
        rw [← List.append_assoc] at hall
        exact List.append_cancel_right (hts.symm.trans hall)
      rw [hfront]
      exact List.mem_append_right first ht
  | error stop us =>
      rw [hrun] at hpass
      rw [bind_error hrun]
      refine ⟨hpass, fun front us' stop' hts hspelled heq => ?_⟩
      cases heq
      exact hfault front us stop hts hspelled hrun

theorem Takes.bind {x : Read α} {f : α → Read β} (hx : Takes allowed x)
    (hf : ∀ a, Takes allowed (f a)) : Takes allowed (x >>= f) :=
  fun k => (hx k).bind hf

theorem Takes.still {x : Read α} (h : ∀ ts, ∃ a, x ts = .ok a ts) : Takes allowed x := by
  intro k ts _
  obtain ⟨a, ha⟩ := h ts
  rw [ha]
  exact ⟨.refl ts, fun _ us stop _ _ heq => by cases heq⟩

theorem Takes.pure (a : α) : Takes allowed (Pure.pure a) :=
  .still fun _ => ⟨a, rfl⟩

theorem Takes.stopAt {cause : Token → Cause} (h : ∀ t, (cause t).IsSyntax) :
    Takes allowed (Read.stopAt cause : Read α) := by
  intro k ts _
  refine ⟨.refl ts, fun _ us stop _ _ heq => ?_⟩
  cases heq
  exact h _

theorem TakesAt.advance (h : kind ≠ .endOfInput → allowed kind = true) :
    TakesAt allowed kind Read.advance := by
  intro ts hts
  cases ts with
  | nil => exact ⟨.refl [], fun _ us stop _ _ heq => by cases heq⟩
  | cons t ts =>
      by_cases hend : t.kind = .endOfInput
      · rw [Read.advance, if_pos hend]
        exact ⟨.refl _, fun _ us stop _ _ heq => by cases heq⟩
      · rw [advance_cons hend]
        rw [kindAt_cons] at hts
        exact ⟨.cons (hts ▸ h (hts ▸ hend)), fun _ us stop _ _ heq => by cases heq⟩

theorem TakesAt.ite {p : Prop} [Decidable p] {x y : Read α} (hx : p → TakesAt allowed kind x)
    (hy : ¬p → TakesAt allowed kind y) : TakesAt allowed kind (if p then x else y) := by
  by_cases hp : p
  · rw [if_pos hp]
    exact hx hp
  · rw [if_neg hp]
    exact hy hp

/-- The kind of the next token decides how to go on. -/
theorem TakesAt.peekKind_bind {f : TokenKind → Read α} (h : TakesAt allowed kind (f kind)) :
    TakesAt allowed kind (peekKind 0 >>= f) := by
  intro ts hts
  rw [bind_ok (peekKind_apply 0 ts), hts]
  exact h ts hts

end Takes

/-! ## Frames -/

/-- In front of a token of some kind, what a reader reads does not depend on what stands behind
the token that it stops at. -/
def FramedAt {α : Type} (kind : TokenKind) (x : Read α) : Prop :=
  ∀ t ts, t.kind = kind → ∀ q u u' a, q ≠ [] →
    x (t :: ts ++ u) = .ok a (q ++ u) → x (t :: ts ++ u') = .ok a (q ++ u')

/-- A reader takes tokens of allowed kinds, fails for a reason of the grammar if it fails, and
does not depend on what stands behind the token that it stops at. -/
structure TidyAt {α : Type} (allowed : TokenKind → Bool) (kind : TokenKind) (x : Read α) :
    Prop where
  takes : TakesAt allowed kind x
  framed : FramedAt kind x

def Tidy {α : Type} (allowed : TokenKind → Bool) (x : Read α) : Prop :=
  ∀ kind, TidyAt allowed kind x

section Tidy

variable {α β : Type} {allowed allowed' : TokenKind → Bool} {kind : TokenKind}

theorem Tidy.takes {x : Read α} (h : Tidy allowed x) : Takes allowed x :=
  fun k => (h k).takes

theorem Tidy.mono {x : Read α} (h : Tidy allowed x)
    (hle : ∀ k, allowed k = true → allowed' k = true) : Tidy allowed' x :=
  fun k => ⟨h.takes.mono hle k, (h k).framed⟩

/-- What a tidy reader reads in front of some tokens it reads in front of any others. -/
theorem Tidy.frame {x : Read α} (h : Tidy allowed x) {ts q u : List Token} {a : α} (hq : q ≠ [])
    (hx : x (ts ++ u) = .ok a (q ++ u)) (u' : List Token) : x (ts ++ u') = .ok a (q ++ u') := by
  cases ts with
  | nil =>
      have hle := (h.takes.passes_ok hx).length_le
      have hpos := List.length_pos_iff.mpr hq
      rw [List.nil_append, List.length_append] at hle
      omega
  | cons t ts => exact (h t.kind).framed t ts rfl q u u' a hq hx

theorem TidyAt.bind {x : Read α} {f : α → Read β} (hx : TidyAt allowed kind x)
    (hf : ∀ a, Tidy allowed (f a)) : TidyAt allowed kind (x >>= f) := by
  refine ⟨hx.takes.bind fun a => (hf a).takes, ?_⟩
  intro t ts ht q u u' b hq hrun
  obtain ⟨a, mid, hmid, hrest⟩ := bind_eq_ok hrun
  obtain ⟨front, rfl, -⟩ := (hf a).takes.passes_ok hrest
  rw [← List.append_assoc] at hmid hrest
  have hne : front ++ q ≠ [] := by simp [hq]
  rw [bind_ok (hx.framed t ts ht _ u u' a hne hmid)]
  exact (hf a).frame hq hrest u'

theorem Tidy.bind {x : Read α} {f : α → Read β} (hx : Tidy allowed x)
    (hf : ∀ a, Tidy allowed (f a)) : Tidy allowed (x >>= f) :=
  fun k => (hx k).bind hf

theorem Tidy.pure (a : α) : Tidy allowed (Pure.pure a : Read α) := by
  refine fun k => ⟨Takes.pure a k, fun t ts _ q u u' b _ hrun => ?_⟩
  injection hrun with hb hq
  rw [← hb, List.append_cancel_right hq]
  rfl

theorem Tidy.stopAt {cause : Token → Cause} (h : ∀ t, (cause t).IsSyntax) :
    Tidy allowed (Read.stopAt cause : Read α) :=
  fun k => ⟨Takes.stopAt h k, fun _ _ _ _ _ _ _ _ hrun => by cases hrun⟩

theorem TidyAt.ite {p : Prop} [Decidable p] {x y : Read α} (hx : p → TidyAt allowed kind x)
    (hy : ¬p → TidyAt allowed kind y) : TidyAt allowed kind (if p then x else y) := by
  by_cases hp : p
  · rw [if_pos hp]
    exact hx hp
  · rw [if_neg hp]
    exact hy hp

theorem TidyAt.peekKind_bind {f : TokenKind → Read α} (h : TidyAt allowed kind (f kind)) :
    TidyAt allowed kind (peekKind 0 >>= f) := by
  refine ⟨h.takes.peekKind_bind, fun t ts ht q u u' a hq hrun => ?_⟩
  subst ht
  exact h.framed t ts rfl q u u' a hq hrun

/-- The next token, left in place, decides how to go on. -/
theorem TidyAt.peek_bind {f : Token → Read α} (h : ∀ t, t.kind = kind → TidyAt allowed kind (f t)) :
    TidyAt allowed kind (peek >>= f) := by
  refine ⟨fun ts hts => ?_, fun t ts ht q u u' a hq hrun => ?_⟩
  · have hhead : (ts.headD default).kind = kind := by
      cases ts with
      | nil => exact hts
      | cons t ts => exact hts
    exact (h _ hhead).takes ts hts
  · exact (h t ht).framed t ts ht q u u' a hq hrun

/-- What only looks at the next token does not depend on what stands behind it. -/
theorem FramedAt.still {x : Read α} {value : Token → α}
    (h : ∀ t us, t.kind = kind → x (t :: us) = .ok (value t) (t :: us)) : FramedAt kind x := by
  intro t ts ht q u u' a _ hrun
  rw [List.cons_append, h t _ ht] at hrun ⊢
  injection hrun with ha hq
  have hts : t :: ts = q := List.append_cancel_right hq
  rw [← ha, ← hts, List.cons_append]

theorem TidyAt.advance (h : kind ≠ .endOfInput → allowed kind = true) :
    TidyAt allowed kind Read.advance := by
  by_cases hend : kind = .endOfInput
  · exact ⟨.advance h, .still fun t us ht => by rw [Read.advance, if_pos (ht.trans hend)]⟩
  · refine ⟨.advance h, fun t ts ht q u u' a _ hrun => ?_⟩
    have hkind : t.kind ≠ .endOfInput := ht ▸ hend
    rw [List.cons_append, advance_cons hkind] at hrun ⊢
    injection hrun with ha hq
    rw [← ha, ← List.append_cancel_right hq]

theorem TidyAt.advance_bind {f : Token → Read α} (h : allowed kind = true)
    (hf : ∀ t, Tidy allowed (f t)) : TidyAt allowed kind (Read.advance >>= f) :=
  (TidyAt.advance fun _ => h).bind hf

theorem Tidy.accept {wanted : TokenKind → Bool} (h : ∀ k, wanted k = true → allowed k = true) :
    Tidy allowed (accept wanted) :=
  fun k => .peekKind_bind <| .ite (fun hk => .advance_bind (h k hk) fun _ => .pure _)
    fun _ => Tidy.pure _ k

theorem Tidy.acceptKind {k : TokenKind} (h : allowed k = true) : Tidy allowed (acceptKind k) :=
  .accept fun k' hk' => by rwa [beq_iff_eq.mp hk']

theorem Tidy.expect {k : TokenKind} (h : allowed k = true) {what : String}
    (hwhat : what ≠ "'\x7d' before end of input") : Tidy allowed (expect k what) := by
  have hcause : ∀ t : Token, (Cause.missingToken what (some (describe t))).IsSyntax :=
    fun _ => hwhat
  exact fun k' => .peekKind_bind <| .ite (fun hk => .advance fun _ => by rwa [beq_iff_eq.mp hk])
    fun _ => Tidy.stopAt hcause k'

theorem Tidy.unexpected (expected : String) : Tidy allowed (unexpected expected : Read α) :=
  .stopAt fun _ => trivial

theorem Tidy.tooDeep (limit : Nat) : Tidy allowed (tooDeep limit : Read α) :=
  .stopAt fun _ => trivial

/-! ## Loops -/

/-- A loop gives the same with every number of steps that is at least the size of its state. -/
def Unbounded {σ β : Type} (size : σ → Nat) (loop : Nat → σ → β) : Prop :=
  ∀ n m s, size s ≤ n → size s ≤ m → loop n s = loop m s

theorem Unbounded.bind {loop : Nat → Read α} (h : Unbounded List.length loop) (f : α → Read β) :
    Unbounded List.length fun n => loop n >>= f :=
  fun n m ts hn hm => bind_congr_left (h n m ts hn hm)

/-- The number of steps does not matter to a loop that stops where nothing is left, and that goes
on after a round only where less is left. -/
theorem unbounded_of_rounds {ι σ β : Type} (size : σ → Nat) (loop : ι → Nat → σ → β)
    (hstop : ∀ i n s, size s = 0 → loop i n s = loop i 0 s)
    (hround : ∀ i n m s, 0 < size s →
      (∀ i s', size s' < size s → loop i n s' = loop i m s') →
      loop i (n + 1) s = loop i (m + 1) s) (i : ι) : Unbounded size (loop i) := by
  intro n
  induction n generalizing i with
  | zero =>
      intro m s hn _
      exact (hstop i m s (Nat.le_zero.mp hn)).symm
  | succ n ih =>
      intro m s hn hm
      rcases Nat.eq_zero_or_pos (size s) with hzero | hpos
      · rw [hstop i (n + 1) s hzero, hstop i m s hzero]
      · obtain ⟨m, rfl⟩ : ∃ k, m = k + 1 := ⟨m - 1, by omega⟩
        exact hround i n m s hpos fun i s' hs' => ih i m s' (by omega) (by omega)

/-- What is taken in front of a round leaves fewer tokens. -/
theorem accept_length {wanted : TokenKind → Bool} (hend : wanted .endOfInput = false)
    {ts us : List Token} {t : Token} (h : accept wanted ts = .ok (some t) us) :
    us.length < ts.length := by
  rcases accept_eq_ok h with ⟨hnone, -, -⟩ | ⟨t', -, rfl, -, -⟩ | hend'
  · cases hnone
  · simp
  · rw [hend] at hend'
    cases hend'

theorem Tidy.remaining_bind {loop : Nat → Read α} (hloop : Unbounded List.length loop)
    (h : ∀ n, Tidy allowed (loop n)) : Tidy allowed (remaining >>= loop) := by
  refine fun k => ⟨fun ts hts => (h ts.length k).takes ts hts, ?_⟩
  intro t ts ht q u u' a hq hrun
  have hrun : loop (t :: ts ++ u).length (t :: ts ++ u) = .ok a (q ++ u) := hrun
  change loop (t :: ts ++ u').length (t :: ts ++ u') = .ok a (q ++ u')
  let n := max (t :: ts ++ u).length (t :: ts ++ u').length
  rw [hloop _ n _ (Nat.le_refl _) (Nat.le_max_left _ _)] at hrun
  rw [hloop _ n _ (Nat.le_refl _) (Nat.le_max_right _ _)]
  exact (h n).frame hq hrun u'

end Tidy

/-! ## Expressions -/

namespace ExprGrammar

abbrev TidyPhrase {α : Type} (x : Read α) : Prop :=
  Tidy TokenKind.inPhrase x

/-- What can be read one level of nesting further down is tidy. -/
def TidyWithin (inner : Option Inner) : Prop :=
  ∀ i, inner = some i → ∀ depth, TidyPhrase (i.expression depth) ∧ TidyPhrase (i.leading depth)

theorem inPhrase_of_isLeading {k : TokenKind} (h : isLeading k = true) : k.inPhrase = true :=
  TokenKind.inPhrase_of_begins (TokenKind.begins_of_isLeading h)

theorem tidy_descend {α : Type} {inner : Option Inner} (h : TidyWithin inner) (depth : Nat)
    {body : Inner → Nat → Read α}
    (hbody : ∀ i d, TidyPhrase (i.expression d) → TidyPhrase (i.leading d) →
      TidyPhrase (body i d)) :
    TidyPhrase (descend inner depth body) := by
  cases inner with
  | none => exact .tooDeep _
  | some i =>
      obtain ⟨hexpression, hleading⟩ := h i rfl (depth + 1)
      exact fun k => .ite (fun _ => Tidy.tooDeep _ k)
        fun _ => hbody i (depth + 1) hexpression hleading k

/-- A number that is spelled as the lexer cuts it can be read. -/
theorem number_ok {t : Token} (ht : t.IsSpelled) (hkind : t.kind = .number) (ts : List Token) :
    ∃ e, number t ts = .ok e ts := by
  obtain ⟨c, cs, htext, hc, hcs⟩ := ht hkind
  obtain ⟨x, hx⟩ := Number.exists_double? hc hcs
  rw [number, htext, hx]
  exact ⟨_, rfl⟩

theorem tidy_number : TidyAt TokenKind.inPhrase .number (advance >>= number) := by
  have hadvance : ∀ {t : Token} (ts : List Token), t.kind = .number →
      (advance >>= number) (t :: ts) = number t ts := fun ts ht =>
    bind_ok (advance_cons (by rw [ht]; decide))
  constructor
  · intro ts hts
    obtain ⟨t, ts, rfl⟩ := exists_cons_of_kindAt (by rw [hts]; decide)
    rw [kindAt_cons] at hts
    have hpass : Passes TokenKind.inPhrase (t :: ts) ts := .cons (by rw [hts]; rfl)
    rw [hadvance ts hts]
    cases hvalue : Number.double? t.text with
    | some value =>
        rw [number, hvalue]
        exact ⟨hpass, fun _ us stop _ _ heq => by cases heq⟩
    | none =>
        have hstop : number t ts = .error (.unreadable t.text) ts := by
          rw [number, hvalue]
          rfl
        rw [hstop]
        refine ⟨hpass, fun front us stop hfront hspelled heq => ?_⟩
        cases heq
        have hone : [t] = front := List.append_cancel_right hfront
        obtain ⟨e, he⟩ := number_ok (hspelled t (by simp [← hone])) hts ts
        rw [he] at hstop
        cases hstop
  · intro t ts ht q u u' e _ hrun
    rw [List.cons_append, hadvance _ ht] at hrun ⊢
    cases hvalue : Number.double? t.text with
    | some value =>
        rw [number, hvalue] at hrun ⊢
        injection hrun with he hq
        rw [← he, ← List.append_cancel_right hq]
        rfl
    | none =>
        rw [number, hvalue] at hrun
        cases hrun

theorem tidy_primary {inner : Option Inner} (h : TidyWithin inner) (depth : Nat) :
    TidyPhrase (primary inner depth) := by
  refine fun k => .peek_bind fun t ht => ?_
  subst ht
  split
  · rename_i hk
    rw [hk]
    exact tidy_number
  · rename_i hk
    exact .advance_bind (by rw [hk]; rfl) fun _ => .pure _
  · rename_i hk
    exact .advance_bind (by rw [hk]; rfl) fun _ => .pure _
  · rename_i hk
    exact .advance_bind (by rw [hk]; rfl) fun _ => .pure _
  · rename_i hk
    exact .advance_bind (by rw [hk]; rfl) fun _ => .pure _
  · rename_i hk
    exact .advance_bind (by rw [hk]; rfl) fun _ => .pure _
  · rename_i hk
    exact .advance_bind (by rw [hk]; rfl) fun _ => .pure _
  · rename_i hk
    exact .advance_bind (by rw [hk]; rfl) fun _ => .pure _
  · rename_i hk
    exact .advance_bind (by rw [hk]; rfl) fun _ => .pure _
  · rename_i hk
    refine .advance_bind (by rw [hk]; rfl) fun _ => ?_
    exact (tidy_descend h depth fun _ _ he _ => he).bind fun _ =>
      (Tidy.expect rfl (by decide)).bind fun _ => .pure _
  · exact Tidy.unexpected _ _

/-! ### Arguments -/

theorem tidy_moreArguments {x : Read Expr} (hx : TidyPhrase x) (fuel : Nat) :
    TidyPhrase (moreArguments x fuel) := by
  induction fuel with
  | zero => exact .pure _
  | succ fuel ih =>
      refine (Tidy.acceptKind rfl).bind fun found => ?_
      cases found with
      | none => exact .pure _
      | some _ => exact hx.bind fun _ => ih.bind fun _ => .pure _

theorem moreArguments_unbounded {x : Read Expr} (hx : TidyPhrase x) :
    Unbounded List.length (moreArguments x) := by
  refine unbounded_of_rounds List.length (fun (_ : Unit) n => moreArguments x n)
    (fun _ n ts hts => ?_) (fun _ n m ts _ ih => ?_) ()
  · rw [List.length_eq_zero_iff.mp hts]
    cases n <;> rfl
  · refine bind_congr_at fun found us hfound => ?_
    cases found with
    | none => rfl
    | some _ =>
        refine bind_congr_at fun e vs he => bind_congr_left (ih () vs ?_)
        exact Nat.lt_of_le_of_lt (hx.takes.passes_ok he).length_le
          (accept_length (by decide) hfound)

theorem tidy_arguments {x : Read Expr} (hx : TidyPhrase x) : TidyPhrase (arguments x) :=
  fun k => .peekKind_bind <| .ite (fun _ => Tidy.pure _ k) fun _ =>
    hx.bind (fun _ => .remaining_bind ((moreArguments_unbounded hx).bind _)
      fun _ => (tidy_moreArguments hx _).bind fun _ => .pure _) k

/-! ### Calls, members, trailing operators -/

theorem inPhrase_of_isTrailing {k : TokenKind} (h : isTrailing k = true) : k.inPhrase = true :=
  TokenKind.inPhrase_of_joins (by rw [TokenKind.joins_of_isTrailing h]; decide)

theorem tidy_trailers {inner : Option Inner} (h : TidyWithin inner) (depth fuel : Nat) (e : Expr) :
    TidyPhrase (trailers inner depth fuel e) := by
  induction fuel generalizing e with
  | zero => exact .pure _
  | succ fuel ih =>
      refine fun k => .peekKind_bind <| .ite (fun hk => ?_) fun _ => .ite (fun hk => ?_) fun _ =>
        .ite (fun hk => ?_) fun _ => Tidy.pure _ k
      · refine .advance_bind (by rw [beq_iff_eq.mp hk]; rfl) fun _ => ?_
        exact (tidy_descend h depth fun _ _ he _ => tidy_arguments he).bind fun _ =>
          (Tidy.expect rfl (by decide)).bind fun _ => ih _
      · refine .advance_bind (by rw [beq_iff_eq.mp hk]; rfl) fun _ => ?_
        exact (Tidy.expect rfl (by decide)).bind fun _ => ih _
      · exact .advance_bind (inPhrase_of_isTrailing hk) fun _ => ih _

theorem trailers_unbounded {inner : Option Inner} (h : TidyWithin inner) (depth : Nat) (e : Expr) :
    Unbounded List.length fun n => trailers inner depth n e := by
  refine unbounded_of_rounds List.length (fun e n => trailers inner depth n e)
    (fun e n ts hts => ?_) (fun e n m ts hpos ih => ?_) e
  · rw [List.length_eq_zero_iff.mp hts]
    cases n <;> rfl
  · obtain ⟨t, ts, rfl⟩ := List.exists_cons_of_length_pos hpos
    have hadvance : ∀ {f g : Token → Read Expr} (hend : t.kind ≠ .endOfInput),
        (f t ts = g t ts) → (advance >>= f) (t :: ts) = (advance >>= g) (t :: ts) := by
      intro f g hend hfg
      rw [bind_ok (advance_cons hend), bind_ok (advance_cons hend), hfg]
    rw [trailers, trailers, bind_ok (peekKind_apply 0 _), bind_ok (peekKind_apply 0 _), kindAt_cons]
    by_cases hparen : (t.kind == .leftParen) = true
    · rw [if_pos hparen, if_pos hparen]
      refine hadvance (by rw [beq_iff_eq.mp hparen]; decide) ?_
      refine bind_congr_at fun es us hes => bind_congr_at fun _ vs hclose => ih _ vs ?_
      have hes := (tidy_descend h depth fun _ _ he _ => tidy_arguments he).takes.passes_ok hes
      have hclose :=
        (Tidy.expect (by rfl) (by decide) : TidyPhrase _).takes.passes_ok hclose
      exact Nat.lt_succ_of_le (Nat.le_trans hclose.length_le hes.length_le)
    · rw [if_neg hparen, if_neg hparen]
      by_cases hdot : (t.kind == .dot) = true
      · rw [if_pos hdot, if_pos hdot]
        refine hadvance (by rw [beq_iff_eq.mp hdot]; decide) ?_
        refine bind_congr_at fun _ us hname => ih _ us ?_
        have hname :=
          (Tidy.expect (by rfl) (by decide) : TidyPhrase _).takes.passes_ok hname
        exact Nat.lt_succ_of_le hname.length_le
      · rw [if_neg hdot, if_neg hdot]
        by_cases htrailing : isTrailing t.kind = true
        · rw [if_pos htrailing, if_pos htrailing]
          refine hadvance ?_ (ih _ ts (Nat.lt_succ_self _))
          intro hend
          rw [hend] at htrailing
          cases htrailing
        · rw [if_neg htrailing, if_neg htrailing]

theorem tidy_trailing {inner : Option Inner} (h : TidyWithin inner) (depth : Nat) :
    TidyPhrase (trailing inner depth) :=
  (tidy_primary h depth).bind fun e => .remaining_bind (trailers_unbounded h depth e)
    fun _ => tidy_trailers h depth _ e

/-! ### Operators -/

theorem tidy_leading {inner : Option Inner} (h : TidyWithin inner) (depth : Nat) :
    TidyPhrase (leading inner depth) := by
  refine (Tidy.accept fun _ => inPhrase_of_isLeading).bind fun found => ?_
  cases found with
  | some _ => exact (tidy_descend h depth fun _ _ _ hl => hl).bind fun _ => .pure _
  | none => exact tidy_trailing h depth

section Chains

variable {operand : Nat → Read Expr} {operators : TokenKind → Bool}

theorem tidy_chainRest (h : ∀ d, TidyPhrase (operand d))
    (hoperators : ∀ k, operators k = true → k.inPhrase = true) (fuel depth : Nat) (e : Expr) :
    TidyPhrase (chainRest operand operators fuel depth e) := by
  induction fuel generalizing depth e with
  | zero => exact .pure _
  | succ fuel ih =>
      refine (Tidy.accept hoperators).bind fun found => ?_
      cases found with
      | none => exact .pure _
      | some t =>
          refine fun k => .ite (fun _ => ?_) fun _ => (h _).bind (fun _ => ih _ _) k
          exact ⟨fun ts _ => ⟨.refl ts, fun _ us stop _ _ heq => by cases heq; trivial⟩,
            fun _ _ _ _ _ _ _ _ hrun => by cases hrun⟩

theorem chainRest_unbounded (h : ∀ d, TidyPhrase (operand d)) (hend : operators .endOfInput = false)
    (depth : Nat) (e : Expr) :
    Unbounded List.length fun n => chainRest operand operators n depth e := by
  refine unbounded_of_rounds List.length
    (fun (p : Nat × Expr) n => chainRest operand operators n p.1 p.2) (fun p n ts hts => ?_)
    (fun p n m ts _ ih => ?_) (depth, e)
  · rw [List.length_eq_zero_iff.mp hts]
    cases n with
    | zero => rfl
    | succ n =>
        have hnone : accept operators [] = .ok none [] := accept_none hend
        exact bind_ok hnone
  · refine bind_congr_at fun found us hfound => ?_
    cases found with
    | none => rfl
    | some operator =>
        dsimp only
        split
        · rfl
        · refine bind_congr_at fun right vs hright =>
            ih (p.1 + 1, .binary p.2.location operator.text p.2 right) vs ?_
          exact Nat.lt_of_le_of_lt ((h _).takes.passes_ok hright).length_le
            (accept_length hend hfound)

theorem tidy_chains (h : ∀ d, TidyPhrase (operand d)) {levels : List (List TokenKind)}
    (hlevels : ∀ operators ∈ levels, ∀ k ∈ operators, k.inPhrase = true) (depth : Nat) :
    TidyPhrase (chains operand levels depth) := by
  induction levels generalizing depth with
  | nil => exact h depth
  | cons operators tighter ih =>
      obtain ⟨hoperators, htighter⟩ := List.forall_mem_cons.mp hlevels
      have hin : ∀ k, operators.contains k = true → k.inPhrase = true := fun k hk =>
        hoperators k (by simpa using hk)
      have hend : operators.contains .endOfInput = false := by
        rw [← Bool.not_eq_true]
        exact fun hmem => absurd (hin _ hmem) (by decide)
      refine (ih htighter depth).bind fun e => .remaining_bind
        (chainRest_unbounded (ih htighter) hend depth e) fun _ =>
          tidy_chainRest (ih htighter) hin _ _ _

end Chains

theorem tidy_assignment {inner : Option Inner} (h : TidyWithin inner) (depth : Nat) :
    TidyPhrase (assignment inner depth) := by
  refine (tidy_chains (tidy_leading h) (by decide) depth).bind fun _ =>
    (Tidy.accept fun k hk => ?_).bind fun found => ?_
  · exact TokenKind.inPhrase_of_joins (by rw [TokenKind.joins_of_isAssignment hk]; decide)
  · cases found with
    | none => exact .pure _
    | some _ => exact (tidy_descend h depth fun _ _ he _ => he).bind fun _ => .pure _

theorem tidyWithin_inner? (n : Nat) : TidyWithin (inner? n) := by
  induction n with
  | zero =>
      intro i hi
      cases hi
  | succ n ih =>
      intro i hi depth
      cases hi
      exact ⟨tidy_assignment ih depth, tidy_leading ih depth⟩

theorem tidy_expression (levelsLeft depth : Nat) : TidyPhrase (expression levelsLeft depth) :=
  tidy_assignment (tidyWithin_inner? levelsLeft) depth

end ExprGrammar

end InoBlocks
