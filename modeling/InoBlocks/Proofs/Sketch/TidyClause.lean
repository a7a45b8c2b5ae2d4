import InoBlocks.Proofs.Sketch.Tidy

/-!
# What clauses take

The parts of statements that hold no statements: conditions, loop headers, declarations, and
expressions with their semicolon.  Each is tidy, and each ends with a token that it asks for, so
that nothing behind that token matters to it.
-/

namespace InoBlocks

open Read ExprGrammar Grammar

namespace TokenKind

/-- Whether a token is a word of the sketch, and not the mark of its end. -/
def isWord (kind : TokenKind) : Bool :=
  kind != .endOfInput

theorem isWord_of_inPhrase {kind : TokenKind} (h : kind.inPhrase = true) :
    kind.isWord = true := by
  cases kind <;> first | rfl | exact absurd h (by decide)

theorem isWord_of_beginsType {kind : TokenKind} (h : kind.beginsType = true) :
    kind.isWord = true := by
  cases kind <;> first | rfl | exact absurd h (by decide)

end TokenKind

/-! ## Closed readers -/

/-- A tidy reader that takes a token whenever it succeeds, and to which nothing matters behind
the last token that it takes. -/
structure Closed {α : Type} (allowed : TokenKind → Bool) (x : Read α) : Prop where
  takes : Takes allowed x
  shrinks : ∀ ts a us, x ts = .ok a us → us.length < ts.length
  framed : ∀ ts q u u' a, x (ts ++ u) = .ok a (q ++ u) → x (ts ++ u') = .ok a (q ++ u')

namespace Closed

variable {α β : Type} {allowed : TokenKind → Bool}

theorem tidy {x : Read α} (h : Closed allowed x) : Tidy allowed x :=
  fun k => ⟨h.takes k, fun t ts _ q u u' a _ => h.framed (t :: ts) q u u' a⟩

/-- Whatever is read before a closed reader, nothing behind the closed reader matters. -/
theorem bind {x : Read α} {f : α → Read β} (hx : Tidy allowed x)
    (hf : ∀ a, Closed allowed (f a)) : Closed allowed (x >>= f) := by
  refine ⟨hx.takes.bind fun a => (hf a).takes, fun ts b us hrun => ?_,
    fun ts q u u' b hrun => ?_⟩
  · obtain ⟨a, mid, hmid, hrest⟩ := bind_eq_ok hrun
    exact Nat.lt_of_lt_of_le ((hf a).shrinks mid b us hrest) (hx.takes.passes_ok hmid).length_le
  · obtain ⟨a, mid, hmid, hrest⟩ := bind_eq_ok hrun
    have hshrinks := (hf a).shrinks mid b _ hrest
    obtain ⟨front, rfl, -⟩ := (hf a).takes.passes_ok hrest
    rw [← List.append_assoc] at hmid hrest hshrinks
    have hne : front ++ q ≠ [] := by
      intro hnil
      rw [hnil, List.nil_append, List.length_append] at hshrinks
      omega
    rw [bind_ok (hx.frame hne hmid u')]
    exact (hf a).framed _ q u u' b hrest

theorem expect {k : TokenKind} (h : allowed k = true) (hend : k ≠ .endOfInput) {what : String}
    (hwhat : what ≠ "'\x7d' before end of input") : Closed allowed (expect k what) := by
  refine ⟨(Tidy.expect h hwhat).takes, fun ts t us hrun => ?_, fun ts q u u' t hrun => ?_⟩
  · obtain ⟨rfl, -⟩ := expect_eq_ok hend hrun
    exact Nat.lt_succ_self _
  · obtain ⟨hts, ht⟩ := expect_eq_ok hend hrun
    rw [← List.cons_append] at hts
    rw [List.append_cancel_right hts]
    exact expect_of_kind ht hend what

theorem map {x : Read α} (h : Closed allowed x) (g : α → β) :
    Closed allowed (x >>= fun a => Pure.pure (g a)) := by
  refine ⟨h.takes.bind fun a => Takes.pure _, fun ts b us hrun => ?_, fun ts q u u' b hrun => ?_⟩
  · obtain ⟨a, mid, hmid, hrest⟩ := bind_eq_ok hrun
    cases hrest
    exact h.shrinks ts a us hmid
  · obtain ⟨a, mid, hmid, hrest⟩ := bind_eq_ok hrun
    cases hrest
    rw [bind_ok (h.framed ts q u u' a hmid)]
    rfl

theorem ite {p : Prop} [Decidable p] {x y : Read α} (hx : Closed allowed x)
    (hy : Closed allowed y) : Closed allowed (if p then x else y) := by
  by_cases hp : p
  · rw [if_pos hp]
    exact hx
  · rw [if_neg hp]
    exact hy

end Closed

/-! ## Types -/

section Types

variable {allowed : TokenKind → Bool}

theorem Tidy.peek : Tidy allowed peek :=
  fun k => ⟨Takes.still (fun _ => ⟨_, rfl⟩) k, .still fun _ _ _ => rfl⟩

theorem Tidy.advance : Tidy TokenKind.isWord advance :=
  fun _ => .advance fun hk => by simpa [TokenKind.isWord] using hk

theorem typeLength_cons (t : Token) (ts : List Token) :
    typeLength 0 (t :: ts) =
      if t.kind == .unsigned then if (kindAt 0 ts).namesType then 2 else 1
      else if t.kind.namesType then 1 else 0 :=
  rfl

theorem typeLength_ne_zero (t : Token) (ts : List Token) :
    (typeLength 0 (t :: ts) != 0) = t.kind.beginsType := by
  rw [typeLength_cons]
  cases hk : t.kind <;> cases (kindAt 0 ts).namesType <;> rfl

theorem Tidy.atType : Tidy allowed atType :=
  fun k => ⟨Takes.still (fun _ => ⟨_, rfl⟩) k, .still fun t us _ =>
    congrArg (EStateM.Result.ok · (t :: us)) (typeLength_ne_zero t us)⟩

theorem advanceMany_append {words : List Token} (h : ∀ t ∈ words, t.kind ≠ .endOfInput)
    (ts : List Token) : advanceMany words.length (words ++ ts) = .ok words ts := by
  induction words with
  | nil => rfl
  | cons t words ih =>
      obtain ⟨ht, hwords⟩ := List.forall_mem_cons.mp h
      rw [List.length_cons, advanceMany, List.cons_append, bind_ok (advance_cons ht),
        bind_ok (ih hwords)]
      rfl

theorem typeSpecifier_append (words : List Token) {ts : List Token} (hne : words ≠ [])
    (hlength : typeLength 0 (words ++ ts) = words.length)
    (h : ∀ t ∈ words, t.kind ≠ .endOfInput) :
    typeSpecifier (words ++ ts) = .ok (" ".intercalate (words.map Token.text)) ts := by
  have hif : typeSpecifier (words ++ ts) =
      (if typeLength 0 (words ++ ts) = 0 then unexpected "type name"
        else advanceMany (typeLength 0 (words ++ ts)) >>= fun words =>
          pure (" ".intercalate (words.map Token.text))) (words ++ ts) := rfl
  have hpos := List.length_pos_iff.mpr hne
  rw [hif, hlength, if_neg (by omega), bind_ok (advanceMany_append h ts)]
  rfl

theorem typeSpecifier_none {t : Token} (h : t.kind.beginsType = false) (ts : List Token) :
    typeSpecifier (t :: ts) = unexpected "type name" (t :: ts) := by
  have hlength : typeLength 0 (t :: ts) = 0 := by
    have := typeLength_ne_zero t ts
    simpa [h] using this
  change (if typeLength 0 (t :: ts) = 0 then unexpected "type name" else _) (t :: ts) = _
  rw [if_pos hlength]

theorem typeSpecifier_one {t : Token} {ts : List Token} (h : t.kind.beginsType = true)
    (hnext : t.kind = .unsigned → (kindAt 0 ts).namesType = false) :
    typeSpecifier (t :: ts) = .ok t.text ts := by
  have hend : t.kind ≠ .endOfInput := fun hend => by
    rw [hend] at h
    cases h
  refine typeSpecifier_append [t] (by simp) ?_ (by simpa using hend)
  by_cases hunsigned : t.kind = .unsigned
  · simp [typeLength_cons, hunsigned, hnext hunsigned]
  · simpa [typeLength_cons, TokenKind.beginsType, hunsigned] using h

theorem typeSpecifier_two {t t' : Token} (h : t.kind = .unsigned) (h' : t'.kind.namesType = true)
    (ts : List Token) :
    typeSpecifier (t :: t' :: ts) = .ok (" ".intercalate [t.text, t'.text]) ts := by
  refine typeSpecifier_append [t, t'] (by simp) (by simp [typeLength_cons, h, h']) ?_
  simp only [List.mem_cons, List.not_mem_nil, or_false, forall_eq_or_imp, forall_eq]
  refine ⟨by simp [h], fun hend => ?_⟩
  rw [hend] at h'
  cases h'

/-- What a type is made of: a word that begins it, and after `unsigned` a word that names a type,
if there is one. -/
theorem type_cases (t : Token) (ts : List Token) :
    t.kind.beginsType = false ∨
    (t.kind.beginsType = true ∧ (t.kind = .unsigned → (kindAt 0 ts).namesType = false)) ∨
    (t.kind = .unsigned ∧ ∃ t' us, ts = t' :: us ∧ t'.kind.namesType = true) := by
  cases hbegins : t.kind.beginsType with
  | false => exact Or.inl rfl
  | true =>
      by_cases hnext : t.kind = .unsigned → (kindAt 0 ts).namesType = false
      · exact Or.inr (Or.inl ⟨rfl, hnext⟩)
      · obtain ⟨hunsigned, hnames⟩ := Classical.not_imp.mp hnext
        cases ts with
        | nil => exact absurd rfl hnames
        | cons t' us => exact Or.inr (Or.inr ⟨hunsigned, t', us, rfl, by simpa using hnames⟩)

theorem Tidy.typeSpecifier : Tidy TokenKind.beginsType typeSpecifier := by
  have hnamed : ∀ {k : TokenKind}, k.namesType = true → k.beginsType = true := fun h => by
    rw [TokenKind.beginsType, h, Bool.true_or]
  refine fun k => ⟨fun ts _ => ?_, fun t ts _ q u u' a hq hrun => ?_⟩
  · cases ts with
    | nil => exact ⟨.refl [], fun _ us stop _ _ heq => by cases heq; trivial⟩
    | cons t ts =>
        rcases type_cases t ts with h | ⟨h, hnext⟩ | ⟨h, t', us, rfl, h'⟩
        · rw [typeSpecifier_none h]
          exact (Tidy.unexpected "type name").takes _ _ rfl
        · rw [typeSpecifier_one h hnext]
          exact ⟨.cons h, fun _ us stop _ _ heq => by cases heq⟩
        · rw [typeSpecifier_two h h']
          exact ⟨.trans (.cons (by rw [h]; rfl)) (.cons (hnamed h')),
            fun _ us stop _ _ heq => by cases heq⟩
  · obtain ⟨t₁, q, rfl⟩ := List.exists_cons_of_ne_nil hq
    rw [List.cons_append] at hrun ⊢
    rcases type_cases t (ts ++ u) with h | ⟨h, hnext⟩ | ⟨h, t', us, hts, h'⟩
    · rw [typeSpecifier_none h] at hrun
      cases hrun
    · rw [typeSpecifier_one h hnext] at hrun
      injection hrun with ha hrest
      rw [List.append_cancel_right hrest] at hnext ⊢
      rw [← ha]
      exact typeSpecifier_one h hnext
    · rw [hts, typeSpecifier_two h h'] at hrun
      injection hrun with ha hrest
      rw [hrest, ← List.cons_append] at hts
      rw [List.append_cancel_right hts, List.cons_append, typeSpecifier_two h h', ha]

end Types

/-! ## Clauses -/

section Clauses

variable {x : Read Expr}

theorem tidy_unlessAt (h : TidyPhrase x) (kind : TokenKind) : TidyPhrase (unlessAt kind x) :=
  fun k => .peekKind_bind <| .ite (fun _ => Tidy.pure _ k) fun _ => h k

theorem tidy_initialValue (h : TidyPhrase x) : TidyPhrase (initialValue x) := by
  refine (Tidy.acceptKind rfl).bind fun found => ?_
  cases found with
  | none => exact .pure _
  | some _ => exact h

theorem tidy_bareInit (h : TidyPhrase x) : TidyPhrase (bareInit x) :=
  fun k => .peekKind_bind <| .ite (fun _ => Tidy.pure _ k) fun _ =>
    h.bind (fun _ => .pure _) k

theorem closed_end {α : Type} {kind : TokenKind} (hend : kind ≠ .endOfInput) {what : String}
    (hwhat : what ≠ "'\x7d' before end of input") (a : α) :
    Closed TokenKind.isWord (expect kind what >>= fun _ => pure a) :=
  (Closed.expect (by simpa [TokenKind.isWord] using hend) hend hwhat).map fun _ => a

theorem closed_declaration (h : TidyPhrase x) : Closed TokenKind.isWord (declaration x) := by
  refine .bind .peek fun _ => .bind (Tidy.typeSpecifier.mono fun _ => TokenKind.isWord_of_beginsType)
    fun _ => .bind (Tidy.expect rfl (by decide)) fun _ => ?_
  exact .bind ((tidy_initialValue h).mono fun _ => TokenKind.isWord_of_inPhrase) fun _ =>
    closed_end (by decide) (by decide) _

theorem closed_exit (h : TidyPhrase x) : Closed TokenKind.isWord (exit x) :=
  .bind .advance fun _ => .bind ((tidy_unlessAt h _).mono fun _ => TokenKind.isWord_of_inPhrase)
    fun _ => closed_end (by decide) (by decide) _

theorem closed_effect (h : TidyPhrase x) : Closed TokenKind.isWord (effect x) :=
  .bind .peek fun _ => .bind (h.mono fun _ => TokenKind.isWord_of_inPhrase) fun _ =>
    closed_end (by decide) (by decide) _

theorem closed_condition (h : TidyPhrase x) {opening closing : String}
    (hopening : opening ≠ "'\x7d' before end of input")
    (hclosing : closing ≠ "'\x7d' before end of input") :
    Closed TokenKind.isWord (condition x opening closing) :=
  .bind (Tidy.expect rfl hopening) fun _ =>
    .bind (h.mono fun _ => TokenKind.isWord_of_inPhrase) fun _ => closed_end (by decide) hclosing _

theorem closed_loopInit (h : TidyPhrase x) : Closed TokenKind.isWord (loopInit x) :=
  .bind .atType fun _ => .ite (closed_declaration h) <|
    .bind ((tidy_bareInit h).mono fun _ => TokenKind.isWord_of_inPhrase) fun _ =>
      closed_end (by decide) (by decide) _

theorem closed_loopHeader (h : TidyPhrase x) : Closed TokenKind.isWord (loopHeader x) := by
  have hunless : ∀ kind, Tidy TokenKind.isWord (unlessAt kind x) := fun kind =>
    (tidy_unlessAt h kind).mono fun _ => TokenKind.isWord_of_inPhrase
  refine .bind (Tidy.expect rfl (by decide)) fun _ => .bind (closed_loopInit h).tidy fun _ => ?_
  refine .bind (hunless _) fun _ => .bind (Tidy.expect rfl (by decide)) fun _ => ?_
  exact .bind (hunless _) fun _ => closed_end (by decide) (by decide) _

end Clauses

/-! ## Parameters -/

theorem takes_parameter : Takes TokenKind.isWord parameter :=
  Tidy.peek.takes.bind fun _ =>
    (Tidy.typeSpecifier.takes.mono fun _ => TokenKind.isWord_of_beginsType).bind fun _ =>
      (Tidy.expect rfl (by decide)).takes.bind fun _ => .pure _

theorem takes_moreParameters (fuel : Nat) : Takes TokenKind.isWord (moreParameters fuel) := by
  induction fuel with
  | zero => exact .pure _
  | succ fuel ih =>
      refine (Tidy.acceptKind rfl).takes.bind fun found => ?_
      cases found with
      | none => exact .pure _
      | some _ => exact takes_parameter.bind fun _ => ih.bind fun _ => .pure _

/-- The parameters of a function are read to their end, however many steps there are. -/
theorem moreParameters_unbounded : Unbounded List.length moreParameters := by
  refine unbounded_of_rounds List.length (fun (_ : Unit) n => moreParameters n)
    (fun _ n ts hts => ?_) (fun _ n m ts _ ih => ?_) ()
  · rw [List.length_eq_zero_iff.mp hts]
    cases n <;> rfl
  · refine bind_congr_at fun found us hfound => ?_
    cases found with
    | none => rfl
    | some _ =>
        refine bind_congr_at fun p vs hp => bind_congr_left (ih () vs ?_)
        exact Nat.lt_of_le_of_lt (takes_parameter.passes_ok hp).length_le
          (accept_length (by decide) hfound)

theorem takes_parameters : Takes TokenKind.isWord parameters := by
  have hkind : ∀ n, Takes TokenKind.isWord (peekKind n) := fun n => .still fun _ => ⟨_, rfl⟩
  have hcount : Takes TokenKind.isWord remaining := .still fun _ => ⟨_, rfl⟩
  refine (hkind 0).bind fun _ => (hkind 1).bind fun _ => fun k => .ite (fun _ => ?_) fun _ =>
    .ite (fun _ => Takes.pure _ k) fun _ => ?_
  · exact Tidy.advance.takes.bind (fun _ => .pure _) k
  · exact takes_parameter.bind (fun _ => hcount.bind fun _ =>
      (takes_moreParameters _).bind fun _ => .pure _) k

theorem takes_parameterList : Takes TokenKind.isWord parameterList :=
  (Tidy.expect rfl (by decide)).takes.bind fun _ => takes_parameters.bind fun _ =>
    (Tidy.expect rfl (by decide)).takes.bind fun _ => .pure _

/-! ## Skipping -/

theorem passes_skipToBoundary (ts : List Token) :
    Passes TokenKind.isWord ts (skipToBoundary ts) := by
  induction ts with
  | nil => exact .refl []
  | cons t ts ih =>
      rw [skipToBoundary]
      split
      · exact .refl _
      · exact .refl _
      · rename_i hkind
        exact .cons (by rw [hkind]; rfl)
      · rename_i hend _ _
        exact .trans (.cons (by simpa [TokenKind.isWord] using hend)) ih

/-- In front of a token that ends no block, something is skipped. -/
theorem skipToBoundary_length {t : Token} {ts : List Token} (hbrace : t.kind ≠ .rightBrace)
    (hend : t.kind ≠ .endOfInput) : (skipToBoundary (t :: ts)).length < (t :: ts).length := by
  rw [skipToBoundary]
  split
  · contradiction
  · contradiction
  · exact Nat.lt_succ_self _
  · exact Nat.lt_succ_of_le (passes_skipToBoundary ts).length_le

theorem passes_skipSemicolons (ts : List Token) :
    Passes TokenKind.isWord ts (skipSemicolons ts) := by
  induction ts with
  | nil => exact .refl []
  | cons t ts ih =>
      rw [skipSemicolons]
      split
      · rename_i hkind
        exact .trans (.cons (by rw [hkind]; rfl)) ih
      · exact .refl _

end InoBlocks
