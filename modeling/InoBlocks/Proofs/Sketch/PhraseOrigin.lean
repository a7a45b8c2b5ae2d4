import InoBlocks.Proofs.Sketch.PhraseReading

/-!
# What is read is a phrase

The converse of reading phrases: whatever the readers of expressions take from the front of a
list of tokens is a phrase of their strength, and its expression is what they return.
-/

namespace InoBlocks

namespace ExprGrammar

open Read

def Origin (n : Nat) (ts : List Token) (e : Expr) (rest : List Token) : Prop :=
  ∃ us, ts = us ++ rest ∧ Phrase n (us.map Token.word) e

def Sound (n : Nat) (x : Read Expr) : Prop :=
  ∀ ts e rest, x ts = .ok e rest → Origin n ts e rest

theorem Origin.loosen {n : Nat} {ts rest : List Token} {e : Expr} (hn : 1 ≤ n)
    (h : Origin (n + 1) ts e rest) : Origin n ts e rest := by
  obtain ⟨us, hts, hphrase⟩ := h
  exact ⟨us, hts, .loosen hn hphrase⟩

/-- What goes down a level of nesting, if it is read at all, is read there. -/
theorem descend_eq_ok {α : Type} {k depth : Nat} {body : Inner → Nat → Read α} {ts rest : List Token}
    {a : α} (h : descend (inner? k) depth body ts = .ok a rest) :
    ∃ k', k = k' + 1 ∧ body ⟨reader k' 1, reader k' 8⟩ (depth + 1) ts = .ok a rest := by
  rcases descend_cases k depth body [] ts with ⟨fault, vs, -, -, hdeep⟩ | ⟨k', hk, hd⟩
  · rw [List.nil_append, h] at hdeep
    cases hdeep
  · exact ⟨k', hk, by rw [← hd, h]⟩

/-! ## Primaries -/

theorem primary_sound {k depth : Nat} (hinner : ∀ k', k = k' + 1 → ∀ d, Sound 1 (reader k' 1 d)) :
    Sound 10 (primary (inner? k) depth) := by
  intro ts e rest h
  cases ts with
  | nil => cases h
  | cons t ts =>
      by_cases hident : t.kind = .identifier
      · rw [primary_identifier hident] at h
        cases h
        refine ⟨[t], rfl, ?_⟩
        have hword : [t].map Token.word = [⟨.identifier, t.text⟩] := by
          rw [List.map_singleton, Token.word, hident]
        rw [hword, nameOrPin]
        cases hpin : isAnalogPin t.text with
        | true => exact .pin _ hpin
        | false => exact .name _ hpin
      · by_cases hnumber : t.kind = .number
        · cases hvalue : Number.double? t.text with
          | none =>
              rw [primary, bind_ok (peek_cons t ts)] at h
              simp only [hnumber] at h
              rw [bind_ok (advance_cons (by rw [hnumber]; decide)), number, hvalue] at h
              cases h
          | some value =>
              rw [primary_number hnumber hvalue] at h
              cases h
              refine ⟨[t], rfl, ?_⟩
              have hword : [t].map Token.word = [⟨.number, t.text⟩] := by
                rw [List.map_singleton, Token.word, hnumber]
              rw [hword]
              exact .number _ hvalue
        · by_cases hstring : t.kind = .string
          · rw [primary_string hstring] at h
            cases h
            refine ⟨[t], rfl, ?_⟩
            have hword : [t].map Token.word = [⟨.string, t.text⟩] := by
              rw [List.map_singleton, Token.word, hstring]
            rw [hword]
            exact .string _ _
          · by_cases hconstant : t.kind.namesValue = true
            · rw [primary_constant hconstant] at h
              cases h
              exact ⟨[t], rfl, .constant _ _ hconstant⟩
            · by_cases hleft : t.kind = .leftParen
              · rw [primary_group _ _ _ hleft] at h
                obtain ⟨e', ts₁, hdown, h⟩ := bind_eq_ok h
                obtain ⟨r, ts₂, hexpect, h⟩ := bind_eq_ok h
                cases h
                obtain ⟨k', hk, hdown⟩ := descend_eq_ok hdown
                obtain ⟨us, rfl, hphrase⟩ := hinner k' hk _ _ _ _ hdown
                obtain ⟨rfl, hr⟩ := expect_eq_ok (by decide) hexpect
                refine ⟨t :: us ++ [r], by simp, ?_⟩
                rw [List.map_append, List.map_cons]
                exact .group hleft hr hphrase
              · have hother : primary (inner? k) depth (t :: ts) =
                    unexpected "expression" (t :: ts) := by
                  rw [primary, bind_ok (peek_cons t ts)]
                  cases hkind : t.kind <;>
                    first
                    | rfl
                    | contradiction
                    | exact absurd (by rw [hkind]; rfl) hconstant
                rw [hother] at h
                cases h

/-! ## Arguments -/

def ListOrigin (ts : List Token) (es : List Expr) (rest : List Token) : Prop :=
  ∃ us items, ts = us ++ rest ∧ Listed items (us.map Token.word) ∧ es = items.map Prod.snd ∧
    ∀ a ∈ items, Phrase 1 a.1 a.2

/-- What is read of the arguments after the first: nothing, or a comma and a list of phrases. -/
def MoreOrigin (ts : List Token) (es : List Expr) (rest : List Token) : Prop :=
  (es = [] ∧ ts = rest) ∨
  ∃ comma us, ts = comma :: us ∧ comma.kind = .comma ∧ es ≠ [] ∧ ListOrigin us es rest

theorem ListOrigin.cons {ts mid rest : List Token} {e : Expr} {es : List Expr}
    (h : Origin 1 ts e mid) (hmore : MoreOrigin mid es rest) : ListOrigin ts (e :: es) rest := by
  obtain ⟨us, rfl, hphrase⟩ := h
  rcases hmore with ⟨rfl, rfl⟩ | ⟨comma, us', rfl, hcomma, hne, vs, items, rfl, hlist, rfl, hitems⟩
  · exact ⟨us, [(us.map Token.word, e)], rfl, .one _, rfl, by simpa using hphrase⟩
  · cases items with
    | nil => exact absurd rfl hne
    | cons b items =>
        refine ⟨us ++ comma :: vs, (us.map Token.word, e) :: b :: items, by simp, ?_, rfl, ?_⟩
        · rw [List.map_append, List.map_cons]
          exact .more (us.map Token.word, e) b hcomma hlist
        · intro a ha
          rcases List.mem_cons.mp ha with rfl | ha
          · exact hphrase
          · exact hitems a ha

theorem moreArguments_sound {x : Read Expr} (hx : Sound 1 x) {fuel : Nat} {ts rest : List Token}
    {es : List Expr} (h : moreArguments x fuel ts = .ok es rest) : MoreOrigin ts es rest := by
  induction fuel generalizing ts es with
  | zero =>
      cases h
      exact Or.inl ⟨rfl, rfl⟩
  | succ fuel ih =>
      rw [moreArguments] at h
      obtain ⟨found, ts₁, haccept, hfound⟩ := bind_eq_ok h
      rcases accept_eq_ok haccept with ⟨rfl, rfl, -⟩ | ⟨comma, rfl, rfl, hcomma, -⟩ | habsurd
      · cases hfound
        exact Or.inl ⟨rfl, rfl⟩
      · dsimp only at hfound
        obtain ⟨e, ts₂, hfirst, hfound⟩ := bind_eq_ok hfound
        obtain ⟨es', ts₃, hmore, hfound⟩ := bind_eq_ok hfound
        cases hfound
        exact Or.inr ⟨comma, _, rfl, by simpa using hcomma, by simp,
          .cons (hx _ _ _ hfirst) (ih hmore)⟩
      · cases habsurd

theorem arguments_sound {x : Read Expr} (hx : Sound 1 x) {ts rest : List Token} {es : List Expr}
    (h : arguments x ts = .ok es rest) : ListOrigin ts es rest := by
  rw [arguments, bind_ok (peekKind_apply 0 ts)] at h
  by_cases hkind : (kindAt 0 ts == .rightParen) = true
  · rw [if_pos hkind] at h
    cases h
    exact ⟨[], [], rfl, .none, rfl, by simp⟩
  · rw [if_neg hkind] at h
    obtain ⟨e, ts₁, hfirst, h⟩ := bind_eq_ok h
    rw [bind_ok (remaining_apply ts₁)] at h
    obtain ⟨es', ts₂, hmore, h⟩ := bind_eq_ok h
    cases h
    exact .cons (hx _ _ _ hfirst) (moreArguments_sound hx hmore)

/-! ## Trailing operators -/

theorem trailers_sound {k depth : Nat} (hinner : ∀ k', k = k' + 1 → ∀ d, Sound 1 (reader k' 1 d))
    {fuel : Nat} {ts mid rest : List Token} {e e' : Expr} (hstart : Origin 9 ts e mid)
    (h : trailers (inner? k) depth fuel e mid = .ok e' rest) : Origin 9 ts e' rest := by
  induction fuel generalizing mid e with
  | zero =>
      cases h
      exact hstart
  | succ fuel ih =>
      obtain ⟨us, rfl, hphrase⟩ := hstart
      have hmid : ∀ {kind : TokenKind}, kindAt 0 mid = kind → kind ≠ .endOfInput →
          ∃ t mid', mid = t :: mid' := fun hkind hend => exists_cons_of_kindAt (hkind ▸ hend)
      by_cases hleft : kindAt 0 mid = .leftParen
      · obtain ⟨l, mid', rfl⟩ := hmid hleft (by decide)
        rw [trailers_call hleft] at h
        obtain ⟨es, ts₁, hdown, hclose⟩ := bind_eq_ok h
        obtain ⟨r, ts₂, hexpect, hgo⟩ := bind_eq_ok hclose
        obtain ⟨k', hk, hargs⟩ := descend_eq_ok hdown
        obtain ⟨vs, items, rfl, hlist, rfl, hitems⟩ := arguments_sound (hinner k' hk _) hargs
        obtain ⟨rfl, hr⟩ := expect_eq_ok (by decide) hexpect
        refine ih ⟨us ++ l :: vs ++ [r], by simp, ?_⟩ hgo
        rw [List.map_append, List.map_append, List.map_cons]
        exact .call _ hleft hr hphrase hlist hitems
      · by_cases hdot : kindAt 0 mid = .dot
        · obtain ⟨d, mid', rfl⟩ := hmid hdot (by decide)
          have hd : d.kind = .dot := hdot
          rw [trailers, bind_ok (peekKind_apply 0 _), kindAt_cons, hd, if_neg (by decide),
            if_pos (by decide), bind_ok (advance_cons (by rw [hd]; decide))] at h
          obtain ⟨p, ts₁, hexpect, hgo⟩ := bind_eq_ok h
          obtain ⟨rfl, hp⟩ := expect_eq_ok (by decide) hexpect
          refine ih ⟨us ++ [d, p], by simp, ?_⟩ hgo
          rw [List.map_append]
          exact .member _ hd hp hphrase
        · by_cases hstep : isTrailing (kindAt 0 mid) = true
          · obtain ⟨o, mid', rfl⟩ := hmid rfl (by intro hend; rw [hend] at hstep; cases hstep)
            rw [trailers_step hstep] at h
            refine ih ⟨us ++ [o], by simp, ?_⟩ h
            rw [List.map_append]
            exact .step _ hstep hphrase
          · rw [trailers, bind_ok (peekKind_apply 0 _), if_neg (by simpa using hleft),
              if_neg (by simpa using hdot), if_neg hstep] at h
            cases h
            exact ⟨us, rfl, hphrase⟩

/-! ## Operators -/

theorem leading_sound {k depth : Nat} (hinner : ∀ k', k = k' + 1 → ∀ d, Sound 8 (reader k' 8 d))
    (htrailing : Sound 9 (reader k 9 depth)) : Sound 8 (reader k 8 depth) := by
  intro ts e rest h
  rw [reader_leading, leading] at h
  obtain ⟨found, ts₁, haccept, hfound⟩ := bind_eq_ok h
  rcases accept_eq_ok haccept with ⟨rfl, rfl, -⟩ | ⟨o, rfl, rfl, ho, -⟩ | habsurd
  · exact (htrailing _ _ _ hfound).loosen (by decide)
  · dsimp only at hfound
    obtain ⟨e', ts₂, hdown, hend⟩ := bind_eq_ok hfound
    cases hend
    obtain ⟨k', hk, hread⟩ := descend_eq_ok hdown
    obtain ⟨us, rfl, hphrase⟩ := hinner k' hk _ _ _ _ hread
    exact ⟨o :: us, rfl, .leading _ ho hphrase⟩
  · cases habsurd

theorem chainRest_sound {k n : Nat} (hlow : 2 ≤ n) (hhigh : n ≤ 7)
    (hoperand : ∀ d, Sound (n + 1) (reader k (n + 1) d)) {fuel depth : Nat}
    {ts mid rest : List Token} {e e' : Expr} (hstart : Origin n ts e mid)
    (h : chainRest (reader k (n + 1)) (fun kind => kind.joins == n) fuel depth e mid =
      .ok e' rest) : Origin n ts e' rest := by
  induction fuel generalizing mid e depth with
  | zero =>
      cases h
      exact hstart
  | succ fuel ih =>
      rw [chainRest] at h
      obtain ⟨found, ts₁, haccept, hfound⟩ := bind_eq_ok h
      rcases accept_eq_ok haccept with ⟨rfl, rfl, -⟩ | ⟨o, rfl, rfl, ho, -⟩ | habsurd
      · cases hfound
        exact hstart
      · dsimp only at hfound
        by_cases hdepth : maxTreeDepth ≤ depth
        · rw [if_pos hdepth] at hfound
          cases hfound
        · rw [if_neg hdepth] at hfound
          obtain ⟨right, ts₂, hright, hgo⟩ := bind_eq_ok hfound
          obtain ⟨us, rfl, hphrase⟩ := hstart
          obtain ⟨vs, rfl, hphrase'⟩ := hoperand _ _ _ _ hright
          refine ih ⟨us ++ o :: vs, by simp, ?_⟩ hgo
          rw [List.map_append, List.map_cons]
          exact .binary _ hlow hhigh (by simpa using ho) hphrase hphrase'
      · rw [beq_iff_eq] at habsurd
        change 0 = n at habsurd
        omega

theorem assignment_sound {k depth : Nat}
    (hinner : ∀ k', k = k' + 1 → ∀ d, Sound 1 (reader k' 1 d))
    (hoperand : Sound 2 (reader k 2 depth)) : Sound 1 (reader k 1 depth) := by
  intro ts e rest h
  rw [reader_assignment] at h
  obtain ⟨target, ts₁, htarget, hgo⟩ := bind_eq_ok h
  obtain ⟨us, rfl, hphrase⟩ := hoperand _ _ _ htarget
  obtain ⟨found, ts₂, haccept, hfound⟩ := bind_eq_ok hgo
  rcases accept_eq_ok haccept with ⟨rfl, rfl, -⟩ | ⟨o, rfl, rfl, ho, -⟩ | habsurd
  · cases hfound
    exact ⟨us, rfl, .loosen (by decide) hphrase⟩
  · dsimp only at hfound
    obtain ⟨value, ts₃, hdown, hend⟩ := bind_eq_ok hfound
    cases hend
    obtain ⟨k', hk, hread⟩ := descend_eq_ok hdown
    obtain ⟨vs, rfl, hphrase'⟩ := hinner k' hk _ _ _ _ hread
    refine ⟨us ++ o :: vs, by simp, ?_⟩
    rw [List.map_append, List.map_cons]
    exact .assign _ ho hphrase hphrase'
  · cases habsurd

/-! ## Expressions -/

/-- The readers of all strengths return phrases, if those a level of nesting below do. -/
theorem reader_sound_step {k : Nat}
    (hinner : ∀ k', k = k' + 1 → ∀ n, 1 ≤ n → n ≤ 10 → ∀ d, Sound n (reader k' n d)) :
    ∀ n, 1 ≤ n → n ≤ 10 → ∀ depth, Sound n (reader k n depth) := by
  have hassign : ∀ k', k = k' + 1 → ∀ d, Sound 1 (reader k' 1 d) :=
    fun k' hk => hinner k' hk 1 (by decide) (by decide)
  have hprimary : ∀ depth, Sound 10 (reader k 10 depth) := fun depth => primary_sound hassign
  have htrailing : ∀ depth, Sound 9 (reader k 9 depth) := by
    intro depth ts e rest h
    rw [reader_trailing] at h
    obtain ⟨e', ts₁, hfirst, hgo⟩ := bind_eq_ok h
    exact trailers_sound hassign ((hprimary depth _ _ _ hfirst).loosen (by decide)) hgo
  have hleading : ∀ depth, Sound 8 (reader k 8 depth) := fun depth =>
    leading_sound (fun k' hk => hinner k' hk 8 (by decide) (by decide)) (htrailing depth)
  have hchains : ∀ j, j ≤ 6 → ∀ depth, Sound (8 - j) (reader k (8 - j) depth) := by
    intro j
    induction j with
    | zero => exact fun _ => hleading
    | succ j ih =>
        intro hj depth ts e rest h
        have hnext : 8 - (j + 1) + 1 = 8 - j := by omega
        rw [reader_chain k (by omega) (by omega), hnext] at h
        obtain ⟨e', ts₁, hfirst, hgo⟩ := bind_eq_ok h
        rw [bind_ok (remaining_apply ts₁), goOn_chain k (by omega) (by omega)] at hgo
        have hstart := ih (by omega) depth _ _ _ hfirst
        rw [← hnext] at hstart
        exact chainRest_sound (by omega) (by omega) (by rw [hnext]; exact ih (by omega))
          (hstart.loosen (by omega)) hgo
  intro n hlow hhigh depth
  have hcases : n = 1 ∨ (2 ≤ n ∧ n ≤ 8) ∨ n = 9 ∨ n = 10 := by omega
  rcases hcases with rfl | hchain | rfl | rfl
  · exact assignment_sound hassign (hchains 6 (by decide) depth)
  · have hn : n = 8 - (8 - n) := by omega
    rw [hn]
    exact hchains (8 - n) (by omega) depth
  · exact htrailing depth
  · exact hprimary depth

theorem reader_sound (k : Nat) : ∀ n, 1 ≤ n → n ≤ 10 → ∀ depth, Sound n (reader k n depth) := by
  induction k with
  | zero => exact reader_sound_step fun k' hk => absurd hk (by omega)
  | succ k ih =>
      refine reader_sound_step fun k' hk => ?_
      obtain rfl : k' = k := by omega
      exact ih

theorem expression_sound (levelsLeft depth : Nat) : Sound 1 (expression levelsLeft depth) :=
  reader_sound levelsLeft 1 (by decide) (by decide) depth

end ExprGrammar

end InoBlocks
