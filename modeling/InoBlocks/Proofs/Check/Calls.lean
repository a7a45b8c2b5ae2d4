import InoBlocks.Sketch.Check
import InoBlocks.Proofs.Token.FirmText

/-!
# When the checks find no error

What a masked text must be for the checks of its brackets and of its calls to find no error, in a
form that is proved piece by piece.  `Turns` says what a piece does to the number of open brackets,
`Encloses` that a call's arguments are not parted within a piece, and `Orderly` that each of the
checked calls in a text has the arguments that it takes.
-/

namespace InoBlocks

namespace Check

open Text

attribute [grind =] imbalance arguments?

/-! ## Brackets -/

section Brackets

variable {b : Brackets} {c : Char}

theorem imbalance_other (hopener : c ≠ b.opener) (hcloser : c ≠ b.closer) (offset depth : Nat)
    (cs : List Char) : imbalance b offset depth (c :: cs) = imbalance b (offset + 1) depth cs := by
  simp [imbalance, hopener, hcloser]

theorem imbalance_opener (b : Brackets) (offset depth : Nat) (cs : List Char) :
    imbalance b offset depth (b.opener :: cs) = imbalance b (offset + 1) (depth + 1) cs := by
  simp [imbalance]

theorem imbalance_closer (hne : b.closer ≠ b.opener) (offset depth : Nat) (cs : List Char) :
    imbalance b offset (depth + 1) (b.closer :: cs) = imbalance b (offset + 1) depth cs := by
  simp [imbalance, hne]

end Brackets

/-- A piece of text begins with some brackets open and ends with some open, whatever is open
around it. -/
def Turns (b : Brackets) (i j : Nat) (m : List Char) : Prop :=
  ∀ offset depth rest, imbalance b offset (depth + i) (m ++ rest) =
    imbalance b (offset + m.length) (depth + j) rest

namespace Turns

variable {b : Brackets} {i j k : Nat} {m n : List Char}

theorem append (hm : Turns b i j m) (hn : Turns b j k n) : Turns b i k (m ++ n) := by
  intro offset depth rest
  rw [List.append_assoc, hm, hn, List.length_append, Nat.add_assoc]

theorem under (h : Turns b i j m) (k : Nat) : Turns b (k + i) (k + j) m := by
  intro offset depth rest
  rw [← Nat.add_assoc, ← Nat.add_assoc, h]

theorem without (h : ∀ c ∈ m, c ≠ b.opener ∧ c ≠ b.closer) (i : Nat) : Turns b i i m := by
  intro offset depth rest
  induction m generalizing offset with
  | nil => rfl
  | cons c m ih =>
      obtain ⟨hopener, hcloser⟩ := h c List.mem_cons_self
      rw [List.cons_append, imbalance_other hopener hcloser,
        ih fun d hd => h d (List.mem_cons_of_mem c hd), List.length_cons, Nat.add_assoc,
        Nat.add_comm 1]

theorem opener (b : Brackets) (i : Nat) : Turns b i (i + 1) [b.opener] :=
  fun offset depth rest => imbalance_opener b offset (depth + i) rest

theorem closer (hne : b.closer ≠ b.opener) (i : Nat) : Turns b (i + 1) i [b.closer] :=
  fun offset depth rest => imbalance_closer hne offset (depth + i) rest

end Turns

/-- A text that closes what it opens has nothing wrong with its brackets. -/
theorem bracketFindings_eq_nil {s : Subject} {b : Brackets} (h : Turns b 0 0 s.masked) :
    bracketFindings s b = [] := by
  have hbalance : imbalance b 0 0 s.masked = ([], 0) := by
    have hturns := h 0 0 []
    rw [List.append_nil] at hturns
    exact hturns
  rw [bracketFindings, hbalance]
  rfl

/-! ## Arguments -/

section Arguments

variable {c : Char} (depth : Nat) (done : List (List Char)) (pending cs : List Char)

theorem arguments?_other (hopen : c ≠ '(') (hclose : c ≠ ')') (hcomma : c ≠ ',') :
    arguments? depth done pending (c :: cs) = arguments? depth done (c :: pending) cs := by
  cases depth <;> simp [arguments?, hopen, hclose, hcomma]

theorem arguments?_inside (hopen : c ≠ '(') (hclose : c ≠ ')') :
    arguments? (depth + 1) done pending (c :: cs) =
      arguments? (depth + 1) done (c :: pending) cs := by
  simp [arguments?, hopen, hclose]

theorem arguments?_open :
    arguments? depth done pending ('(' :: cs) = arguments? (depth + 1) done ('(' :: pending) cs := by
  cases depth <;> simp [arguments?]

theorem arguments?_close :
    arguments? (depth + 1) done pending (')' :: cs) = arguments? depth done (')' :: pending) cs := by
  simp [arguments?]

theorem arguments?_comma :
    arguments? 0 done pending (',' :: cs) =
      arguments? 0 (done ++ [trim pending.reverse]) [] cs := by
  simp [arguments?]

theorem arguments?_last :
    arguments? 0 done pending (')' :: cs) =
      some (if (trim pending.reverse).isEmpty && done.isEmpty then []
        else done ++ [trim pending.reverse]) := by
  simp [arguments?]

end Arguments

/-- Within a piece of text the arguments of a call around it are not parted, and the call is not
closed. -/
def Encloses (m : List Char) : Prop :=
  ∀ depth done pending rest, arguments? depth done pending (m ++ rest) =
    arguments? depth done (m.reverse ++ pending) rest

def EnclosesInside (m : List Char) : Prop :=
  ∀ depth done pending rest, arguments? (depth + 1) done pending (m ++ rest) =
    arguments? (depth + 1) done (m.reverse ++ pending) rest

theorem Encloses.inside {m : List Char} (h : Encloses m) : EnclosesInside m :=
  fun depth => h (depth + 1)

theorem Encloses.nil : Encloses [] :=
  fun _ _ _ _ => rfl

theorem Encloses.append {m n : List Char} (hm : Encloses m) (hn : Encloses n) :
    Encloses (m ++ n) := by
  intro depth done pending rest
  rw [List.append_assoc, hm, hn, List.reverse_append, List.append_assoc]

theorem EnclosesInside.append {m n : List Char} (hm : EnclosesInside m) (hn : EnclosesInside n) :
    EnclosesInside (m ++ n) := by
  intro depth done pending rest
  rw [List.append_assoc, hm, hn, List.reverse_append, List.append_assoc]

theorem EnclosesInside.cons {c : Char} (hopen : c ≠ '(') (hclose : c ≠ ')') {m : List Char}
    (h : EnclosesInside m) : EnclosesInside (c :: m) := by
  intro depth done pending rest
  rw [List.cons_append, arguments?_inside _ _ _ _ hopen hclose, h, List.reverse_cons,
    List.append_assoc]
  rfl

theorem Encloses.without {m : List Char} (h : ∀ c ∈ m, c ≠ '(' ∧ c ≠ ')' ∧ c ≠ ',') :
    Encloses m := by
  intro depth done pending rest
  induction m generalizing pending with
  | nil => rfl
  | cons c m ih =>
      obtain ⟨hopen, hclose, hcomma⟩ := h c List.mem_cons_self
      rw [List.cons_append, arguments?_other _ _ _ _ hopen hclose hcomma,
        ih fun d hd => h d (List.mem_cons_of_mem c hd), List.reverse_cons, List.append_assoc]
      rfl

theorem EnclosesInside.paren {m : List Char} (h : EnclosesInside m) :
    Encloses ('(' :: m ++ [')']) := by
  intro depth done pending rest
  rw [List.cons_append, List.cons_append, arguments?_open, List.append_assoc, h,
    List.singleton_append, arguments?_close]
  simp

/-- What holds of arguments and of the separator, and of two texts side by side, holds of the
arguments together. -/
theorem joined_induction {p : List Char → Prop} (hnil : p [])
    (happend : ∀ m n, p m → p n → p (m ++ n)) (hseparator : p [',', ' ']) {as : List (List Char)}
    (h : ∀ a ∈ as, p a) : p ([',', ' '].intercalate as) := by
  induction as with
  | nil => exact hnil
  | cons a as ih =>
      have ha := h a List.mem_cons_self
      have hrest := ih fun b hb => h b (List.mem_cons_of_mem a hb)
      cases as with
      | nil => simpa using ha
      | cons b as =>
          rw [List.intercalate_cons_cons]
          exact happend _ _ (happend _ _ ha hseparator) hrest

theorem trim_append_of_isAllBlank {front : List Char} (h : isAllBlank front = true)
    (cs : List Char) : trim (front ++ cs) = trim cs := by
  have hstart : trimStart (front ++ cs) = trimStart cs := by
    rw [isAllBlank, List.all_eq_true] at h
    exact List.dropWhile_append_of_pos h
  rw [trim, hstart, trim]

/-- The arguments that are found between the parentheses of a call. -/
theorem arguments?_joined (a : List Char) (as : List (List Char)) (h : ∀ b ∈ a :: as, Encloses b)
    (done : List (List Char)) {pending : List Char} (hpending : isAllBlank pending = true)
    (rest : List Char) :
    ∃ found, arguments? 0 done pending ([',', ' '].intercalate (a :: as) ++ ')' :: rest) =
        some found ∧
      (∀ x ∈ found, x ∈ done ∨ ∃ b ∈ a :: as, x = trim b) ∧
      (2 ≤ done.length + (as.length + 1) → found.length = done.length + (as.length + 1)) := by
  have htrim : ∀ (a pending : List Char), isAllBlank pending = true →
      trim (a.reverse ++ pending).reverse = trim a := by
    intro a pending hpending
    rw [List.reverse_append, List.reverse_reverse]
    exact trim_append_of_isAllBlank (by simpa [isAllBlank] using hpending) a
  have ha := h a List.mem_cons_self
  induction as generalizing a done pending with
  | nil =>
      refine ⟨_, by rw [List.intercalate_singleton, ha, arguments?_last, htrim a pending hpending],
        ?_, ?_⟩
      · intro x hx
        split at hx
        · cases hx
        · rcases List.mem_append.mp hx with hx | hx
          · exact Or.inl hx
          · exact Or.inr ⟨a, List.mem_cons_self, List.mem_singleton.mp hx⟩
      · intro hlength
        have hne : done ≠ [] := by
          rintro rfl
          simp at hlength
        rw [if_neg (by simp [hne])]
        simp
  | cons b as ih =>
      obtain ⟨found, hfound, hmem, hlength⟩ := ih b (fun c hc => h c (List.mem_cons_of_mem a hc))
        (done ++ [trim a]) (show isAllBlank [' '] = true by decide)
        (h b (List.mem_cons_of_mem a List.mem_cons_self))
      refine ⟨found, ?_, fun x hx => ?_, fun _ => ?_⟩
      · rw [List.intercalate_cons_cons, List.append_assoc, List.append_assoc, ha, List.cons_append,
          arguments?_comma, htrim a pending hpending, List.cons_append,
          arguments?_other _ _ _ _ (by decide) (by decide) (by decide)]
        exact hfound
      · rcases hmem x hx with hx | ⟨c, hc, hx⟩
        · rcases List.mem_append.mp hx with hx | hx
          · exact Or.inl hx
          · exact Or.inr ⟨a, List.mem_cons_self, List.mem_singleton.mp hx⟩
        · exact Or.inr ⟨c, List.mem_cons_of_mem a hc, hx⟩
      · rw [hlength (by simp only [List.length_append, List.length_singleton]; omega)]
        simp only [List.length_append, List.length_cons, List.length_nil]
        omega

/-! ## Calls -/

/-- An argument that is an integer is short enough to be read. -/
def Readable (a : List Char) : Prop :=
  a.all Char.isDigit = true → a.length ≤ Number.maxIntegerDigits

/-- The arguments of a checked call, if they are closed, are those that it takes. -/
def Sound (name : String) (inside : List Char) : Prop :=
  ∀ found, arguments? 0 [] [] inside = some found →
    (takesTwo name = true → found.length = 2) ∧ ∀ a ∈ found, Readable a

def BeginsCall (cs : List Char) (name : String) (inside : List Char) : Prop :=
  name ∈ checkedCalls ∧
    ∃ blanks, isAllBlank blanks = true ∧ cs = name.toList ++ blanks ++ '(' :: inside

def Orderly (cs : List Char) : Prop :=
  ∀ us, us <:+ cs → ∀ name inside, BeginsCall us name inside → Sound name inside

theorem after?_eq_some {front cs rest : List Char} (h : after? front cs = some rest) :
    cs = front ++ rest := by
  rw [after?] at h
  split at h
  · rename_i hstart
    obtain ⟨more, rfl⟩ := List.isPrefixOf_iff_prefix.mp hstart
    rw [List.drop_left] at h
    injection h with h
    rw [h]
  · cases h

theorem trimStart_split (cs : List Char) :
    ∃ blanks, isAllBlank blanks = true ∧ cs = blanks ++ trimStart cs :=
  ⟨cs.takeWhile isBlank, List.all_takeWhile, List.takeWhile_append_dropWhile.symm⟩

theorem beginsCall_of_callAt? {s : Spot} {name : String} {inside rest : List Char}
    (h : callAt? s = some ((name, inside), rest)) : BeginsCall s.rest name inside := by
  simp only [callAt?, Option.bind_eq_bind] at h
  split at h
  · cases h
  obtain ⟨⟨found, behind⟩, hfound, h⟩ := Option.bind_eq_some_iff.mp h
  obtain ⟨front, hfront, hafter⟩ := List.exists_of_findSome?_eq_some hfound
  obtain ⟨us, hus, heq⟩ := Option.map_eq_some_iff.mp hafter
  injection heq with hname hbehind
  obtain ⟨blanks, hblanks, hsplit⟩ := trimStart_split behind
  split at h
  · rename_i more hopen
    injection h with h
    injection h with h _
    injection h with hname' hinside
    obtain rfl : front = name := hname.trans hname'
    refine ⟨hfront, blanks, hblanks, ?_⟩
    rw [after?_eq_some hus, hbehind, List.append_assoc, ← hinside, ← hopen, ← hsplit]
  · cases h

/-- What is found in a text is found at one of its ends. -/
theorem exists_spot_of_mem_hits {α : Type} {found? : Spot → Option (α × List Char)}
    {cs : List Char} {hit : Hit α} (h : hit ∈ hits found? cs) :
    ∃ s ∈ spots cs, ∃ rest, found? s = some (hit.value, rest) := by
  rw [hits, List.mem_reverse] at h
  -- What has been found so far was found at an end.
  refine List.foldlRecOn (motive := fun state : Nat × List (Hit α) =>
    ∀ x ∈ state.2, ∃ s ∈ spots cs, ∃ rest, found? s = some (x.value, rest))
    (spots cs) _ ?_ ?_ hit h
  · intro x hx
    cases hx
  · intro state hstate s hs
    dsimp only
    split
    · exact hstate
    · split
      · exact hstate
      · rename_i a rest hfound
        intro x hx
        rcases List.mem_cons.mp hx with rfl | hx
        · exact ⟨s, hs, rest, hfound⟩
        · exact hstate x hx

theorem suffix_of_mem_spotsFrom {offset : Nat} {after : Bool} {cs : List Char} {s : Spot}
    (h : s ∈ spotsFrom offset after cs) : s.rest <:+ cs := by
  induction cs generalizing offset after with
  | nil => cases h
  | cons c cs ih =>
      rcases List.mem_cons.mp h with rfl | h
      · exact List.suffix_refl _
      · exact (ih h).trans (List.suffix_cons c cs)

/-- An integer that is not too long is compared with its bound. -/
theorem exists_boundAdvice {a : List Char} (h : Readable a) (bound : Nat) (what : String) :
    ∃ advice, boundAdvice bound a what = .ok advice := by
  have hexceeds : ∃ beyond, exceeds bound a = .ok beyond := by
    rw [exceeds]
    split
    · rename_i hdigits
      rw [Bool.and_eq_true] at hdigits
      have hfew : (Number.digitValues a).length ≤ Number.maxIntegerDigits := by
        rw [Number.digitValues, List.length_map]
        exact h hdigits.2
      exact ⟨_, by rw [Number.ofFewDigits, if_pos hfew]; rfl⟩
    · exact ⟨_, rfl⟩
  obtain ⟨beyond, hbeyond⟩ := hexceeds
  exact ⟨_, by rw [boundAdvice, hbeyond]; rfl⟩

theorem exists_pinAdvice {found : List (List Char)} (h : ∀ a ∈ found, Readable a)
    (name : String) : ∃ advice, pinAdvice name found = .ok advice := by
  cases found with
  | nil => exact ⟨[], rfl⟩
  | cons pin found => exact exists_boundAdvice (h pin List.mem_cons_self) _ _

theorem exists_valueAdvice {found : List (List Char)} (h : ∀ a ∈ found, Readable a)
    (name : String) : ∃ advice, valueAdvice name found = .ok advice := by
  unfold valueAdvice
  split
  · split
    · exact ⟨_, rfl⟩
    · exact ⟨_, rfl⟩
  · split
    · exact ⟨_, rfl⟩
    · exact ⟨_, rfl⟩
  · exact exists_boundAdvice (h _ (by simp)) _ _
  · exact ⟨_, rfl⟩

/-- A sound call is looked into, and no error is found. -/
theorem callFindingsAt_ok {s : Subject} {hit : Hit (String × List Char)}
    (h : Sound hit.value.1 hit.value.2) :
    ∃ ds, callFindingsAt s hit = .ok ds ∧ ∀ d ∈ ds, d.isError = false := by
  rw [callFindingsAt]
  cases hfound : arguments? 0 [] [] hit.value.2 with
  | none => exact ⟨[], rfl, by simp⟩
  | some found =>
      obtain ⟨htwo, hreadable⟩ := h found hfound
      obtain ⟨advice, hadvice⟩ := exists_pinAdvice hreadable hit.value.1
      obtain ⟨more, hmore⟩ := exists_valueAdvice hreadable hit.value.1
      have hcount : ¬ (takesTwo hit.value.1 && found.length != 2) = true := by
        cases htakes : takesTwo hit.value.1 with
        | false => simp
        | true => simp [htwo htakes]
      refine ⟨(advice ++ more).map (findingAt s .warning hit.start), ?_, fun d hd => ?_⟩
      · dsimp only
        rw [if_neg hcount, hadvice, hmore]
        rfl
      · obtain ⟨message, -, rfl⟩ := List.mem_map.mp hd
        rfl

theorem mapM_ok {ε α β : Type} {f : α → Except ε β} {p : β → Prop} {xs : List α}
    (h : ∀ x ∈ xs, ∃ y, f x = .ok y ∧ p y) : ∃ ys, xs.mapM f = .ok ys ∧ ∀ y ∈ ys, p y := by
  induction xs with
  | nil => exact ⟨[], rfl, by simp⟩
  | cons x xs ih =>
      obtain ⟨y, hy, hpy⟩ := h x List.mem_cons_self
      obtain ⟨ys, hys, hpys⟩ := ih fun z hz => h z (List.mem_cons_of_mem x hz)
      refine ⟨y :: ys, ?_, List.forall_mem_cons.mpr ⟨hpy, hpys⟩⟩
      rw [List.mapM_cons, hy, hys]
      rfl

/-- Where every checked call is sound, the calls are looked into, and no error is found. -/
theorem callFindings_ok {s : Subject} (h : Orderly s.masked) :
    ∃ ds, callFindings s = .ok ds ∧ ∀ d ∈ ds, d.isError = false := by
  have heach : ∀ hit ∈ hits callAt? s.masked,
      ∃ ds, callFindingsAt s hit = .ok ds ∧ ∀ d ∈ ds, d.isError = false := by
    intro hit hhit
    obtain ⟨spot, hspot, rest, hfound⟩ := exists_spot_of_mem_hits hhit
    exact callFindingsAt_ok (h spot.rest (suffix_of_mem_spotsFrom hspot) _ _
      (beginsCall_of_callAt? hfound))
  obtain ⟨dss, hdss, hall⟩ := mapM_ok heach
  refine ⟨dss.flatten, by rw [callFindings, hdss]; rfl, fun d hd => ?_⟩
  obtain ⟨ds, hds, hd⟩ := List.mem_flatten.mp hd
  exact hall ds hds d hd

/-! ## Pieces around calls -/

theorem isAlpha_of_mem_checkedCalls {name : String} (h : name ∈ checkedCalls) :
    ∀ c ∈ name.toList, c.isAlpha = true := by
  have hall : ∀ name ∈ checkedCalls, ∀ c ∈ name.toList, c.isAlpha = true := by decide
  exact hall name h

theorem not_isAlpha_of_isBlank {c : Char} (h : isBlank c = true) : c.isAlpha = false := by
  cases halpha : c.isAlpha with
  | false => rfl
  | true =>
      have hname : isNameChar c = true := by
        rw [isNameChar, Char.isAlphanum, halpha, Bool.true_or, Bool.true_or]
      rw [not_isBlank_of_isNameChar hname] at h
      cases h

/-- A text that neither runs on a word in front of it nor makes a call of it. -/
def Quiet (cs : List Char) : Prop :=
  (∀ c ∈ cs.head?, c.isAlpha = false) ∧ (trimStart cs).head? ≠ some '('

theorem Quiet.cons {c : Char} (halpha : c.isAlpha = false) (hblank : isBlank c = false)
    (hopen : c ≠ '(') (cs : List Char) : Quiet (c :: cs) := by
  refine ⟨fun d hd => ?_, ?_⟩
  · obtain rfl : c = d := by simpa using hd
    exact halpha
  · rw [trimStart, List.dropWhile_cons, hblank]
    simpa using hopen

theorem Quiet.blank {c : Char} (hblank : isBlank c = true) {cs : List Char} (h : Quiet cs) :
    Quiet (c :: cs) := by
  refine ⟨fun d hd => ?_, ?_⟩
  · obtain rfl : c = d := by simpa using hd
    exact not_isAlpha_of_isBlank hblank
  · rw [trimStart, List.dropWhile_cons, if_pos hblank]
    exact h.2

/-- A call that begins in front of the first parenthesis is open where that is. -/
theorem BeginsCall.split {us rest inside : List Char} {name : String} (hus : '(' ∉ us)
    (h : BeginsCall (us ++ rest) name inside) :
    ∃ blanks more, name ∈ checkedCalls ∧ isAllBlank blanks = true ∧
      us ++ more = name.toList ++ blanks ∧ rest = more ++ '(' :: inside := by
  obtain ⟨hname, blanks, hblanks, heq⟩ := h
  rcases List.append_eq_append_iff.mp heq with ⟨more, hmore, hrest⟩ | ⟨more, hmore, hrest⟩
  · exact ⟨blanks, more, hname, hblanks, hmore.symm, hrest⟩
  · cases more with
    | nil => exact ⟨blanks, [], hname, hblanks, by simpa using hmore, by simpa using hrest.symm⟩
    | cons c more =>
        obtain ⟨rfl, -⟩ := List.cons.inj hrest
        exact absurd (by rw [hmore]; simp) hus

namespace Orderly

variable {c : Char} {cs rest : List Char}

theorem nil : Orderly [] := by
  rintro us hus name inside ⟨-, blanks, -, heq⟩
  obtain rfl := List.suffix_nil.mp hus
  exact absurd heq (by simp)

theorem cons (h : Orderly cs)
    (hfirst : ∀ name inside, BeginsCall (c :: cs) name inside → Sound name inside) :
    Orderly (c :: cs) := by
  intro us hus
  rcases List.suffix_cons_iff.mp hus with rfl | hus
  · exact hfirst
  · exact h us hus

/-- No call begins with a character that is no letter. -/
theorem cons_of_not_isAlpha (hc : c.isAlpha = false) (h : Orderly cs) : Orderly (c :: cs) := by
  refine h.cons fun name inside => ?_
  rintro ⟨hname, blanks, -, heq⟩
  have hfirst : name ≠ "" := by
    rintro rfl
    exact absurd hname (by decide)
  cases hchars : name.toList with
  | nil => exact absurd (String.toList_eq_nil_iff.mp hchars) hfirst
  | cons d ds =>
      rw [hchars] at heq
      obtain ⟨rfl, -⟩ := List.cons.inj heq
      rw [isAlpha_of_mem_checkedCalls hname c (by rw [hchars]; simp)] at hc
      cases hc

theorem append_of_not_isAlpha (hcs : ∀ c ∈ cs, c.isAlpha = false) (h : Orderly rest) :
    Orderly (cs ++ rest) := by
  induction cs with
  | nil => exact h
  | cons c cs ih =>
      exact cons_of_not_isAlpha (hcs c List.mem_cons_self)
        (ih fun d hd => hcs d (List.mem_cons_of_mem c hd))

/-- A text without parentheses begins no call in front of a quiet one. -/
theorem append_of_quiet (hcs : '(' ∉ cs) (hquiet : Quiet rest) (h : Orderly rest) :
    Orderly (cs ++ rest) := by
  induction cs with
  | nil => exact h
  | cons c cs ih =>
      refine (ih fun hmem => hcs (List.mem_cons_of_mem c hmem)).cons fun name inside hbegins => ?_
      obtain ⟨blanks, more, hname, hblanks, hmore, hrest⟩ :=
        BeginsCall.split hcs hbegins
      obtain ⟨halpha, hopen⟩ := hquiet
      -- what is left of the name and the blanks behind it stands in front of the parenthesis
      have hleft : (∃ d ds, more = d :: ds ∧ d.isAlpha = true) ∨ isAllBlank more = true := by
        rcases List.append_eq_append_iff.mp hmore with ⟨left, hleft, hmore⟩ | ⟨left, hleft, hmore⟩
        · cases left with
          | nil => exact Or.inr (by rw [hmore]; exact hblanks)
          | cons d ds =>
              exact Or.inl ⟨d, ds ++ blanks, hmore,
                isAlpha_of_mem_checkedCalls hname d (by rw [hleft]; simp)⟩
        · refine Or.inr ?_
          rw [hmore, isAllBlank, List.all_append, Bool.and_eq_true] at hblanks
          exact hblanks.2
      rcases hleft with ⟨d, ds, rfl, hd⟩ | hblank
      · rw [halpha d (by rw [hrest]; rfl)] at hd
        cases hd
      · refine absurd ?_ hopen
        rw [hrest, trimStart, List.dropWhile_append_of_pos (List.all_eq_true.mp hblank)]
        rfl

theorem call {name : String} {inside : List Char} (hopen : '(' ∉ name.toList)
    (hname : ∀ other ∈ checkedCalls, other.toList <:+: name.toList → other = name)
    (hsound : name ∈ checkedCalls → Sound name inside) (h : Orderly inside) :
    Orderly (name.toList ++ '(' :: inside) := by
  suffices hends : ∀ us, us <:+ name.toList → Orderly (us ++ '(' :: inside) from
    hends _ (List.suffix_refl _)
  intro us
  induction us with
  | nil => exact fun _ => cons_of_not_isAlpha (by decide) h
  | cons c us ih =>
      intro hus
      refine (ih ((List.suffix_cons c us).trans hus)).cons fun other inside' hbegins => ?_
      obtain ⟨blanks, more, hother, hblanks, hmore, hrest⟩ :=
        BeginsCall.split (fun hmem => hopen (hus.mem hmem)) hbegins
      cases more with
      | nil =>
          obtain rfl : inside = inside' := (List.cons.inj hrest).2
          rw [List.append_nil] at hmore
          obtain ⟨front, hfront⟩ := hus
          rw [hmore] at hfront
          obtain rfl := hname other hother ⟨front, blanks, by rw [← hfront]; simp⟩
          exact hsound hother
      | cons d more =>
          obtain rfl : '(' = d := (List.cons.inj hrest).1
          have hmem : '(' ∈ other.toList ++ blanks := by
            rw [← hmore]
            simp
          rcases List.mem_append.mp hmem with hmem | hmem
          · exact absurd (isAlpha_of_mem_checkedCalls hother _ hmem) (by decide)
          · exact absurd (List.all_eq_true.mp hblanks _ hmem) (by decide)

end Orderly

end Check

end InoBlocks
