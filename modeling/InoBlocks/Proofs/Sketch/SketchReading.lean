import InoBlocks.Proofs.Sketch.ClauseReading

/-!
# Reading a sketch from its words

A sketch is declarations and functions without parameters, one behind the other, perhaps with
words in front that begin no declaration, such as those of an include.  Reading it gives its
parts back, places aside, with nothing reported, or a limit of nesting is reported.
-/

namespace InoBlocks

namespace Grammar

open Read ExprGrammar Word

/-- Words that are a part of a sketch. -/
inductive Item : List Word → Node → Prop where
  | declared {ws : List Word} {n : Node} : Declared ws n → Item ws n
  | function (l l' : Location) (name : String) (items : List (List Word × Node)) :
      (∀ a ∈ items, Clause a.1 a.2) →
      Item (headerWords ⟨.voidType, "void"⟩ name ++ bracedWords items)
        (.function l name "void" [] (.block l' (items.map Prod.snd)))

/-- Whether a word is passed over where a declaration is expected. -/
def passesOver (w : Word) : Bool :=
  !w.kind.beginsType && w.kind != .semicolon && w.kind != .endOfInput

theorem kindAt_append (us ts : List Token) (ahead : Nat) :
    kindAt (us.length + ahead) (us ++ ts) = kindAt ahead ts := by
  rw [kindAt, kindAt, List.getElem?_append_right (Nat.le_add_right _ _), Nat.add_sub_cancel_left]

theorem Declared.exists_split {ws : List Word} {n : Node} (h : Declared ws n) :
    ∃ types type name w vs, ws = types ++ ⟨.identifier, name⟩ :: w :: vs ∧ TypeWords types type ∧
      w.kind ≠ .leftParen := by
  cases h with
  | plain l name htype => exact ⟨_, _, name, _, [], rfl, htype, by decide⟩
  | @valued l ts vs type e name htype hphrase =>
      exact ⟨ts, type, name, symbol .assign, vs ++ [symbol .semicolon], by simp, htype, by decide⟩

theorem Item.exists_head {ws : List Word} {n : Node} (h : Item ws n) :
    ∃ w us, ws = w :: us ∧ w.kind.beginsType = true := by
  cases h with
  | declared h => exact h.exists_head
  | function => exact ⟨_, _, rfl, rfl⟩

/-- A step that recovers never stops for what it recovers from. -/
theorem recovering_ne_misread {α : Type} (limit : Nat) (x : Recover α) (s : ReadState)
    (fault : Fault) (s' : ReadState) : recovering limit x s ≠ .error (.misread fault) s' := by
  intro h
  rw [recovering] at h
  cases hrun : x s with
  | ok a s₁ =>
      rw [hrun] at h
      cases h
  | error stop s₁ =>
      rw [hrun] at h
      cases stop with
      | misread fault' =>
          dsimp only at h
          rw [recover] at h
          by_cases hover : limit < s₁.recoveries + 1
          · rw [if_pos hover] at h
            cases h
          · rw [if_neg hover] at h
            cases h
      | _ => cases h

theorem arrives_topLevel {limit : Nat} (hlimit : 1 ≤ limit) {ws : List Word} {n : Node}
    (h : Item ws n) {us : List Token} (hus : us.map Token.word = ws) (rest : List Token)
    (findings : Findings) :
    Found n rest findings (topLevel limit ⟨us ++ rest, 0, findings⟩) := by
  cases h with
  | declared h =>
      have hread := Gets.declaration h maxNesting 0 hus rest
      obtain ⟨types, type, name, w, vs, rfl, htype, hw⟩ := h.exists_split
      obtain ⟨ts, t, more, rfl, hts, ht, -, hmore⟩ := map_word_append_cons hus
      obtain ⟨u, vs', rfl, hu, -, -⟩ := map_word_cons hmore
      have htokens : ts ++ t :: u :: vs' ++ rest = ts ++ t :: u :: (vs' ++ rest) := by simp
      have hlength := htype.typeLength ts hts (t :: u :: (vs' ++ rest))
      have hname : kindAt ts.length (ts ++ t :: u :: (vs' ++ rest)) = .identifier := by
        have hkind := kindAt_append ts (t :: u :: (vs' ++ rest)) 0
        rw [Nat.add_zero, kindAt_cons, ht] at hkind
        exact hkind
      have hnext : kindAt (ts.length + 1) (ts ++ t :: u :: (vs' ++ rest)) ≠ .leftParen := by
        rw [kindAt_append ts (t :: u :: (vs' ++ rest)) 1]
        change u.kind ≠ _
        rw [hu]
        exact hw
      obtain ⟨v, us, rfl, hbegins⟩ := htype.exists_head
      obtain ⟨t₀, ts', rfl, ht₀, -, -⟩ := map_word_cons hts
      have hfirst : ∀ kind : TokenKind, kind.beginsType = false → t₀.kind ≠ kind := by
        rintro kind hkind rfl
        rw [ht₀, hbegins] at hkind
        cases hkind
      rw [htokens] at hread ⊢
      rw [topLevel_eq (by exact hfirst .semicolon rfl)]
      dsimp only
      rw [hlength, hname, List.cons_append, kindAt_cons,
        if_neg (by simpa using hfirst .endOfInput rfl), if_pos (by simp), ← List.cons_append,
        if_neg (by simpa using hnext)]
      exact (Arrives.reading hread).bind (fun _ => .pure _) fun n' hn' =>
        Or.inl ⟨⟨n', rfl, hn'⟩, rfl⟩
  | function l l' name items hitems =>
      obtain ⟨header, body, rfl, hheader, hbody⟩ := List.map_eq_append_iff.mp hus
      obtain ⟨place, hfunction⟩ := topLevel_function_eq limit hheader (body ++ rest) 0 findings
      rw [List.append_assoc, hfunction]
      refine (arrives_block l' (fun a ha => (hitems a ha).reads) hitems hlimit maxNesting 0 hbody
        rest findings).bind (fun _ => .pure _) fun body' hbody' => Or.inl ⟨⟨_, rfl, ?_⟩, rfl⟩
      rw [Node.Like] at hbody'
      rw [Node.Like, Node.forget, Node.forget, hbody']

/-- Reading declarations ends in front of `rest` with nodes that are the same, or a limit of
nesting was reported. -/
def Done (ns : List Node) (rest : List Token) (findings : Findings)
    (r : List Node × ReadState × Option Stop) : Prop :=
  (Node.forgetList r.1 = Node.forgetList ns ∧ r.2 = (⟨rest, 0, findings⟩, none)) ∨ Heard r.2.1

theorem done_items {limit : Nat} (hlimit : 1 ≤ limit) {items : List (List Word × Node)}
    (hitems : ∀ a ∈ items, Item a.1 a.2) {us : List Token}
    (hus : us.map Token.word = items.flatMap Prod.fst) {last : Token}
    (hlast : last.kind = .endOfInput) (findings : Findings) (fuel : Nat)
    (hfuel : us.length ≤ fuel) :
    Done (items.map Prod.snd) [last] findings
      (declarations limit fuel ⟨us ++ [last], 0, findings⟩) := by
  induction items generalizing us fuel with
  | nil =>
      obtain rfl := List.map_eq_nil_iff.mp hus
      rw [declarations_end (by exact hlast)]
      exact Or.inl ⟨rfl, rfl⟩
  | cons a items ih =>
      rw [List.flatMap_cons] at hus
      obtain ⟨us, vs, rfl, hus, hvs⟩ := List.map_eq_append_iff.mp hus
      obtain ⟨w, ws, ha, hw⟩ := (hitems a List.mem_cons_self).exists_head
      have hus' := hus
      rw [ha] at hus'
      obtain ⟨t, us', rfl, ht, -, -⟩ := map_word_cons hus'
      cases fuel with
      | zero => simp at hfuel
      | succ fuel =>
          have hlength : vs.length ≤ fuel := by
            simp only [List.length_append, List.length_cons] at hfuel
            omega
          have hkind : t.kind ≠ .endOfInput := by
            intro hk
            rw [← ht, hk] at hw
            cases hw
          have harrives := Arrives.recovering hlimit (arrives_topLevel hlimit
            (hitems a List.mem_cons_self) hus (vs ++ [last]) findings)
          rw [declarations, if_neg (by simpa using hkind), List.append_assoc]
          cases hrun : recovering limit (topLevel limit)
              ⟨t :: us' ++ (vs ++ [last]), 0, findings⟩ with
          | error stop s =>
              rw [hrun] at harrives
              rcases harrives with h | ⟨hfirst, fault, rfl, hnesting⟩
              · exact Or.inr h
              · exact absurd hrun (recovering_ne_misread limit _ _ fault s)
          | ok found s =>
              rw [hrun] at harrives
              rcases harrives with ⟨⟨found', rfl, n', rfl, hn'⟩, rfl⟩ | h
              · have hrest := ih (fun b hb => hitems b (List.mem_cons_of_mem a hb)) hvs fuel hlength
                rcases hrest with ⟨hns, hstate⟩ | h
                · refine Or.inl ⟨?_, hstate⟩
                  rw [Node.Like] at hn'
                  change Node.forgetList ([n'] ++ _) = _
                  rw [List.singleton_append, List.map_cons, Node.forgetList.eq_2,
                    Node.forgetList.eq_2, hn', hns]
                · exact Or.inr h
              · exact Or.inr (Hears.declarations limit fuel s h)

theorem declarations_passOver {limit fuel : Nat} {t : Token} (h : passesOver t.word = true)
    (ts : List Token) (recoveries : Nat) (findings : Findings) :
    declarations limit (fuel + 1) ⟨t :: ts, recoveries, findings⟩ =
      declarations limit fuel ⟨ts, recoveries, findings⟩ := by
  simp only [passesOver, Token.word_kind, Bool.and_eq_true, Bool.not_eq_true', bne_iff_ne] at h
  obtain ⟨⟨htype, hsemicolon⟩, hend⟩ := h
  rw [TokenKind.beginsType, Bool.or_eq_false_iff] at htype
  have hlength : typeLength 0 (t :: ts) = 0 := by
    simp only [typeLength, kindAt_cons, htype.1, htype.2, Bool.false_eq_true, if_false]
  have htop : topLevel limit ⟨t :: ts, recoveries, findings⟩ =
      .ok none ⟨ts, recoveries, findings⟩ := by
    rw [topLevel_eq (by exact hsemicolon)]
    dsimp only
    rw [hlength, kindAt_cons, if_neg (by simpa using hend), if_neg (by simp),
      bind_ok (reading_ok (advance_cons hend))]
    rfl
  rw [declarations_cons (by exact hend) htop]
  rfl

theorem declarations_skips {limit fuel : Nat} {skips : List Token}
    (h : ∀ t ∈ skips, passesOver t.word = true) (ts : List Token) (recoveries : Nat)
    (findings : Findings) :
    declarations limit (skips.length + fuel) ⟨skips ++ ts, recoveries, findings⟩ =
      declarations limit fuel ⟨ts, recoveries, findings⟩ := by
  induction skips with
  | nil => rw [List.length_nil, Nat.zero_add, List.nil_append]
  | cons t skips ih =>
      rw [List.length_cons, Nat.add_right_comm, List.cons_append,
        declarations_passOver (h t List.mem_cons_self),
        ih fun u hu => h u (List.mem_cons_of_mem t hu)]

/-- A limit of nesting that was reported is among the findings of a sketch. -/
theorem heard_closingFindings {s : ReadState} (h : Heard s) (stop : Option Stop) :
    ∃ d ∈ (closingFindings s stop).diagnostics, d.IsNesting := by
  obtain ⟨d, hd, hnesting⟩ := h
  refine ⟨d, ?_, hnesting⟩
  unfold closingFindings
  split
  · exact List.mem_append_left _ hd
  · exact hd

/-- A sketch is read from its words, or a limit of nesting is reported. -/
theorem parse_items {source : String} {skips : List Word} {items : List (List Word × Node)}
    (hwords : words source.toList = skips ++ items.flatMap Prod.fst)
    (hskips : ∀ w ∈ skips, passesOver w = true) (hitems : ∀ a ∈ items, Item a.1 a.2)
    (file : String) {limit : Nat} (hlimit : 1 ≤ limit) :
    (Node.forgetList (parse source file limit).program.body =
        Node.forgetList (items.map Prod.snd) ∧
      (parse source file limit).diagnostics = [] ∧
      (parse source file limit).unreadable = none) ∨
    ∃ d ∈ (parse source file limit).diagnostics, d.IsNesting := by
  have htokens := significant_word source file
  rw [hwords] at htokens
  obtain ⟨ts, last, hts, hts', hlast⟩ := List.map_eq_append_iff.mp htokens
  obtain ⟨t, rfl, ht⟩ := List.map_eq_singleton_iff.mp hlast
  obtain ⟨front, us, rfl, hfront, hus⟩ := List.map_eq_append_iff.mp hts'
  have hend : t.kind = .endOfInput := congrArg Word.kind ht
  have hpass : ∀ u ∈ front, passesOver u.word = true :=
    fun u hu => hskips _ (hfront ▸ List.mem_map_of_mem hu)
  have hlength : (front ++ us ++ [t]).length = front.length + (us.length + 1) := by
    simp only [List.length_append, List.length_singleton]
    omega
  rw [parse, parseTokens, prepare_tokenize, hts, hlength, List.append_assoc]
  dsimp only
  rw [declarations_skips hpass]
  have hdone := done_items hlimit hitems hus hend (.empty "parser") (us.length + 1) (by omega)
  generalize declarations limit (us.length + 1) _ = r at hdone ⊢
  obtain ⟨ns, s, stop⟩ := r
  rcases hdone with ⟨hns, hstate⟩ | h
  · cases hstate
    exact Or.inl ⟨hns, rfl, rfl⟩
  · exact Or.inr (heard_closingFindings h _)

end Grammar

end InoBlocks
