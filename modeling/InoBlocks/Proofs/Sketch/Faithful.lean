import InoBlocks.Proofs.Sketch.Headings
import InoBlocks.Proofs.Sketch.Same

/-!
# Outlines are faithful

Two sketches, as they are read from any texts, have one outline exactly if they are the same, places
aside.

* The lines of an outline are told apart, although literals may hold line feeds: a line with a line
  feed behind it is never the front of a line, for all line feeds of a line stand inside of words.
* A line tells its depth and its heading, and a heading tells its node, the nodes inside aside.
* The nodes inside another one end where the depth falls back, or where a choice goes on with its
  alternative, so it shows where one is missing.
-/

namespace InoBlocks

open Word

/-! ## Lines -/

/-- A line of an outline: a text that is read as words, all its line feeds inside of them. -/
def IsRow (line : String) : Prop :=
  ∃ ws, WrittenOut line.toList ws (tail true)

/-- No line begins like another one with a line feed behind it. -/
theorem IsRow.not_continued {line line' : String} (h : IsRow line) (h' : IsRow line')
    (cs : List Char) : line'.toList ≠ line.toList ++ '\n' :: cs := by
  intro heq
  obtain ⟨ws, hwritten⟩ := h
  obtain ⟨ws', hwritten'⟩ := h'
  have hwords := hwritten.reads ('\n' :: cs) (apart_cons (by decide) cs)
  rw [← heq, hwritten'.reads.words_eq, words_layout (by decide)] at hwords
  have hfeeds := hwritten'.feeds
  have hfront := (chars_words_sublist line.toList).count_le '\n'
  have hback := (chars_words_sublist cs).count_le '\n'
  rw [hwritten.reads.words_eq] at hfront
  rw [heq, hwords, chars_append, List.count_append, List.count_append, List.count_cons_self]
    at hfeeds
  omega

theorem IsRow.eq_of_feed {line line' : String} (h : IsRow line) (h' : IsRow line')
    {cs ds : List Char} (heq : line.toList ++ '\n' :: cs = line'.toList ++ '\n' :: ds) :
    line = line' ∧ cs = ds := by
  have hline : line.toList = line'.toList := by
    rcases List.append_eq_append_iff.mp heq with ⟨es, hes, hrest⟩ | ⟨es, hes, hrest⟩
    · cases es with
      | nil => rw [hes, List.append_nil]
      | cons e es =>
          obtain ⟨rfl, -⟩ := List.cons.inj hrest
          exact absurd hes (h.not_continued h' es)
    · cases es with
      | nil => rw [hes, List.append_nil]
      | cons e es =>
          obtain ⟨rfl, -⟩ := List.cons.inj hrest
          exact absurd hes (h'.not_continued h es)
  rw [hline] at heq
  exact ⟨String.toList_injective hline, (List.cons.inj (List.append_cancel_left heq)).2⟩

/-- Lines are determined by the text that they make when put together. -/
theorem joinLines_inj {lines lines' : List String} (h : ∀ l ∈ lines, IsRow l)
    (h' : ∀ l ∈ lines', IsRow l) (hne : lines ≠ []) (hne' : lines' ≠ [])
    (heq : Text.joinLines lines = Text.joinLines lines') : lines = lines' := by
  have hone : ∀ l : String, Text.joinLines [l] = l := fun l => by simp [Text.joinLines]
  have hmore : ∀ (l m : String) (ls : List String),
      (Text.joinLines (l :: m :: ls)).toList =
        l.toList ++ '\n' :: (Text.joinLines (m :: ls)).toList :=
    fun l m ls => by simp [Text.joinLines]
  induction lines generalizing lines' with
  | nil => exact absurd rfl hne
  | cons l ls ih =>
      obtain ⟨hl, hls⟩ := List.forall_mem_cons.mp h
      cases lines' with
      | nil => exact absurd rfl hne'
      | cons l' ls' =>
          obtain ⟨hl', hls'⟩ := List.forall_mem_cons.mp h'
          have hchars := congrArg String.toList heq
          cases ls with
          | nil =>
              cases ls' with
              | nil => rw [hone, hone] at heq; rw [heq]
              | cons m' ls' =>
                  rw [hone, hmore] at hchars
                  exact absurd hchars (hl'.not_continued hl _)
          | cons m ls =>
              cases ls' with
              | nil =>
                  rw [hone, hmore] at hchars
                  exact absurd hchars.symm (hl.not_continued hl' _)
              | cons m' ls' =>
                  rw [hmore, hmore] at hchars
                  obtain ⟨rfl, hrest⟩ := hl.eq_of_feed hl' hchars
                  rw [ih hls hls' (List.cons_ne_nil m ls) (List.cons_ne_nil m' ls')
                    (String.toList_injective hrest)]

/-! ## Indents -/

def IsHeading (text : String) : Prop :=
  ∃ c cs, text.toList = c :: cs ∧ c ≠ ' '

theorem toList_outlineLine (depth : Nat) (text : String) :
    (Node.outlineLine Program.outlineIndent depth text).toList =
      List.replicate (2 * depth) ' ' ++ text.toList := by
  have hindent : (String.join (List.replicate depth Program.outlineIndent)).toList =
      List.replicate (2 * depth) ' ' := by
    induction depth with
    | zero => rfl
    | succ depth ih =>
        have hblanks : Program.outlineIndent.toList = List.replicate 2 ' ' := rfl
        rw [List.replicate_succ, String.join_cons, String.toList_append, ih, hblanks,
          ← List.replicate_add, Nat.mul_succ, Nat.add_comm]
  rw [Node.outlineLine, String.toList_append, hindent]

theorem outlineLine_inj {depth depth' : Nat} {text text' : String} (h : IsHeading text)
    (h' : IsHeading text') (heq : Node.outlineLine Program.outlineIndent depth text =
      Node.outlineLine Program.outlineIndent depth' text') : depth = depth' ∧ text = text' := by
  obtain ⟨c, cs, htext, hc⟩ := h
  obtain ⟨c', cs', htext', hc'⟩ := h'
  have hlists := congrArg String.toList heq
  rw [toList_outlineLine, toList_outlineLine, htext, htext'] at hlists
  have hall : ∀ n, ∀ d ∈ List.replicate n ' ', d = ' ' := fun _ _ => List.eq_of_mem_replicate
  obtain ⟨hblanks, hhead, htail⟩ := append_cons_inj_of_forall (hall _) (hall _) hc hc' hlists
  have hlength := congrArg List.length hblanks
  rw [List.length_replicate, List.length_replicate] at hlength
  exact ⟨by omega, String.toList_injective (by rw [htext, htext', hhead, htail])⟩

/-! ## Headings -/

namespace Node

def IsHeaded (n : Node) : Prop :=
  ∃ ws, HeadingWords n ws ∧ WrittenOut n.heading.toList ws (tail true)

namespace IsHeaded

variable {n n' : Node}

theorem head_eq (h : n.IsHeaded) (h' : n'.IsHeaded) (heq : n.heading = n'.heading) :
    n.head = n'.head := by
  obtain ⟨ws, hwords, hwritten⟩ := h
  obtain ⟨ws', hwords', hwritten'⟩ := h'
  refine hwords.head_eq hwords' ?_
  rw [← hwritten.reads.words_eq, heq, hwritten'.reads.words_eq]

theorem isHeading (h : n.IsHeaded) : IsHeading n.heading := by
  have hfront : ∀ {c : Char} {text : String}, text.toList.head? = some c → c ≠ ' ' →
      IsHeading text := by
    intro c text htext hc
    obtain ⟨cs, hcs⟩ := List.head?_eq_some_iff.mp htext
    exact ⟨c, cs, hcs, hc⟩
  obtain ⟨ws, hwords, -⟩ := h
  cases hwords with
  | exit l _ =>
      rw [heading]
      split
      · exact hfront (c := 'R') rfl (by decide)
      · exact hfront (c := 'R') (by simp) (by decide)
  | _ => exact hfront (by simp [heading]; rfl) (by decide)

theorem heading_ne_else (h : n.IsHeaded) : n.heading ≠ "Else" := by
  obtain ⟨ws, hwords, hwritten⟩ := h
  intro heq
  have helse : ws = [label "Else"] := by
    rw [← hwritten.reads.words_eq, heq, (written_label "Else" (by decide)).reads.words_eq]
  cases hwords <;> exact absurd (List.cons.inj helse).1 (by decide)

end IsHeaded

def present (n : Node) : List Node :=
  if n.isEmpty then [] else [n]

/-- The lines of the alternative of a choice, if it has one. -/
def alternativeLines (indent : String) (depth : Nat) (n : Node) : List String :=
  if n.isEmpty then [] else outlineLine indent depth "Else" :: outlineAt indent (depth + 1) n

def innerLines (indent : String) (depth : Nat) : Node → List String
  | program _ body | block _ body => outlineAll indent (depth + 1) body
  | function _ _ _ _ body | forLoop _ _ _ _ body | whileLoop _ _ body =>
      outlineAll indent (depth + 1) body.present
  | branch _ _ consequent alternative =>
      outlineAll indent (depth + 1) consequent.present ++ alternativeLines indent depth alternative
  | _ => []

theorem outlineAll_present (indent : String) (depth : Nat) (n : Node) :
    outlineAll indent depth n.present = if n.isEmpty then [] else outlineAt indent depth n := by
  rw [present]
  split
  · rfl
  · rw [outlineAll, outlineAll, List.append_nil]

/-- The outline of a node is its heading and the lines below it. -/
theorem outlineAt_eq (indent : String) (depth : Nat) (n : Node) :
    outlineAt indent depth n = outlineLine indent depth n.heading :: innerLines indent depth n := by
  cases n with
  | branch =>
      simp only [outlineAt, heading, innerLines, outlineAll_present, alternativeLines,
        List.cons_append]
  | _ => simp only [outlineAt, heading, innerLines, outlineAll_present]

theorem IsHeaded.isEmpty_eq_false {n : Node} (h : n.IsHeaded) : n.isEmpty = false := by
  obtain ⟨ws, hwords, -⟩ := h
  cases hwords <;> rfl

/-- A node that may be absent, otherwise one with a heading. -/
theorem absent_or_present {n : Node} (h : n ≠ .empty → n.IsHeaded) :
    n = .empty ∨ n ≠ .empty ∧ n.isEmpty = false := by
  by_cases hn : n = .empty
  · exact Or.inl hn
  · exact Or.inr ⟨hn, (h hn).isEmpty_eq_false⟩

/-! ## Where the indent falls back -/

/-- Lines of which the first stands at a smaller depth, if there is one. -/
def Above (depth : Nat) (rows : List String) : Prop :=
  ∀ row, rows.head? = some row → ∃ d text, IsHeading text ∧ d < depth ∧
    row = outlineLine Program.outlineIndent d text

/-- Lines of which the first stands at no greater depth, if there is one, and does not go on with a
choice at this depth. -/
def Beside (depth : Nat) (rows : List String) : Prop :=
  ∀ row, rows.head? = some row → ∃ d text, IsHeading text ∧ d ≤ depth ∧
    (d = depth → text ≠ "Else") ∧ row = outlineLine Program.outlineIndent d text

section Depth

variable {depth : Nat} {rows : List String} {n : Node}

theorem Above.beside (h : Above depth rows) : Beside depth rows := by
  intro row hrow
  obtain ⟨d, text, htext, hd, heq⟩ := h row hrow
  exact ⟨d, text, htext, Nat.le_of_lt hd, fun h => absurd h (Nat.ne_of_lt hd), heq⟩

theorem Beside.above (h : Beside depth rows) : Above (depth + 1) rows := by
  intro row hrow
  obtain ⟨d, text, htext, hd, -, heq⟩ := h row hrow
  exact ⟨d, text, htext, Nat.lt_succ_of_le hd, heq⟩

theorem Beside.above_alternative (h : Beside depth rows) (n : Node) :
    Above (depth + 1) (alternativeLines Program.outlineIndent depth n ++ rows) := by
  rw [alternativeLines]
  split
  · exact h.above
  · intro row hrow
    rw [List.cons_append, List.head?_cons, Option.some.injEq] at hrow
    exact ⟨depth, "Else", ⟨'E', _, rfl, by decide⟩, Nat.lt_succ_self depth, hrow.symm⟩

/-- No lines that go on with a choice stand beside it. -/
theorem Beside.ne_else (h : Beside depth rows) (rows' : List String) :
    rows ≠ outlineLine Program.outlineIndent depth "Else" :: rows' := by
  rintro rfl
  obtain ⟨d, text, htext, -, helse, heq⟩ := h _ rfl
  obtain ⟨rfl, rfl⟩ := outlineLine_inj ⟨'E', _, rfl, by decide⟩ htext heq
  exact helse rfl rfl

theorem IsHeaded.beside (h : n.IsHeaded) (depth : Nat) (rows : List String) :
    Beside depth (outlineAt Program.outlineIndent depth n ++ rows) := by
  intro row hrow
  rw [outlineAt_eq, List.cons_append, List.head?_cons, Option.some.injEq] at hrow
  exact ⟨depth, n.heading, h.isHeading, Nat.le_refl depth, fun _ => h.heading_ne_else, hrow.symm⟩

theorem IsHeaded.not_above (h : n.IsHeaded) (rows : List String) :
    ¬ Above depth (outlineAt Program.outlineIndent depth n ++ rows) := by
  intro habove
  rw [outlineAt_eq, List.cons_append] at habove
  obtain ⟨d, text, htext, hd, heq⟩ := habove _ rfl
  obtain ⟨rfl, -⟩ := outlineLine_inj h.isHeading htext heq
  exact absurd hd (Nat.lt_irrefl depth)

theorem beside_outlineAll {ns : List Node} (hns : ∀ n ∈ ns, n.IsHeaded) (h : Above depth rows) :
    Beside depth (outlineAll Program.outlineIndent depth ns ++ rows) := by
  cases ns with
  | nil => exact h.beside
  | cons n ns =>
      rw [outlineAll, List.append_assoc]
      exact (hns n List.mem_cons_self).beside depth _

end Depth

/-! ## Nodes -/

/-- A node that has the outline of another one, with other lines behind it, is the same node, places
aside. -/
def Recovered (P : Node → Prop) (n : Node) : Prop :=
  ∀ n' depth rows rows', P n' → Beside depth rows → Beside depth rows' →
    outlineAt Program.outlineIndent depth n ++ rows =
      outlineAt Program.outlineIndent depth n' ++ rows' →
    n.forget = n'.forget ∧ rows = rows'

/-- The heading of a node and the lines below it are told apart. -/
theorem Recovered.of_head {P : Node → Prop} (hP : ∀ n, P n → n.IsHeaded) {n : Node}
    (hn : n.IsHeaded)
    (h : ∀ n' depth rows rows', P n' → Beside depth rows → Beside depth rows' → n.head = n'.head →
      innerLines Program.outlineIndent depth n ++ rows =
        innerLines Program.outlineIndent depth n' ++ rows' →
      n.forget = n'.forget ∧ rows = rows') : Recovered P n := by
  intro n' depth rows rows' hn' hrows hrows' heq
  rw [outlineAt_eq, outlineAt_eq] at heq
  obtain ⟨hfirst, hrest⟩ := List.cons.inj heq
  have hheading := (outlineLine_inj hn.isHeading (hP n' hn').isHeading hfirst).2
  exact h n' depth rows rows' hn' hrows hrows' (hn.head_eq (hP n' hn') hheading) hrest

section Children

variable {P : Node → Prop} (hP : ∀ n, P n → n.IsHeaded) {depth : Nat} {rows rows' : List String}

include hP

theorem forgetList_eq_of_outlineAll (hrows : Above depth rows) (hrows' : Above depth rows')
    {ns ns' : List Node} (hns : ∀ n ∈ ns, n.IsHeaded) (h : ∀ n ∈ ns, Recovered P n)
    (h' : ∀ n ∈ ns', P n) (heq : outlineAll Program.outlineIndent depth ns ++ rows =
      outlineAll Program.outlineIndent depth ns' ++ rows') :
    forgetList ns = forgetList ns' ∧ rows = rows' := by
  induction ns generalizing ns' with
  | nil =>
      cases ns' with
      | nil => exact ⟨rfl, heq⟩
      | cons n' ns' =>
          rw [outlineAll, outlineAll, List.nil_append, List.append_assoc] at heq
          exact absurd (heq ▸ hrows) ((hP n' (h' n' List.mem_cons_self)).not_above _)
  | cons n ns ih =>
      obtain ⟨hn, hns⟩ := List.forall_mem_cons.mp hns
      obtain ⟨hfirst, hrest⟩ := List.forall_mem_cons.mp h
      cases ns' with
      | nil =>
          rw [outlineAll, outlineAll, List.nil_append, List.append_assoc] at heq
          exact absurd (heq ▸ hrows') (hn.not_above _)
      | cons n' ns' =>
          obtain ⟨hn', hns'⟩ := List.forall_mem_cons.mp h'
          rw [outlineAll, outlineAll, List.append_assoc, List.append_assoc] at heq
          obtain ⟨hnode, hbehind⟩ := hfirst n' depth _ _ hn' (beside_outlineAll hns hrows)
            (beside_outlineAll (fun n hn => hP n (hns' n hn)) hrows') heq
          obtain ⟨hnodes, hlast⟩ := ih hns hrest hns' hbehind
          exact ⟨by rw [forgetList, forgetList, hnode, hnodes], hlast⟩

variable {n n' : Node} (hn : n ≠ .empty → n.IsHeaded) (h : n ≠ .empty → Recovered P n)
  (h' : n' ≠ .empty → P n')

include hn h h'

theorem forget_eq_of_present (hrows : Above depth rows) (hrows' : Above depth rows')
    (heq : outlineAll Program.outlineIndent depth n.present ++ rows =
      outlineAll Program.outlineIndent depth n'.present ++ rows') :
    n.forget = n'.forget ∧ rows = rows' := by
  have hnone : empty.isEmpty = true := rfl
  rw [outlineAll_present, outlineAll_present] at heq
  rcases absent_or_present hn with rfl | ⟨hne, hpresent⟩ <;>
    rcases absent_or_present fun hne => hP n' (h' hne) with rfl | ⟨hne', hpresent'⟩
  · exact ⟨rfl, heq⟩
  · rw [hpresent', if_neg Bool.false_ne_true, if_pos hnone, List.nil_append] at heq
    exact absurd (heq ▸ hrows) ((hP n' (h' hne')).not_above _)
  · rw [hpresent, if_neg Bool.false_ne_true, if_pos hnone, List.nil_append] at heq
    exact absurd (heq ▸ hrows') ((hn hne).not_above _)
  · rw [hpresent, hpresent', if_neg Bool.false_ne_true, if_neg Bool.false_ne_true] at heq
    exact h hne n' depth rows rows' (h' hne') hrows.beside hrows'.beside heq

theorem forget_eq_of_alternative (hrows : Beside depth rows) (hrows' : Beside depth rows')
    (heq : alternativeLines Program.outlineIndent depth n ++ rows =
      alternativeLines Program.outlineIndent depth n' ++ rows') :
    n.forget = n'.forget ∧ rows = rows' := by
  rw [alternativeLines, alternativeLines] at heq
  rcases absent_or_present hn with rfl | ⟨hne, hpresent⟩ <;>
    rcases absent_or_present fun hne => hP n' (h' hne) with rfl | ⟨hne', hpresent'⟩
  · exact ⟨rfl, heq⟩
  · rw [hpresent', if_neg Bool.false_ne_true] at heq
    exact absurd heq (hrows.ne_else _)
  · rw [hpresent, if_neg Bool.false_ne_true] at heq
    exact absurd heq.symm (hrows'.ne_else _)
  · rw [hpresent, hpresent', if_neg Bool.false_ne_true, if_neg Bool.false_ne_true] at heq
    exact h hne n' (depth + 1) rows rows' (h' hne') hrows.above.beside hrows'.above.beside
      (List.cons.inj heq).2

end Children

variable {ts ts' : List Token}

theorem IsStatementIn.isHeaded (n : Node) (h : n.IsStatementIn ts) : n.IsHeaded :=
  h.exists_headingWords

theorem IsTopLevelIn.isHeaded (n : Node) (h : n.IsTopLevelIn ts) : n.IsHeaded :=
  h.exists_headingWords

theorem IsStatementIn.recovered {n : Node} (h : n.IsStatementIn ts) :
    Recovered (IsStatementIn ts') n := by
  have hP : ∀ n, IsStatementIn ts' n → n.IsHeaded := IsStatementIn.isHeaded
  induction h with
  | effect l h =>
      refine .of_head hP (IsStatementIn.effect l h).isHeaded fun n' depth rows rows' h' hrows hrows'
        hhead hinner => ?_
      cases h' with
      | effect => exact ⟨hhead, hinner⟩
      | _ => cases hhead
  | exit l h =>
      refine .of_head hP (IsStatementIn.exit l h).isHeaded fun n' depth rows rows' h' hrows hrows'
        hhead hinner => ?_
      cases h' with
      | exit => exact ⟨hhead, hinner⟩
      | _ => cases hhead
  | declaration l hdeclared h =>
      refine .of_head hP (IsStatementIn.declaration l hdeclared h).isHeaded fun n' depth rows rows'
        h' hrows hrows' hhead hinner => ?_
      cases h' with
      | declaration => exact ⟨hhead, hinner⟩
      | _ => cases hhead
  | block l h ih =>
      refine .of_head hP (IsStatementIn.block l h).isHeaded fun n' depth rows rows' h' hrows hrows'
        hhead hinner => ?_
      cases h' with
      | block l' h' =>
          obtain ⟨hbody, hlast⟩ := forgetList_eq_of_outlineAll hP hrows.above hrows'.above
            (fun n hn => (h n hn).isHeaded) ih h' hinner
          exact ⟨by rw [forget, forget, hbody], hlast⟩
      | _ => cases hhead
  | branch l htest hthen helse ihthen ihelse =>
      refine .of_head hP (IsStatementIn.branch l htest hthen helse).isHeaded fun n' depth rows rows'
        h' hrows hrows' hhead hinner => ?_
      cases h' with
      | branch l' htest' hthen' helse' =>
          rw [innerLines, innerLines, List.append_assoc, List.append_assoc] at hinner
          obtain ⟨hsame, hbehind⟩ := forget_eq_of_present hP (fun hne => (hthen hne).isHeaded)
            ihthen hthen' (hrows.above_alternative _) (hrows'.above_alternative _) hinner
          obtain ⟨hother, hlast⟩ := forget_eq_of_alternative hP (fun hne => (helse hne).isHeaded)
            ihelse helse' hrows hrows' hbehind
          simp only [head, branch.injEq] at hhead
          exact ⟨by simp only [forget, hhead, hsame, hother], hlast⟩
      | _ => cases hhead
  | forLoop l hinit htest hupdate hbody ihbody =>
      refine .of_head hP (IsStatementIn.forLoop l hinit htest hupdate hbody).isHeaded fun n' depth
        rows rows' h' hrows hrows' hhead hinner => ?_
      cases h' with
      | forLoop l' hinit' htest' hupdate' hbody' =>
          obtain ⟨hsame, hlast⟩ := forget_eq_of_present hP (fun hne => (hbody hne).isHeaded) ihbody
            hbody' hrows.above hrows'.above hinner
          simp only [head, forLoop.injEq] at hhead
          exact ⟨by simp only [forget, hhead, hsame], hlast⟩
      | _ => cases hhead
  | whileLoop l htest hbody ihbody =>
      refine .of_head hP (IsStatementIn.whileLoop l htest hbody).isHeaded fun n' depth rows rows' h'
        hrows hrows' hhead hinner => ?_
      cases h' with
      | whileLoop l' htest' hbody' =>
          obtain ⟨hsame, hlast⟩ := forget_eq_of_present hP (fun hne => (hbody hne).isHeaded) ihbody
            hbody' hrows.above hrows'.above hinner
          simp only [head, whileLoop.injEq] at hhead
          exact ⟨by simp only [forget, hhead, hsame], hlast⟩
      | _ => cases hhead

theorem IsTopLevelIn.recovered {n : Node} (h : n.IsTopLevelIn ts) :
    Recovered (IsTopLevelIn ts') n := by
  refine .of_head IsTopLevelIn.isHeaded h.isHeaded fun n' depth rows rows' h' hrows hrows' hhead
    hinner => ?_
  cases h with
  | function l hdeclared hps hts hparen hbody =>
      cases h' with
      | function l' hdeclared' hps' hts' hparen' hbody' =>
          obtain ⟨hsame, hlast⟩ := forget_eq_of_present IsStatementIn.isHeaded
            (fun _ => hbody.isHeaded) (fun _ => hbody.recovered) (fun _ => hbody') hrows.above
            hrows'.above hinner
          simp only [head, function.injEq] at hhead
          exact ⟨by simp only [forget, hhead, hsame], hlast⟩
      | _ => cases hhead
  | declaration l hdeclared h =>
      cases h' with
      | declaration => exact ⟨hhead, hinner⟩
      | _ => cases hhead

/-! ## The text of an outline -/

/-- Every line of an outline is told apart from the next one. -/
theorem isRow_outlineLine {n : Node} (h : n.IsHeaded) (depth : Nat) :
    IsRow (outlineLine Program.outlineIndent depth n.heading) := by
  obtain ⟨ws, -, hwritten⟩ := h
  refine ⟨ws, ?_⟩
  rw [toList_outlineLine]
  exact (WrittenOut.blanks fun c hc => List.eq_of_mem_replicate hc).seq hwritten

theorem isRow_else (depth : Nat) : IsRow (outlineLine Program.outlineIndent depth "Else") := by
  refine ⟨[label "Else"], ?_⟩
  rw [toList_outlineLine]
  have hblanks := WrittenOut.blanks fun c hc => List.eq_of_mem_replicate (n := 2 * depth) hc
  exact hblanks.seq (written_label "Else" (by decide))

/-- A node all of whose lines are told apart, at any depth. -/
def HasRows (n : Node) : Prop :=
  ∀ depth, ∀ row ∈ outlineAt Program.outlineIndent depth n, IsRow row

theorem isRow_of_outlineAll {ns : List Node} (h : ∀ n ∈ ns, n.HasRows) (depth : Nat) :
    ∀ row ∈ outlineAll Program.outlineIndent depth ns, IsRow row := by
  induction ns with
  | nil => exact fun row hrow => nomatch hrow
  | cons n ns ih =>
      obtain ⟨hn, hns⟩ := List.forall_mem_cons.mp h
      exact List.forall_mem_append.mpr ⟨hn depth, ih hns⟩

theorem isRow_of_present {n : Node} (hn : n ≠ .empty → n.IsHeaded) (h : n ≠ .empty → n.HasRows)
    (depth : Nat) : ∀ row ∈ outlineAll Program.outlineIndent depth n.present, IsRow row := by
  rw [outlineAll_present]
  rcases absent_or_present hn with rfl | ⟨hne, hpresent⟩
  · exact fun row hrow => nomatch hrow
  · rw [hpresent, if_neg Bool.false_ne_true]
    exact h hne depth

theorem HasRows.of_inner {n : Node} (hn : n.IsHeaded)
    (h : ∀ depth, ∀ row ∈ innerLines Program.outlineIndent depth n, IsRow row) : n.HasRows := by
  intro depth
  rw [outlineAt_eq]
  exact List.forall_mem_cons.mpr ⟨isRow_outlineLine hn depth, h depth⟩

theorem IsStatementIn.hasRows {n : Node} (h : n.IsStatementIn ts) : n.HasRows := by
  induction h with
  | effect l h =>
      exact .of_inner (IsStatementIn.effect l h).isHeaded fun _ row hrow => nomatch hrow
  | exit l h => exact .of_inner (IsStatementIn.exit l h).isHeaded fun _ row hrow => nomatch hrow
  | declaration l hdeclared h =>
      exact .of_inner (IsStatementIn.declaration l hdeclared h).isHeaded fun _ row hrow =>
        nomatch hrow
  | block l h ih =>
      exact .of_inner (IsStatementIn.block l h).isHeaded fun _ => isRow_of_outlineAll ih _
  | branch l htest hthen helse ihthen ihelse =>
      refine .of_inner (IsStatementIn.branch l htest hthen helse).isHeaded fun depth => ?_
      refine List.forall_mem_append.mpr
        ⟨isRow_of_present (fun hne => (hthen hne).isHeaded) ihthen _, ?_⟩
      rw [alternativeLines]
      rcases absent_or_present fun hne => (helse hne).isHeaded with rfl | ⟨hne, hpresent⟩
      · exact fun row hrow => nomatch hrow
      · rw [hpresent, if_neg Bool.false_ne_true]
        exact List.forall_mem_cons.mpr ⟨isRow_else depth, ihelse hne _⟩
  | forLoop l hinit htest hupdate hbody ihbody =>
      exact .of_inner (IsStatementIn.forLoop l hinit htest hupdate hbody).isHeaded fun _ =>
        isRow_of_present (fun hne => (hbody hne).isHeaded) ihbody _
  | whileLoop l htest hbody ihbody =>
      exact .of_inner (IsStatementIn.whileLoop l htest hbody).isHeaded fun _ =>
        isRow_of_present (fun hne => (hbody hne).isHeaded) ihbody _

theorem IsTopLevelIn.hasRows {n : Node} (h : n.IsTopLevelIn ts) : n.HasRows := by
  refine .of_inner h.isHeaded fun depth => ?_
  cases h with
  | function l hdeclared hps hts hparen hbody =>
      exact isRow_of_present (fun _ => hbody.isHeaded) (fun _ => hbody.hasRows) _
  | declaration => exact fun row hrow => nomatch hrow

/-! ## Outlines exist -/

theorem outlineFaults?_eq_none {ns : List Node} (h : ∀ n ∈ ns, n.outlineFault? = none) :
    outlineFaults? ns = none := by
  induction ns with
  | nil => rfl
  | cons n ns ih =>
      obtain ⟨hn, hns⟩ := List.forall_mem_cons.mp h
      rw [outlineFaults?, hn, ih hns]
      rfl

theorem outlineFault?_of_ne_empty {n : Node} (h : n ≠ .empty → n.outlineFault? = none) :
    n.outlineFault? = none := by
  by_cases hn : n = .empty
  · rw [hn]
    rfl
  · exact h hn

theorem IsStatement.outlineFault?_eq_none {n : Node} (h : n.IsStatement) :
    n.outlineFault? = none := by
  have hvalue : ∀ {e : Expr}, e.ProperIfAny → e.sourceFault? = none := by
    rintro e (rfl | h)
    · rfl
    · exact h.sourceFault?_eq_none
  induction h with
  | effect l h => exact h.sourceFault?_eq_none
  | exit l h | declaration l type name h => exact hvalue h
  | block l h ih => exact outlineFaults?_eq_none ih
  | branch l htest hthen helse ihthen ihelse =>
      rw [outlineFault?, htest.sourceFault?_eq_none, outlineFault?_of_ne_empty ihthen,
        outlineFault?_of_ne_empty ihelse]
      rfl
  | forLoop l hinit htest hupdate hbody ihbody =>
      rw [outlineFault?, hinit.sourceFault?_eq_none, hvalue htest, hvalue hupdate,
        outlineFault?_of_ne_empty ihbody]
      rfl
  | whileLoop l htest hbody ihbody =>
      rw [outlineFault?, htest.sourceFault?_eq_none, outlineFault?_of_ne_empty ihbody]
      rfl

theorem IsTopLevel.outlineFault?_eq_none {n : Node} (h : n.IsTopLevel) :
    n.outlineFault? = none := by
  cases h with
  | function l name type ps h => exact h.outlineFault?_eq_none
  | declaration l type name h =>
      exact (IsStatement.declaration l type name h).outlineFault?_eq_none

end Node

namespace Grammar

theorem outlineFault?_eq_none (source file : String) (limit : Nat) :
    (parse source file limit).program.toNode.outlineFault? = none :=
  Node.outlineFaults?_eq_none fun _ hn => (isTopLevel_of_mem_body hn).outlineFault?_eq_none

/-- The lines of the outline of a sketch that was read are told apart. -/
theorem isRow_of_outline (source file : String) (limit : Nat) :
    ∀ row ∈ Node.outlineAt Program.outlineIndent 0 (parse source file limit).program.toNode,
      IsRow row :=
  List.forall_mem_cons.mpr ⟨⟨_, Node.written_label "Program" (by decide)⟩,
    Node.isRow_of_outlineAll (fun _ hn => (isTopLevelIn_of_mem_body hn).hasRows) 1⟩

/-- Two sketches as they are read, also with statements missing where faults were recovered from,
have outlines, and these are equal exactly if the sketches are the same, places aside. -/
theorem outline_eq_iff_same (source source' file file' : String) (limit limit' : Nat) :
    let p := (parse source file limit).program
    let q := (parse source' file' limit').program
    p.toNode.outlineFault? = none ∧ q.toNode.outlineFault? = none ∧
      (p.outline Program.outlineIndent = q.outline Program.outlineIndent ↔ p.same q = true) := by
  dsimp only
  refine ⟨outlineFault?_eq_none source file limit, outlineFault?_eq_none source' file' limit', ?_⟩
  rw [Program.same, Node.sameList_iff]
  constructor
  · intro heq
    have hrows := joinLines_inj (isRow_of_outline source file limit)
      (isRow_of_outline source' file' limit') (List.cons_ne_nil _ _) (List.cons_ne_nil _ _) heq
    have hlists := congrArg (· ++ []) (List.cons.inj hrows).2
    have hend : Node.Above 1 [] := fun _ hrow => nomatch hrow
    exact (Node.forgetList_eq_of_outlineAll Node.IsTopLevelIn.isHeaded hend hend
      (fun n hn => (isTopLevelIn_of_mem_body hn).isHeaded)
      (fun n hn => (isTopLevelIn_of_mem_body hn).recovered)
      (fun n hn => isTopLevelIn_of_mem_body hn) hlists).1
  · intro hforget
    have hlists := congrArg (Node.outlineAll Program.outlineIndent 1) hforget
    rw [Node.outlineAll_forget, Node.outlineAll_forget] at hlists
    exact congrArg (fun rows => Text.joinLines (_ :: rows)) hlists

end Grammar

end InoBlocks
