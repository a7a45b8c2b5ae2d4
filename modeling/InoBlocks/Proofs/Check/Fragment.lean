import InoBlocks.Code.Value
import InoBlocks.Proofs.Check.Form
import InoBlocks.Proofs.Check.MasksTo

/-!
# Fragments

A fragment is text within a line: a header, or a part of a clause.  The text of a value is a
fragment that can be the argument of any call, the checked ones among them.
-/

namespace InoBlocks

namespace Check

open Text Code

/-- Text within a line, with its masked text, which is a form. -/
structure Fragment (s : String) (m : List Char) : Prop where
  oneLine : '\n' ∉ s.toList
  masks : MasksTo s.toList m
  form : Form m

/-- Whether a character stands for itself in a line: no bracket, no comma, and not the beginning of
a comment or a quoted text. -/
def isSimple (c : Char) : Bool :=
  isPlain c && isCode c && c != '\n'

/-- Whether a text of a line may stand between two others. -/
def isGlueText (s : String) : Bool :=
  isGlue s.toList && (s.toList.all (fun c => isCode c && c != '\n') || s == " / ")

theorem isSimple_iff {c : Char} :
    isSimple c = true ↔ isPlain c = true ∧ isCode c = true ∧ c ≠ '\n' := by
  simp [isSimple, and_assoc]

theorem isGlueText_iff {s : String} :
    isGlueText s = true ↔ isGlue s.toList = true ∧
      ((∀ c ∈ s.toList, isCode c = true ∧ c ≠ '\n') ∨ s = " / ") := by
  simp [isGlueText]

namespace Fragment

variable {s t : String} {m n : List Char}

theorem simple (h : ∀ c ∈ s.toList, isSimple c = true) : Fragment s s.toList where
  oneLine hmem := (isSimple_iff.mp (h _ hmem)).2.2 rfl
  masks := .code fun c hc => (isSimple_iff.mp (h c hc)).2.1
  form := .plain fun c hc => (isSimple_iff.mp (h c hc)).1

theorem quoted (s : String) : Fragment (quoteText s) (quotedMask s) where
  oneLine := lineFeed_not_mem_quoteText s
  masks := .quoted s
  form := by
    refine .plain fun c hc => ?_
    rw [quotedMask, List.cons_append, List.mem_cons, List.mem_append, List.mem_replicate,
      List.mem_singleton] at hc
    rcases hc with rfl | ⟨-, rfl⟩ | rfl <;> decide

theorem comment (hstar : '*' ∉ s.toList) (hfeed : '\n' ∉ s.toList) :
    Fragment ("/*" ++ s ++ "*/") (List.replicate (s.toList.length + 4) ' ') where
  oneLine := by simpa using hfeed
  masks := by simpa using MasksTo.blockComment hstar hfeed
  form := by
    refine .plain fun c hc => ?_
    obtain rfl := (List.mem_replicate.mp hc).2
    decide

theorem glued (hs : Fragment s m) {glue : String} (hglue : isGlueText glue = true)
    (ht : Fragment t n) : Fragment (s ++ (glue ++ t)) (m ++ (glue.toList ++ n)) := by
  obtain ⟨hform, hcode⟩ := isGlueText_iff.mp hglue
  have hfeed : '\n' ∉ glue.toList := by
    rcases hcode with hcode | rfl
    · exact fun hmem => (hcode _ hmem).2 rfl
    · decide
  have hmasks : MasksTo glue.toList glue.toList := by
    rcases hcode with hcode | rfl
    · exact .code fun c hc => (hcode c hc).1
    · exact .slash
  constructor
  · simp [hs.oneLine, hfeed, ht.oneLine]
  · rw [String.toList_append, String.toList_append]
    exact hs.masks.append (hmasks.append ht.masks)
  · exact .glued hs.form hform ht.form

theorem paren (hs : Fragment s m) : Fragment ("(" ++ s ++ ")") ('(' :: m ++ [')']) where
  oneLine := by simpa using hs.oneLine
  masks := by
    have hopen : MasksTo ['('] ['('] := .code (by decide)
    have hclose : MasksTo [')'] [')'] := .code (by decide)
    simpa using (hopen.append hs.masks).append hclose
  form := .paren hs.form

end Fragment

/-! ## Values -/

/-- A fragment that is short enough to be read, if it is an integer. -/
def ValueText (s : String) : Prop :=
  ∃ m, Fragment s m ∧ Readable (trim m)

theorem mem_trim {c : Char} {cs : List Char} (hmem : c ∈ cs) (hblank : isBlank c = false) :
    c ∈ trim cs := by
  have hstart : c ∈ trimStart cs := by
    obtain ⟨blanks, hblanks, hsplit⟩ := trimStart_split cs
    rw [hsplit] at hmem
    rcases List.mem_append.mp hmem with hmem | hmem
    · rw [List.all_eq_true.mp hblanks c hmem] at hblank
      cases hblank
    · exact hmem
  rw [trim]
  generalize trimStart cs = ds at hstart
  induction ds with
  | nil => exact hstart
  | cons d ds ih =>
      rw [trimEnd]
      rcases List.mem_cons.mp hstart with rfl | hstart
      · split
        · simp [hblank]
        · exact List.mem_cons_self
      · have hrest := ih hstart
        split
        · rename_i hnil
          rw [hnil] at hrest
          cases hrest
        · rename_i hcons
          rw [hcons] at hrest
          exact List.mem_cons_of_mem d hrest

/-- What has a character that is neither blank nor a digit is no integer. -/
theorem readable_of_mem {m : List Char} {c : Char} (hmem : c ∈ m) (hblank : isBlank c = false)
    (hdigit : c.isDigit = false) : Readable (trim m) := by
  intro hall
  have hc := List.all_eq_true.mp hall c (mem_trim hmem hblank)
  rw [hdigit] at hc
  cases hc

namespace ValueText

variable {s t : String}

theorem simple (h : ∀ c ∈ s.toList, isSimple c = true) (hreadable : Readable (trim s.toList)) :
    ValueText s :=
  ⟨_, .simple h, hreadable⟩

theorem quoted (s : String) : ValueText (quoteText s) :=
  ⟨_, .quoted s, readable_of_mem (c := '"') (by simp [quotedMask]) (by decide) (by decide)⟩

theorem glued (hs : ValueText s) (glue : String) (hglue : isGlueText glue = true)
    (ht : ValueText t) : ValueText (s ++ (glue ++ t)) := by
  obtain ⟨m, hm, -⟩ := hs
  obtain ⟨n, hn, -⟩ := ht
  obtain ⟨c, hc, hblank, hdigit⟩ := (isGlue_iff.mp (isGlueText_iff.mp hglue).1).2
  exact ⟨_, hm.glued hglue hn, readable_of_mem (by simp [hc]) hblank hdigit⟩

theorem paren (hs : ValueText s) : ValueText ("(" ++ s ++ ")") := by
  obtain ⟨m, hm, -⟩ := hs
  exact ⟨_, hm.paren, readable_of_mem (c := '(') (by simp) (by decide) (by decide)⟩

/-- Values side by side, with a comma and a blank between neighbours. -/
theorem joined {as : List String} (h : ∀ a ∈ as, ValueText a) :
    ∃ ms : List (List Char), ms.length = as.length ∧ (∀ m ∈ ms, Form m ∧ Readable (trim m)) ∧
      '\n' ∉ (", ".intercalate as).toList ∧
      MasksTo (", ".intercalate as).toList ([',', ' '].intercalate ms) := by
  simp only [String.toList_intercalate]
  induction as with
  | nil => exact ⟨[], rfl, by simp, by simp, .nil⟩
  | cons a as ih =>
      obtain ⟨m, ha, hreadable⟩ := h a List.mem_cons_self
      obtain ⟨ms, hlength, hms, hfeed, hmasks⟩ := ih fun b hb => h b (List.mem_cons_of_mem a hb)
      refine ⟨m :: ms, by simp [hlength], List.forall_mem_cons.mpr ⟨⟨ha.form, hreadable⟩, hms⟩, ?_⟩
      cases as with
      | nil =>
          obtain rfl := List.length_eq_zero_iff.mp hlength
          simpa using ⟨ha.oneLine, ha.masks⟩
      | cons b as =>
          cases ms with
          | nil => cases hlength
          | cons n ms =>
              have hcomma : MasksTo ", ".toList [',', ' '] := .code (by decide)
              rw [List.map_cons, List.map_cons, List.intercalate_cons_cons,
                List.intercalate_cons_cons, ← List.map_cons]
              refine ⟨?_, (ha.masks.append hcomma).append hmasks⟩
              simp only [List.mem_append, not_or]
              exact ⟨⟨ha.oneLine, by decide⟩, hfeed⟩

/-- A call of values; a checked one has the arguments that it takes. -/
theorem call {name : String} {as : List String}
    (hname : (isCallName name && name.toList.all isSimple) = true) (has : ∀ a ∈ as, ValueText a)
    (htwo : takesTwo name = true → as.length = 2) : ValueText (Value.callText name as) := by
  rw [Bool.and_eq_true, List.all_eq_true] at hname
  obtain ⟨ms, hlength, hms, hfeed, hmasks⟩ := joined has
  have hfront := Fragment.simple hname.2
  have hopen : MasksTo ['('] ['('] := .code (by decide)
  have hclose : MasksTo [')'] [')'] := .code (by decide)
  have htext : (Value.callText name as).toList =
      name.toList ++ (['('] ++ (", ".intercalate as).toList ++ [')']) := by
    simp [Value.callText]
  refine ⟨name.toList ++ ('(' :: [',', ' '].intercalate ms ++ [')']), ⟨?_, ?_, ?_⟩, ?_⟩
  · rw [htext]
    simp only [List.mem_append, List.mem_singleton, not_or]
    exact ⟨hfront.oneLine, ⟨by decide, hfeed⟩, by decide⟩
  · rw [htext]
    exact hfront.masks.append ((hopen.append hmasks).append hclose)
  · exact .call hname.1 (fun m hm => (hms m hm).1) fun _ =>
      ⟨fun htakes => hlength.trans (htwo htakes), fun m hm => (hms m hm).2⟩
  · exact readable_of_mem (c := '(') (by simp) (by decide) (by decide)

end ValueText

end Check

end InoBlocks
