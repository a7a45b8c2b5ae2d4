import InoBlocks.Proofs.Code.TracedSketch
import InoBlocks.Proofs.Sync.Regeneration

/-!
# Names that come back

Every name of a sketch comes back from the way there and back once, in its place.  Its spelling
changes in two cases: a name that is taken changes where it goes by way of the block of a variable,
and the variable of a counted loop gets the name that goes with the number of such loops around it.
So one name may become two, and a name may come to refer to another declaration; it does not exactly
if the innermost declaration that has the name in one of the two texts has it in both.
-/

namespace InoBlocks

open Word Code

/-! ## Spellings -/

/-- A name is spelled as it was unless it is taken and made safe, or is the variable of a counted
loop that gets another name. -/
theorem Occurrence.spelling_eq_iff {u : Occurrence} {id : String} (h : u.origin? = some id) :
    u.spelling = id ↔ (u = .safe id → IsFree id) ∧
      ∀ loops, u = .counter id loops → Statement.counter loops = id := by
  cases u with
  | raw name =>
      cases h
      exact iff_of_true rfl ⟨by simp, by simp⟩
  | safe name =>
      cases h
      simp [spelling, ← isSafe_iff_isFree, IsSafe]
  | counter name loops =>
      cases h
      simp [spelling]
  | brought name => cases h

namespace Sync

/-! ## Two sketches -/

/-- A name of a type, in another case, that is used as a variable. -/
def wordCode : String :=
  "void loop() \x7b\n  Word = Word + 1;\n  Word += 2;\n\x7d\n"

def wordAnew : String :=
  "int _Word;\n\nvoid setup() \x7b\n  // setup code\n\x7d\n\nvoid loop() \x7b\n  _Word = _Word + 1;\n" ++
    "  Word += 2;\n\x7d\n"

/-- A loop that counts with a variable, which its body uses. -/
def countedCode : String :=
  "void loop() \x7b\n  for (int n = 0; n < 3; n++) \x7b\n    digitalWrite(n, HIGH);\n  \x7d\n\x7d\n"

def countedAnew : String :=
  "void setup() \x7b\n  // setup code\n\x7d\n\nvoid loop() \x7b\n" ++
    "  for (int i = 0; i < 3; i++) \x7b\n    digitalWrite(n, HIGH);\n  \x7d\n\x7d\n"

theorem roundTrip_sketches :
    ((readSketch plainOptions wordCode).diagnostics.isEmpty = true ∧
      (readSketch plainOptions countedCode).diagnostics.isEmpty = true) ∧
    (roundTrip plainOptions "" wordCode = .ok wordAnew ∧
      roundTrip plainOptions "" countedCode = .ok countedAnew) ∧
    names (words wordCode.toList) = ["loop", "Word", "Word", "Word"] ∧
      names (words wordAnew.toList) = ["_Word", "setup", "loop", "_Word", "_Word", "Word"] := by
  decide +kernel

/-! ## Names -/

theorem isTopLevelIn_readSketch {o : Options} {source : String} :
    ∀ n ∈ (readSketch o source).program.body, n.IsTopLevelIn (Token.significant source o.file) :=
  fun _ hn => Grammar.isTopLevelIn_of_mem_body hn

/-- What comes back says the traces of the sketch, unless it is to be checked and holds a number with
too many digits. -/
theorem exists_roundTrip {o : Options} (ho : o.checked = .ok o) {now : String}
    (hnow : '\n' ∉ now.toList) (source : String) :
    (∃ once t, roundTrip o now source = .ok once ∧
        (readSketch o source).program.IsCodeTrace t ∧
        marks false (words once.toList) = t.spelled) ∨
      o.check = true ∧ ∃ n, roundTrip o now source = .error (.generate (.overlong n)) := by
  have htime : ∀ time ∈ (o.style now).time, '\n' ∉ time.toList := by
    intro time htime
    unfold Options.style at htime
    split at htime
    · cases htime
      exact hnow
    · cases htime
  obtain ⟨c, hread, hcode⟩ := exists_code isTopLevelIn_readSketch (isIndent_of_checked ho now) htime
  refine hcode.imp ?_ (And.imp_right ?_)
  · rintro ⟨g, front, lines, hg, hfront, hlines, hmarks⟩
    exact ⟨g.code, _, roundTrip_eq_ok hread hg, ⟨front, lines, hfront, hlines, rfl⟩, hmarks⟩
  · rintro ⟨n, hn⟩
    refine ⟨n, ?_⟩
    rw [roundTrip, hread]
    change ((c.workspace.generate (o.style now)).mapError _ >>= _) = _
    rw [hn]
    rfl

/-- The names in what comes back are those of the sketch, part by part, and each of them is spelled
as it was, with two exceptions. -/
theorem roundTrip_names {o : Options} (ho : o.checked = .ok o) {now : String}
    (hnow : '\n' ∉ now.toList) (source : String) :
    (∀ n ∈ (readSketch o source).program.parts,
      (n.trace 0).occurrences.filterMap Occurrence.origin? = n.kept.filterMap Mark.name?) ∧
    ((∃ once t, roundTrip o now source = .ok once ∧
        (readSketch o source).program.IsCodeTrace t ∧
        names (words once.toList) = t.occurrences.map Occurrence.spelling ∧
        ∀ u ∈ t.occurrences, ∀ id, u.origin? = some id →
          (u.spelling = id ↔ (u = .safe id → IsFree id) ∧
            ∀ loops, u = .counter id loops → Statement.counter loops = id)) ∨
      o.check = true ∧ ∃ n, roundTrip o now source = .error (.generate (.overlong n))) := by
  refine ⟨fun n hn => ?_, (exists_roundTrip ho hnow source).imp_left ?_⟩
  · rw [← Trace.occurrences_origins, (Program.origins_part isTopLevelIn_readSketch hn).1]
  · rintro ⟨once, t, hrun, ht, hmarks⟩
    refine ⟨once, t, hrun, ht, ?_, fun u _ id hid => Occurrence.spelling_eq_iff hid⟩
    rw [← filterMap_marks false, hmarks, Trace.occurrences_spelled]

/-- The names of the traces in what comes back, which are spelled in two ways. -/
theorem roundTrip_names_word :
    (plainOptions.checked = .ok plainOptions ∧ '\n' ∉ "".toList) ∧
      ∃ t, (readSketch plainOptions wordCode).program.IsCodeTrace t ∧
        t.occurrences.map Occurrence.spelling =
          ["_Word", "setup", "loop", "_Word", "_Word", "Word"] := by
  have hchecked : plainOptions.checked = .ok plainOptions := by decide
  have hfeed : '\n' ∉ "".toList := by decide
  obtain ⟨-, ⟨hrun, -⟩, -, hanew⟩ := roundTrip_sketches
  refine ⟨⟨hchecked, hfeed⟩, ?_⟩
  rcases (roundTrip_names hchecked hfeed wordCode).2 with ⟨once, t, honce, ht, hnames, -⟩ | ⟨h, -⟩
  · obtain rfl : wordAnew = once := Except.ok.inj (hrun.symm.trans honce)
    exact ⟨t, ht, hnames.symm.trans hanew⟩
  · cases h

/-- One name becomes two: it is taken, so it changes in an assignment, but not in raw text. -/
theorem roundTrip_splits_name :
    (readSketch plainOptions wordCode).diagnostics.isEmpty = true ∧
      names (words wordCode.toList) = ["loop", "Word", "Word", "Word"] ∧
      roundTrip plainOptions "" wordCode = .ok wordAnew ∧
      names (words wordAnew.toList) = ["_Word", "setup", "loop", "_Word", "_Word", "Word"] := by
  obtain ⟨⟨hreports, -⟩, ⟨hrun, -⟩, hbefore, hafter⟩ := roundTrip_sketches
  exact ⟨hreports, hbefore, hrun, hafter⟩

/-! ## References -/

/-- Which of the declarations in force a use refers to, counted from the innermost; none of them if
it refers to what is declared outside. -/
def reference? (use : String × List String) : Option Nat :=
  use.2.idxOf? use.1

def inSketch? (use : Occurrence × List Occurrence) : Option (String × List String) :=
  use.1.origin?.map (·, use.2.filterMap Occurrence.origin?)

def inCode (use : Occurrence × List Occurrence) : String × List String :=
  (use.1.spelling, use.2.map Occurrence.spelling)

/-- Whether a declaration has some name in the sketch, or some name in the code. -/
def isCalled (id spelling : String) (d : Occurrence) : Bool :=
  d.origin? == some id || d.spelling == spelling

/-- When a use, with its names as in the sketch, refers to the same declaration in the code. -/
structure Refers (use : Occurrence × List Occurrence) (sketchUse : String × List String) : Prop where
  /-- The innermost declaration that has the name in one of the two has it in both. -/
  kept : reference? sketchUse = reference? (inCode use) ↔
    ∀ d ∈ use.2.find? (isCalled sketchUse.1 use.1.spelling),
      d.origin? = some sketchUse.1 ∧ d.spelling = use.1.spelling
  /-- If no name is taken, only the variables of counted loops can be in the way. -/
  counted : use.1.spelling = sketchUse.1 → (∀ name, .safe name ∈ use.2 → IsFree name) →
    (reference? sketchUse = reference? (inCode use) ↔
      ∀ name loops, use.2.find? (isCalled sketchUse.1 use.1.spelling) = some (.counter name loops) →
        name = sketchUse.1 ∧ Statement.counter loops = sketchUse.1)

/-- Where two names lead to the same one of some declarations. -/
theorem idxOf?_eq_iff {ds : List Occurrence} (hds : ∀ d ∈ ds, ∃ id, d.origin? = some id)
    (id spelling : String) :
    (ds.filterMap Occurrence.origin?).idxOf? id = (ds.map Occurrence.spelling).idxOf? spelling ↔
      ∀ d ∈ ds.find? (isCalled id spelling), d.origin? = some id ∧ d.spelling = spelling := by
  induction ds with
  | nil => exact ⟨fun _ => nofun, fun _ => rfl⟩
  | cons d ds ih =>
      obtain ⟨⟨name, hname⟩, hds⟩ := List.forall_mem_cons.mp hds
      rw [List.filterMap_cons, hname, List.map_cons, List.idxOf?_cons, List.idxOf?_cons,
        List.find?_cons, isCalled, hname]
      by_cases hid : name = id <;> by_cases hspelling : d.spelling = spelling
      · simp [hid, hspelling, hname]
      · simp [hid, hspelling]
      · simp [hid, hspelling, hname]
      · have hnext : Function.Injective (Option.map (· + 1) : Option Nat → Option Nat) :=
          Option.map_injective (add_left_injective 1)
        have hskip : (some name == some id || d.spelling == spelling) = false := by
          simp [hid, hspelling]
        rw [hskip, if_neg (by simpa using hid), if_neg (by simpa using hspelling)]
        exact hnext.eq_iff.trans (ih hds)

/-- A declaration that is not that of a counted loop has one name, if that is free. -/
theorem isCalled_of_free {d : Occurrence} {id : String} (hown : ∃ name, d.origin? = some name)
    (hfree : ∀ name, d = .safe name → IsFree name) (hcalled : isCalled id id d = true)
    (hcounter : ∀ name loops, d ≠ .counter name loops) : d.origin? = some id ∧ d.spelling = id := by
  obtain ⟨name, hname⟩ := hown
  have hspelling : d.spelling = name := (Occurrence.spelling_eq_iff hname).mpr
    ⟨fun heq => hfree name heq, fun loops heq => absurd heq (hcounter name loops)⟩
  rw [isCalled, hname, hspelling] at hcalled
  obtain rfl : name = id := by simpa using hcalled
  exact ⟨hname, hspelling⟩

theorem refers {use : Occurrence × List Occurrence} {sketchUse : String × List String}
    (hown : ∀ d ∈ use.2, ∃ id, d.origin? = some id) (h : inSketch? use = some sketchUse) :
    Refers use sketchUse := by
  obtain ⟨id, hid, rfl⟩ := Option.map_eq_some_iff.mp h
  have hkept := idxOf?_eq_iff hown id use.1.spelling
  refine ⟨hkept, fun hspelling hfree => hkept.trans ?_⟩
  change use.1.spelling = id at hspelling
  rw [hspelling]
  constructor
  · intro hboth name loops hfound
    obtain ⟨horigin, hcounter⟩ := hboth _ hfound
    exact ⟨Option.some.inj horigin, hcounter⟩
  · intro hcounted d hfound
    by_cases hcounter : ∃ name loops, d = .counter name loops
    · obtain ⟨name, loops, rfl⟩ := hcounter
      obtain ⟨rfl, hname⟩ := hcounted name loops hfound
      exact ⟨rfl, hname⟩
    · have hmem := List.mem_of_find?_eq_some hfound
      exact isCalled_of_free (hown d hmem) (fun name heq => hfree name (heq ▸ hmem))
        (List.find?_some hfound) fun name loops heq => hcounter ⟨name, loops, heq⟩

/-- The uses of names in the two functions that come back are those in the sketch, one by one, and a
use refers to the same declaration exactly if the innermost declaration that has its name in the
sketch or in the code has it in both.  If no name is taken, that fails for counted loops only: those
whose variable has the name and gets another, and those whose variable gets the name. -/
theorem roundTrip_references {o : Options} (ho : o.checked = .ok o) {now : String}
    (hnow : '\n' ∉ now.toList) (source : String) :
    (∀ n ∈ (readSketch o source).program.parts,
      Mark.uses {} n.kept = (Mark.uses {} (n.trace 0)).filterMap inSketch? ∧
      Mark.uses {} (n.trace 0).spelled = (Mark.uses {} (n.trace 0)).map inCode ∧
      ∀ use ∈ Mark.uses {} (n.trace 0), ∀ sketchUse ∈ inSketch? use, Refers use sketchUse) ∧
    ((∃ once t, roundTrip o now source = .ok once ∧
        (readSketch o source).program.IsCodeTrace t ∧
        marks false (words once.toList) = t.spelled) ∨
      o.check = true ∧ ∃ n, roundTrip o now source = .error (.generate (.overlong n))) := by
  refine ⟨fun n hn => ?_, exists_roundTrip ho hnow source⟩
  obtain ⟨horigins, hown⟩ := Program.origins_part isTopLevelIn_readSketch hn
  refine ⟨?_, Mark.uses_map Occurrence.spelling _, fun use huse sketchUse hsketch => ?_⟩
  · rw [← horigins]
    exact Mark.uses_through Occurrence.origin? {} (n.trace 0)
  · exact refers (Mark.forall_mem_uses ⟨nofun, nofun⟩ hown use huse) hsketch

/-- The uses in the body of the loop, one by one. -/
theorem roundTrip_references_counted :
    (plainOptions.checked = .ok plainOptions ∧ '\n' ∉ "".toList) ∧
      (∀ n ∈ (readSketch plainOptions countedCode).program.parts,
        ∀ use ∈ Mark.uses {} (n.trace 0), ∀ sketchUse ∈ inSketch? use, Refers use sketchUse) ∧
      ∃ t, (readSketch plainOptions countedCode).program.IsCodeTrace t ∧
        marks false (words countedAnew.toList) = t.spelled := by
  have hchecked : plainOptions.checked = .ok plainOptions := by decide
  have hfeed : '\n' ∉ "".toList := by decide
  obtain ⟨hparts, ⟨once, t, honce, ht, hmarks⟩ | ⟨h, -⟩⟩ :=
    roundTrip_references hchecked hfeed countedCode
  · obtain ⟨-, ⟨-, hrun⟩, -⟩ := roundTrip_sketches
    obtain rfl : countedAnew = once := Except.ok.inj (hrun.symm.trans honce)
    exact ⟨⟨hchecked, hfeed⟩, fun n hn => (hparts n hn).2.2, t, ht, hmarks⟩
  · cases h

/-- The variable of a loop is bound no longer in its body; and with a variable outside that has the
name of the counter, the counter is taken for it. -/
theorem roundTrip_unbinds :
    let references (code : String) := (Mark.uses {} (marks false (words code.toList))).map
      fun use => (use.1, reference? use)
    let declared := "int i = 5;\n\nvoid loop() \x7b\n  for (int n = 0; n < 3; n++) \x7b\n" ++
      "    digitalWrite(i, HIGH);\n  \x7d\n\x7d\n"
    let captured := "int i = 5;\n\nvoid setup() \x7b\n  // setup code\n\x7d\n\nvoid loop() \x7b\n" ++
      "  for (int i = 0; i < 3; i++) \x7b\n    digitalWrite(i, HIGH);\n  \x7d\n\x7d\n"
    ((readSketch plainOptions countedCode).diagnostics.isEmpty = true ∧
      roundTrip plainOptions "" countedCode = .ok countedAnew ∧
      references countedCode =
        [("n", some 0), ("n", some 0), ("digitalWrite", none), ("n", some 0)] ∧
      references countedAnew =
        [("i", some 0), ("i", some 0), ("digitalWrite", none), ("n", none)]) ∧
    (readSketch plainOptions declared).diagnostics.isEmpty = true ∧
      roundTrip plainOptions "" declared = .ok captured ∧
      references declared =
        [("n", some 0), ("n", some 0), ("digitalWrite", none), ("i", some 2)] ∧
      references captured =
        [("i", some 0), ("i", some 0), ("digitalWrite", none), ("i", some 0)] := by
  obtain ⟨⟨-, hreports⟩, ⟨-, hrun⟩, -⟩ := roundTrip_sketches
  refine ⟨⟨hreports, hrun, ?_, ?_⟩, ?_, ?_, ?_, ?_⟩
  all_goals decide +kernel

end Sync

end InoBlocks
