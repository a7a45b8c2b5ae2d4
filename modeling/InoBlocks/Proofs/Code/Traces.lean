import InoBlocks.Proofs.Code.CanonicalControl
import InoBlocks.Proofs.Code.Occurrences
import InoBlocks.Proofs.Sketch.Headings

/-!
# The traces of statements

The trace of a statement is what the words of its code say about names: which of them are used and
which declared, in what order, and inside of which braces and headers of loops, each of them as an
occurrence that knows where it comes from.

The trace is read off the tree.  Without the variables of counted loops, which get new names, and
without what literals bring, it is what the tree says about names itself.
-/

namespace InoBlocks

open Word Code

abbrev Trace := List (Mark Occurrence)

namespace Trace

def ofNames (os : List Occurrence) : Trace :=
  os.map .name

/-- What a trace says with its names spelled as in the code. -/
def spelled (t : Trace) : List (Mark String) :=
  t.map (Mark.map Occurrence.spelling)

/-- What a trace says with its names as in the sketch, without those that the sketch has not. -/
def origins (t : Trace) : List (Mark String) :=
  t.filterMap (Mark.through Occurrence.origin?)

theorem spelled_append (t u : Trace) : spelled (t ++ u) = t.spelled ++ u.spelled :=
  List.map_append

theorem origins_append (t u : Trace) : origins (t ++ u) = t.origins ++ u.origins :=
  List.filterMap_append

theorem spelled_ofNames (os : List Occurrence) :
    (ofNames os).spelled = (os.map Occurrence.spelling).map .name := by
  simp [ofNames, spelled, Function.comp_def, Mark.map]

theorem origins_ofNames (os : List Occurrence) :
    (ofNames os).origins = (os.filterMap Occurrence.origin?).map .name := by
  rw [ofNames, origins, List.filterMap_map, List.map_filterMap]
  rfl

theorem origins_braced (t : Trace) : origins (Mark.braced t) = Mark.braced t.origins := by
  rw [Mark.braced, origins_append]
  rfl

theorem spelled_braced (t : Trace) : spelled (Mark.braced t) = Mark.braced t.spelled := by
  rw [Mark.braced, spelled_append]
  rfl

end Trace

namespace Trace

def occurrences (t : Trace) : List Occurrence :=
  t.filterMap Mark.name?

theorem occurrences_spelled (t : Trace) :
    t.spelled.filterMap Mark.name? = t.occurrences.map Occurrence.spelling := by
  rw [spelled, occurrences, List.filterMap_map, List.map_filterMap]
  exact congrArg (t.filterMap ·) (funext (Mark.name?_map Occurrence.spelling))

theorem occurrences_origins (t : Trace) :
    t.origins.filterMap Mark.name? = t.occurrences.filterMap Occurrence.origin? := by
  rw [origins, occurrences, List.filterMap_filterMap, List.filterMap_filterMap]
  exact congrArg (t.filterMap ·) (funext (Mark.name?_through Occurrence.origin?))

def IsOwn (t : Trace) : Prop :=
  ∀ d, .declares d ∈ t → ∃ id, d.origin? = some id

namespace IsOwn

variable {t u : Trace}

theorem append (h : t.IsOwn) (h' : u.IsOwn) : IsOwn (t ++ u) := fun d hd =>
  (List.mem_append.mp hd).elim (h d) (h' d)

theorem cons {m : Mark Occurrence} (hm : ∀ d, m = .declares d → ∃ id, d.origin? = some id)
    (h : t.IsOwn) : IsOwn (m :: t) := fun d hd =>
  (List.mem_cons.mp hd).elim (fun heq => hm d heq.symm) (h d)

theorem nil : IsOwn [] :=
  nofun

theorem ofNames (os : List Occurrence) : (ofNames os).IsOwn := by
  intro d hd
  obtain ⟨o, -, ho⟩ := List.mem_map.mp hd
  cases ho

theorem braced (h : t.IsOwn) : IsOwn (Mark.braced t) :=
  append (cons nofun h) (cons nofun nil)

end IsOwn

end Trace

/-! ## Expressions by themselves -/

/-- A text with the occurrences that its names are. -/
structure Snippet where
  text : String
  names : List Occurrence

/-- A snippet is read as words of an expression with its names. -/
def Snippet.IsTold (s : Snippet) : Prop :=
  Tells s.text (s.names.map Occurrence.spelling)

namespace Expr

def asValue (e : Expr) : Snippet :=
  ⟨e.coded.text, e.coming⟩

def asPin (default : String) (e : Expr) : Snippet :=
  ⟨pinText default e e.coded, inSlot (pinText default e e.coded) e e.coming⟩

def asNumber (default : String) (limits : Limits) (e : Expr) : Snippet :=
  ⟨numberText default limits e, inSlot (numberText default limits e) e e.coming⟩

def asRaw (e : Expr) : Snippet :=
  ⟨(rawOperand e.source).text, e.inRaw⟩

/-- The arguments of a call by itself, for the functions whose blocks have inputs of their own. -/
def effectArguments? : String → List Expr → Option (List Snippet)
  | "digitalWrite", [e, state] =>
      ((Blocks.constant? state).filter Blocks.isState).map fun s => [e.asPin "13", ⟨s, []⟩]
  | "pinMode", [e, mode] =>
      ((Blocks.constant? mode).filter Blocks.isMode).map fun m => [e.asPin "13", ⟨m, []⟩]
  | "delay", [.literal l (.number x) text] =>
      some [(Expr.literal l (.number x) text).asNumber "1000" .natural]
  | "delayMicroseconds", [.literal l (.number x) text] =>
      some [(Expr.literal l (.number x) text).asNumber "100" .natural]
  | "analogWrite", [e, value] =>
      some [e.asPin "9", value.asNumber "128" Shape.analogLimits]
  | "randomSeed", [seed] => some [seed.asValue]
  | _, _ => none

/-- The arguments of a call by itself of a method of the serial line, if they have an input. -/
def serialArguments? : String → List Expr → Option (List Snippet)
  | "begin", [e] => some [e.asNumber "9600" .natural]
  | "print", [e] | "println", [e] => some [e.asValue]
  | _, _ => none

def asCall (name : String) (names : List Occurrence) (arguments : List Snippet) : Snippet :=
  ⟨Value.callText name (arguments.map Snippet.text), names ++ arguments.flatMap Snippet.names⟩

def asEffect (e : Expr) : Snippet :=
  match e with
  | .call _ (.name _ id) arguments =>
      match effectArguments? id arguments with
      | some snippets => asCall id [.raw id] snippets
      | none =>
          if (Blocks.statementCall? id).any fun call => arguments.length == call.2.length then
            e.asValue
          else e.asRaw
  | .call _ (.member _ (.name _ "Serial") method) arguments =>
      match serialArguments? method arguments with
      | some snippets => asCall ("Serial." ++ method) [.raw "Serial", .raw method] snippets
      | none => e.asRaw
  | .assign _ "=" (.name _ id) right =>
      ⟨safeName id unnamed ++ " = " ++ right.coded.text, .safe id :: right.coming⟩
  | e => e.asRaw

/-! ### Each name comes back once -/

theorem names_of_constant? {e : Expr} {s : String} (h : Blocks.constant? e = some s) :
    e.names = [] := by
  unfold Blocks.constant? at h
  split at h
  · rfl
  · cases h

/-- The names of a snippet stand for those of an expression, in their order. -/
def IsOf (s : Snippet) (e : Expr) : Prop :=
  s.names.filterMap Occurrence.origin? = e.names

theorem IsOf.eq {s : Snippet} {e : Expr} (h : IsOf s e) :
    s.names.filterMap Occurrence.origin? = e.names :=
  h

theorem isOf_asValue (e : Expr) : IsOf e.asValue e :=
  filterMap_coming e

theorem isOf_asRaw (e : Expr) : IsOf e.asRaw e :=
  filterMap_inRaw e

theorem isOf_asPin (default : String) (e : Expr) : IsOf (e.asPin default) e :=
  filterMap_inSlot _ (filterMap_coming e)

theorem isOf_asNumber (default : String) (limits : Limits) (e : Expr) :
    IsOf (e.asNumber default limits) e :=
  filterMap_inSlot _ (filterMap_coming e)

theorem origins_asCall {name : String} {names : List Occurrence} {arguments : List Snippet}
    {ids : List String} {es : List Expr} (hnames : names.filterMap Occurrence.origin? = ids)
    (hsnippets : List.Forall₂ IsOf arguments es) :
    (asCall name names arguments).names.filterMap Occurrence.origin? = ids ++ namesAll es := by
  rw [asCall, List.filterMap_append, hnames]
  congr 1
  induction hsnippets with
  | nil => rfl
  | cons hs _ ih => rw [List.flatMap_cons, List.filterMap_append, hs.eq, ih, namesAll]

theorem origins_effectArguments? {id : String} {arguments : List Expr} {snippets : List Snippet}
    (h : effectArguments? id arguments = some snippets) : List.Forall₂ IsOf snippets arguments := by
  have hconstant : ∀ {e : Expr} {p : String → Bool} {s : String},
      (Blocks.constant? e).filter p = some s → IsOf ⟨s, []⟩ e := fun h =>
    (names_of_constant? (Option.filter_eq_some_iff.mp h).1).symm
  unfold effectArguments? at h
  split at h
  · obtain ⟨s, hs, rfl⟩ := Option.map_eq_some_iff.mp h
    exact .cons (isOf_asPin "13" _) (.cons (hconstant hs) .nil)
  · obtain ⟨s, hs, rfl⟩ := Option.map_eq_some_iff.mp h
    exact .cons (isOf_asPin "13" _) (.cons (hconstant hs) .nil)
  · cases h
    exact .cons (isOf_asNumber "1000" .natural _) .nil
  · cases h
    exact .cons (isOf_asNumber "100" .natural _) .nil
  · cases h
    exact .cons (isOf_asPin "9" _) (.cons (isOf_asNumber "128" Shape.analogLimits _) .nil)
  · cases h
    exact .cons (isOf_asValue _) .nil
  · cases h

theorem origins_serialArguments? {method : String} {arguments : List Expr}
    {snippets : List Snippet} (h : serialArguments? method arguments = some snippets) :
    List.Forall₂ IsOf snippets arguments := by
  unfold serialArguments? at h
  split at h <;> cases h
  · exact .cons (isOf_asNumber "9600" .natural _) .nil
  · exact .cons (isOf_asValue _) .nil
  · exact .cons (isOf_asValue _) .nil

/-- What is written for an expression by itself has its names, in their order. -/
theorem isOf_asEffect (e : Expr) : IsOf e.asEffect e := by
  unfold asEffect
  split
  · rename_i l l' id arguments
    split
    · rename_i hsnippets
      have hname : [Occurrence.raw id].filterMap Occurrence.origin? = (Expr.name l' id).names := rfl
      exact origins_asCall hname (origins_effectArguments? hsnippets)
    · split
      · exact isOf_asValue _
      · exact isOf_asRaw _
  · rename_i l l' l'' method arguments
    split
    · rename_i hsnippets
      have hname : [Occurrence.raw "Serial", .raw method].filterMap Occurrence.origin? =
          (Expr.member l' (.name l'' "Serial") method).names := rfl
      exact origins_asCall hname (origins_serialArguments? hsnippets)
    · exact isOf_asRaw _
  · exact congrArg (_ :: ·) (filterMap_coming _)
  · exact isOf_asRaw _

/-! ### The text has just these names -/

theorem Proper.asValue_isTold {e : Expr} (h : e.Proper) : e.asValue.IsTold :=
  h.coded_tells

theorem Proper.asRaw_isTold {e : Expr} (h : e.Proper) : e.asRaw.IsTold :=
  h.raw_tells

theorem Proper.asPin_isTold {default : String} (hdefault : IsFieldText default) {e : Expr}
    (h : e.Proper) : (e.asPin default).IsTold :=
  h.slot_tells (show ∀ d ∈ some default, IsFieldText d by simpa using hdefault) h.coded_tells

theorem numberText_of_ne_literal {e : Expr} (h : ∀ l value raw, e ≠ .literal l value raw)
    (default : String) (limits : Limits) : numberText default limits e = e.coded.text := by
  cases e with
  | literal l value raw => exact absurd rfl (h l value raw)
  | _ => rfl

theorem Proper.asNumber_isTold {default : String} {limits : Limits}
    (hfield : ∀ field?, IsFieldText (Numeral.ofField field? default limits)) {e : Expr}
    (h : e.Proper) : (e.asNumber default limits).IsTold := by
  refine tells_inSlot ?_ fun hne => ?_
  · rintro l value raw rfl
    cases value with
    | number x => exact .of_isFieldText (hfield (some raw))
    | text t => exact h.literal_tells
  · rw [asNumber, numberText_of_ne_literal hne]
    exact h.coded_tells

theorem isFieldText_natural {default : String}
    (h : default ∈ ["0", "2", "9", "10", "13", "100", "128", "1000", "9600", "A0"])
    (field? : Option String) : IsFieldText (Numeral.ofField field? default .natural) :=
  .ofField_natural (.of_mem_defaults default h) field?

theorem asCall_isTold {name : String} {names : List Occurrence}
    (hname : Tells name (names.map Occurrence.spelling)) {snippets : List Snippet}
    (h : ∀ s ∈ snippets, s.IsTold) : (asCall name names snippets).IsTold := by
  let items := snippets.map fun s => (s.text, s.names.map Occurrence.spelling)
  have hitems : ∀ a ∈ items, Tells a.1 a.2 := List.forall_mem_map.mpr h
  have hcall := hname.call hitems
  rw [List.map_map, List.flatMap_map] at hcall
  rw [Snippet.IsTold, asCall, List.map_append, List.map_flatMap]
  exact hcall

theorem constant_isTold {word : String} (h : word ∈ valueWords) : Snippet.IsTold ⟨word, []⟩ := by
  have hwords : ∀ word ∈ valueWords, TokenKind.ofWord word ≠ .identifier ∧
      (TokenKind.ofWord word).inPhrase = true ∧ (TokenKind.ofWord word).symbol? = none := by
    decide
  obtain ⟨hname, hphrase, hsymbol⟩ := hwords word h
  obtain ⟨-, hhead, htail, -⟩ := valueWords_spec word h
  have htells := Tells.word (firm_ofWord rfl hhead htail) hsymbol hphrase
  rwa [names_of_ne hname] at htells

theorem isTold_effectArguments? {id : String} {arguments : List Expr}
    (hproper : ∀ a ∈ arguments, a.Proper) {snippets : List Snippet}
    (h : effectArguments? id arguments = some snippets) : ∀ s ∈ snippets, s.IsTold := by
  have hstate : ∀ s, Blocks.isState s = true → s ∈ valueWords := by
    intro s hs
    simp only [Blocks.isState, Bool.or_eq_true, beq_iff_eq] at hs
    rcases hs with rfl | rfl <;> decide
  have hmode : ∀ s, Blocks.isMode s = true → s ∈ valueWords := by
    intro s hs
    simp only [Blocks.isMode, Bool.or_eq_true, beq_iff_eq] at hs
    rcases hs with (rfl | rfl) | rfl <;> decide
  unfold effectArguments? at h
  split at h
  · obtain ⟨s, hs, rfl⟩ := Option.map_eq_some_iff.mp h
    refine List.forall_mem_cons.mpr
      ⟨(hproper _ (by simp)).asPin_isTold (.of_mem_defaults _ (by decide)),
        List.forall_mem_singleton.mpr (constant_isTold (hstate s ?_))⟩
    exact (Option.filter_eq_some_iff.mp hs).2
  · obtain ⟨s, hs, rfl⟩ := Option.map_eq_some_iff.mp h
    refine List.forall_mem_cons.mpr
      ⟨(hproper _ (by simp)).asPin_isTold (.of_mem_defaults _ (by decide)),
        List.forall_mem_singleton.mpr (constant_isTold (hmode s ?_))⟩
    exact (Option.filter_eq_some_iff.mp hs).2
  · cases h
    exact List.forall_mem_singleton.mpr
      ((hproper _ (by simp)).asNumber_isTold (isFieldText_natural (by decide)))
  · cases h
    exact List.forall_mem_singleton.mpr
      ((hproper _ (by simp)).asNumber_isTold (isFieldText_natural (by decide)))
  · cases h
    refine List.forall_mem_cons.mpr
      ⟨(hproper _ (by simp)).asPin_isTold (.of_mem_defaults _ (by decide)),
        List.forall_mem_singleton.mpr ((hproper _ (by simp)).asNumber_isTold fun field? => ?_)⟩
    exact .ofField_upTo (.of_mem_defaults _ (by decide)) (by decide) field?
  · cases h
    exact List.forall_mem_singleton.mpr (hproper _ (by simp)).asValue_isTold
  · cases h

theorem isTold_serialArguments? {method : String} {arguments : List Expr}
    (hproper : ∀ a ∈ arguments, a.Proper) {snippets : List Snippet}
    (h : serialArguments? method arguments = some snippets) : ∀ s ∈ snippets, s.IsTold := by
  unfold serialArguments? at h
  split at h <;> cases h
  · exact List.forall_mem_singleton.mpr
      ((hproper _ (by simp)).asNumber_isTold (isFieldText_natural (by decide)))
  · exact List.forall_mem_singleton.mpr (hproper _ (by simp)).asValue_isTold
  · exact List.forall_mem_singleton.mpr (hproper _ (by simp)).asValue_isTold

/-- What is written for an expression by itself is read as its names. -/
theorem Proper.asEffect_isTold {e : Expr} (h : e.Proper) : e.asEffect.IsTold := by
  have hwhole := h
  unfold asEffect
  split
  · cases h with
    | call _ hcallee hargs =>
        split
        · rename_i hsnippets
          exact asCall_isTold hcallee.source_tells (isTold_effectArguments? hargs hsnippets)
        · split
          · exact hwhole.asValue_isTold
          · exact hwhole.asRaw_isTold
  · cases h with
    | call _ hcallee hargs =>
        split
        · rename_i hsnippets
          exact asCall_isTold hcallee.source_tells (isTold_serialArguments? hargs hsnippets)
        · exact hwhole.asRaw_isTold
  · rename_i id right
    cases h with
    | assign _ _ _ _ hright =>
        have hname := Tells.identifier (isSafe_safeName id (show IsSafe unnamed by decide)).firm
        have hassign := hname.infixed (show TokenKind.assign.symbol? = some "=" from rfl) rfl
          hright.coded_tells
        rw [Snippet.IsTold, List.map_cons]
        simpa [String.append_assoc, Occurrence.spelling] using hassign
  · exact h.asRaw_isTold

end Expr

/-! ## Statements -/

open Mark (braced)
open Trace (ofNames)

namespace Node

def isBranch : Node → Bool
  | branch .. => true
  | _ => false

mutual

def isIdle : Node → Bool
  | .empty | .exit .. => true
  | .block _ body => areIdle body
  | _ => false

/-- Whether statements have no blocks; blocks in braces among them are passed over. -/
def areIdle : List Node → Bool
  | [] => true
  | n :: ns => (n.isBlock || n.isIdle) && areIdle ns

end

/-- What is said of a statement behind an `else`: a choice goes on with its own arms, and a
statement without a block leaves no arm. -/
def behindElse {α : Type} (n : Node) (ms : List (Mark α)) : List (Mark α) :=
  if n.isBranch then ms else if n.isIdle then [] else braced ms

/-! ### In the sketch -/

mutual

/-- What a statement says about names, the parts left out that have no blocks. -/
def kept : Node → List (Mark String)
  | .effect _ e | .bare e => e.names.map .name
  | .declaration _ _ name e => .declares name :: e.names.map .name
  | .block _ body => keptAll body
  | .branch _ test consequent alternative =>
      test.names.map .name ++ braced consequent.kept ++ alternative.behindElse alternative.kept
  | .forLoop _ init test update body =>
      .loop :: init.kept ++ test.names.map .name ++ update.names.map .name ++ braced body.kept
  | .whileLoop _ test body => test.names.map .name ++ braced body.kept
  | _ => []

def keptAll : List Node → List (Mark String)
  | [] => []
  | n :: ns => (if n.isBlock then [] else n.kept) ++ keptAll ns

end

/-! ### In the code -/

/-- What the first part of a loop's header says if it stays raw text. -/
def initTrace : Node → Trace
  | .declaration _ _ name e => .declares (.raw name) :: ofNames e.inRaw
  | .bare e => ofNames e.inRaw
  | _ => []

/-- What the header of a loop says if it stays raw text. -/
def headerTrace (init : Node) (test update : Expr) : Trace :=
  init.initTrace ++ ofNames test.inRaw ++ ofNames update.inRaw

/-- What the header of a loop says that counts up to a bound. -/
def countTrace (name : String) (loops : Nat) (bound : Expr) : Trace :=
  .declares (.counter name loops) :: .name (.counter name loops) ::
    ofNames (bound.asNumber "10" .natural).names ++ [.name (.counter name loops)]

mutual

/-- What the code of a statement says, with the number of counted loops around it. -/
def trace (loops : Nat) : Node → Trace
  | .effect _ e => ofNames e.asEffect.names
  | .declaration _ _ name e => .declares (.safe name) :: ofNames e.coming
  | .block _ body => traceAll loops body
  | .branch _ test consequent alternative =>
      ofNames test.coming ++ braced (consequent.trace loops) ++
        alternative.behindElse (alternative.trace loops)
  | .forLoop _ init test update body =>
      match init, Blocks.repetitions? init test update with
      | .declaration _ _ name _, some bound =>
          .loop :: countTrace name loops bound ++ braced (body.trace (loops + 1))
      | _, _ => .loop :: headerTrace init test update ++ braced (body.trace loops)
  | .whileLoop _ test body => ofNames test.coming ++ braced (body.trace loops)
  | _ => []

def traceAll (loops : Nat) : List Node → Trace
  | [] => []
  | n :: ns => (if n.isBlock then [] else n.trace loops) ++ traceAll loops ns

end

/-! ### Each name comes back once -/

theorem origins_behindElse (n : Node) (t : Trace) :
    Trace.origins (n.behindElse t) = n.behindElse t.origins := by
  unfold behindElse
  split
  · rfl
  · split
    · rfl
    · exact Trace.origins_braced t

theorem origins_headerTrace {ts : List Token} {init : Node} (hinit : init.IsInitIn ts)
    (test update : Expr) :
    (headerTrace init test update).origins =
      init.kept ++ test.names.map .name ++ update.names.map .name := by
  rw [headerTrace, Trace.origins_append, Trace.origins_append, Trace.origins_ofNames,
    Trace.origins_ofNames, Expr.filterMap_inRaw, Expr.filterMap_inRaw]
  congr 2
  cases hinit with
  | absent => rfl
  | @declaration l type name e hdeclared h =>
      have hvalue := Trace.origins_ofNames e.inRaw
      rw [Expr.filterMap_inRaw] at hvalue
      exact congrArg (Mark.declares name :: ·) hvalue
  | bare h =>
      rw [kept, ← Expr.filterMap_inRaw]
      exact Trace.origins_ofNames _

theorem exists_of_repetitions? {init : Node} {test update bound : Expr}
    (h : Blocks.repetitions? init test update = some bound) :
    ∃ l₁ type name l₂ start raw l₃ l₄ l₅ l₆ before,
      init = .declaration l₁ type name (.literal l₂ (.number start) raw) ∧
        test = .binary l₃ "<" (.name l₄ name) bound ∧
        update = .unary l₅ "++" (.name l₆ name) before := by
  unfold Blocks.repetitions? at h
  split at h
  · split at h
    · rename_i hcond
      cases h
      simp only [Bool.and_eq_true, beq_iff_eq] at hcond
      obtain ⟨⟨-, rfl⟩, rfl⟩ := hcond
      exact ⟨_, _, _, _, _, _, _, _, _, _, _, rfl, rfl, rfl⟩
    · cases h
  · cases h

theorem trace_forLoop_of_none {init : Node} {test update : Expr}
    (h : Blocks.repetitions? init test update = none) (loops : Nat) (l : Location) (body : Node) :
    (forLoop l init test update body).trace loops =
      .loop :: headerTrace init test update ++ braced (body.trace loops) := by
  rw [trace.eq_def]
  dsimp only
  rw [h]
  cases init <;> rfl

theorem trace_forLoop_of_some {init : Node} {test update bound : Expr}
    (h : Blocks.repetitions? init test update = some bound) :
    ∃ l' type name value, init = .declaration l' type name value ∧
      ∀ (loops : Nat) (l : Location) (body : Node), (forLoop l init test update body).trace loops =
        .loop :: countTrace name loops bound ++ braced (body.trace (loops + 1)) := by
  obtain ⟨_, _, _, _, _, _, _, _, _, _, _, rfl, -⟩ := exists_of_repetitions? h
  refine ⟨_, _, _, _, rfl, fun loops l body => ?_⟩
  rw [trace.eq_def]
  dsimp only
  rw [h]

theorem origins_countTrace {init : Node} {test update bound : Expr} {l : Location}
    {type name : String} {value : Expr} (h : Blocks.repetitions? init test update = some bound)
    (hinit : init = .declaration l type name value) (loops : Nat) :
    (countTrace name loops bound).origins =
      init.kept ++ test.names.map .name ++ update.names.map .name := by
  obtain ⟨_, _, _, _, _, _, _, _, _, _, _, rfl, rfl, rfl⟩ := exists_of_repetitions? h
  cases hinit
  have hbound := Trace.origins_ofNames (bound.asNumber "10" .natural).names
  rw [(Expr.isOf_asNumber "10" .natural bound).eq] at hbound
  rw [countTrace, Trace.origins_append, kept, Expr.names, Expr.names, Expr.names, Expr.names,
    Expr.names, List.map_append, ← hbound]
  rfl

/-- What the code of a statement says about names is what the statement says about them, if the
names that literals bring are left out. -/
theorem origins_trace {ts : List Token} {n : Node} (h : n.IsStatementIn ts) (loops : Nat) :
    (n.trace loops).origins = n.kept := by
  have hany : ∀ {n : Node} (loops : Nat),
      (n ≠ .empty → ∀ loops, (n.trace loops).origins = n.kept) →
      (n.trace loops).origins = n.kept := by
    intro n loops h
    by_cases hn : n = .empty
    · rw [hn]
      rfl
    · exact h hn loops
  have hnames : ∀ {e : Expr} {os : List Occurrence}, os.filterMap Occurrence.origin? = e.names →
      (ofNames os).origins = e.names.map .name := fun h => by rw [Trace.origins_ofNames, h]
  induction h generalizing loops with
  | @effect l e h => exact hnames (Expr.isOf_asEffect e)
  | exit l h => rfl
  | @declaration l type name e hdeclared h =>
      exact congrArg (Mark.declares name :: ·) (hnames (Expr.filterMap_coming e))
  | @block l body h ih =>
      rw [trace, kept]
      clear h
      induction body with
      | nil => rfl
      | cons n ns ihs =>
          obtain ⟨hn, hns⟩ := List.forall_mem_cons.mp ih
          rw [traceAll, keptAll, Trace.origins_append, ihs hns]
          congr 1
          split
          · rfl
          · exact hn loops
  | @branch l test consequent alternative htest hthen helse ihthen ihelse =>
      rw [trace, kept, Trace.origins_append, Trace.origins_append,
        hnames (Expr.filterMap_coming test), Trace.origins_braced, hany loops ihthen,
        origins_behindElse, hany loops ihelse]
  | @forLoop l init body test update hinit htest hupdate hbody ih =>
      have hloop : ∀ t u : Trace, Trace.origins (.loop :: t ++ u) = .loop :: t.origins ++ u.origins :=
        fun t u => Trace.origins_append (.loop :: t) u
      cases hrepetitions : Blocks.repetitions? init test update with
      | some bound =>
          obtain ⟨_, _, name, _, hname, htrace⟩ := trace_forLoop_of_some hrepetitions
          rw [htrace, hloop, origins_countTrace hrepetitions hname, Trace.origins_braced,
            hany (loops + 1) ih]
          simp [kept]
      | none =>
          rw [trace_forLoop_of_none hrepetitions, hloop, origins_headerTrace hinit,
            Trace.origins_braced, hany loops ih]
          simp [kept]
  | @whileLoop l test body htest hbody ih =>
      rw [trace, kept, Trace.origins_append, hnames (Expr.filterMap_coming test),
        Trace.origins_braced, hany loops ih]

/-- The code of a statement declares nothing that the statement does not declare. -/
theorem isOwn_trace {ts : List Token} {n : Node} (h : n.IsStatementIn ts) (loops : Nat) :
    (n.trace loops).IsOwn := by
  have hany : ∀ {n : Node} (loops : Nat), (n ≠ .empty → ∀ loops, (n.trace loops).IsOwn) →
      (n.trace loops).IsOwn := by
    intro n loops h
    by_cases hn : n = .empty
    · exact hn ▸ .nil
    · exact h hn loops
  induction h generalizing loops with
  | effect l h => exact .ofNames _
  | exit l h => exact .nil
  | declaration l hdeclared h => exact .cons (fun _ heq => by cases heq; exact ⟨_, rfl⟩) (.ofNames _)
  | @block l body h ih =>
      rw [trace]
      clear h
      induction body with
      | nil => exact .nil
      | cons n ns ihs =>
          obtain ⟨hn, hns⟩ := List.forall_mem_cons.mp ih
          rw [traceAll]
          refine .append ?_ (ihs hns)
          split
          · exact .nil
          · exact hn loops
  | @branch l test consequent alternative htest hthen helse ihthen ihelse =>
      rw [trace, behindElse]
      refine .append (.append (.ofNames _) (hany loops ihthen).braced) ?_
      split
      · exact hany loops ihelse
      · split
        · exact .nil
        · exact (hany loops ihelse).braced
  | @forLoop l init body test update hinit htest hupdate hbody ih =>
      cases hrepetitions : Blocks.repetitions? init test update with
      | some bound =>
          obtain ⟨_, _, name, _, -, htrace⟩ := trace_forLoop_of_some hrepetitions
          rw [htrace]
          refine .append (.cons nofun (.append (.cons ?_ (.cons nofun (.ofNames _)))
            (.cons nofun .nil))) (hany (loops + 1) ih).braced
          rintro d heq
          cases heq
          exact ⟨name, rfl⟩
      | none =>
          rw [trace_forLoop_of_none hrepetitions, headerTrace]
          refine .append (.cons nofun (.append (.append ?_ (.ofNames _)) (.ofNames _)))
            (hany loops ih).braced
          cases hinit with
          | absent => exact .nil
          | declaration => exact .cons (fun _ heq => by cases heq; exact ⟨_, rfl⟩) (.ofNames _)
          | bare => exact .ofNames _
  | whileLoop l htest hbody ih =>
      rw [trace]
      exact .append (.ofNames _) (hany loops ih).braced

end Node

/-! ## Sketches -/

namespace Trace

def ofInclude : Trace :=
  ofNames (["include", "math", "h"].map .brought)

def ofFunction (name : String) (t : Trace) : Trace :=
  .declares (.brought name) :: braced t

theorem mem_ofFunction {name : String} {t : Trace} {m : Mark Occurrence} (h : m ∈ t) :
    m ∈ ofFunction name t :=
  List.mem_cons_of_mem _ (Mark.mem_braced h)

end Trace

namespace Node

def bodyOf? (name : String) : Node → Option Node
  | .function _ name' _ _ body => if name' == name then some body else none
  | _ => none

end Node

namespace Program

variable (p : Program)

/-- The body of the last function of a name, nothing if there is none. -/
def lastBody (name : String) : Node :=
  (p.body.filterMap (Node.bodyOf? name)).getLastD .empty

def declarations : List Node :=
  p.body.filter fun n => (variableName? n).isSome

/-- What the code says of an include, of lines with declarations, and of the two functions, which
are there even if the sketch has none. -/
def codeTrace (front : Trace) (lines : List Trace) : Trace :=
  front ++ (lines.flatten ++ (.ofFunction "setup" ((p.lastBody "setup").trace 0) ++
    .ofFunction "loop" ((p.lastBody "loop").trace 0)))

/-- What the lines of the code say that declare variables: a line for every declaration, of which
those with one text are one line, and a line for some names that are assigned. -/
structure IsDeclaredBy (lines : List Trace) : Prop where
  complete : ∀ n ∈ p.declarations, ∃ t ∈ lines, t.spelled = (n.trace 0).spelled
  sound : ∀ t ∈ lines, (∃ n ∈ p.declarations, t = n.trace 0) ∨
    ∃ id, t = [.declares (.safe id)] ∧
      .name (.safe id) ∈ p.codeTrace [] (p.declarations.map (Node.trace 0))

def IsCodeTrace (t : Trace) : Prop :=
  ∃ (front : Trace) (lines : List Trace), (front = [] ∨ front = .ofInclude) ∧
    p.IsDeclaredBy lines ∧ t = p.codeTrace front lines

def parts : List Node :=
  p.declarations ++ [p.lastBody "setup", p.lastBody "loop"]

variable {p}

/-- A part of a sketch is a statement, if the sketch has it. -/
theorem part_cases {ts : List Token} (h : ∀ n ∈ p.body, n.IsTopLevelIn ts) {n : Node}
    (hn : n ∈ p.parts) : n = .empty ∨ ∃ us, n.IsStatementIn us := by
  have hbody : ∀ name, p.lastBody name = .empty ∨ ∃ us, (p.lastBody name).IsStatementIn us := by
    intro name
    have hlast : p.lastBody name ∈ Node.empty :: p.body.filterMap (Node.bodyOf? name) :=
      List.getLastD_mem_cons
    rcases List.mem_cons.mp hlast with hempty | hmem
    · exact Or.inl hempty
    · obtain ⟨f, hf, hfound⟩ := List.mem_filterMap.mp hmem
      cases h f hf with
      | function l hdeclared hps hts hparen hbody =>
          rw [Node.bodyOf?] at hfound
          split at hfound
          · exact Or.inr ⟨_, Option.some.inj hfound ▸ hbody⟩
          · cases hfound
      | declaration => cases hfound
  rcases List.mem_append.mp hn with hn | hn
  · obtain ⟨hmem, hname⟩ := List.mem_filter.mp hn
    cases h n hmem with
    | function => cases hname
    | declaration l hdeclared he => exact Or.inr ⟨ts, .declaration l hdeclared he⟩
  · simp only [List.mem_cons, List.not_mem_nil, or_false] at hn
    rcases hn with rfl | rfl
    · exact hbody "setup"
    · exact hbody "loop"

/-- What the code of a part says about names is what the part says about them, and it declares
nothing else. -/
theorem origins_part {ts : List Token} (h : ∀ n ∈ p.body, n.IsTopLevelIn ts) {n : Node}
    (hn : n ∈ p.parts) : (n.trace 0).origins = n.kept ∧ (n.trace 0).IsOwn := by
  rcases part_cases h hn with rfl | ⟨us, hus⟩
  · exact ⟨rfl, .nil⟩
  · exact ⟨Node.origins_trace hus 0, Node.isOwn_trace hus 0⟩

end Program

end InoBlocks
