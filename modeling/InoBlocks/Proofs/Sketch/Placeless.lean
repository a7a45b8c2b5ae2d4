import InoBlocks.Proofs.Sketch.PhraseReading
import InoBlocks.Sketch.Blocks

/-!
# Places do not matter to blocks

The blocks of a sketch are the same wherever its parts were read.  Only a fault may tell a place,
so two conversions agree if they succeed with the same results.
-/

namespace InoBlocks

namespace Expr

@[simp] theorem isEmpty_forget (e : Expr) : e.forget.isEmpty = e.isEmpty := by
  cases e <;> rfl

@[simp] theorem binding_forget (e : Expr) : e.forget.binding = e.binding := by
  cases e <;> rfl

mutual

@[simp] theorem source_forget : ∀ e : Expr, e.forget.source = e.source
  | .empty | .name .. | .literal .. | .pin .. => rfl
  | .member l object property => by
      rw [forget, source, source, source_forget object, binding_forget]
  | .call l callee arguments => by
      rw [forget, source, source, source_forget callee, binding_forget, sources_forget arguments]
  | .binary l operator left right => by
      rw [forget, source, source, source_forget left, source_forget right, binding_forget,
        binding_forget]
  | .unary l operator operand before => by
      rw [forget, source, source, source_forget operand, binding_forget]
  | .assign l operator left right => by
      rw [forget, source, source, source_forget left, source_forget right, binding_forget,
        binding_forget]
  | .foreign l form head value => by
      rw [forget, source, source, source_forget value, assigned, assigned, isEmpty_forget]

@[simp] theorem sources_forget : ∀ es : List Expr, sources (forgetList es) = sources es
  | [] => rfl
  | e :: es => by rw [forgetList, sources, sources, source_forget e, sources_forget es]

end

mutual

@[simp] theorem sourceFault?_forget : ∀ e : Expr, e.forget.sourceFault? = e.sourceFault?
  | .empty | .name .. | .literal .. | .pin .. => rfl
  | .member l object property => by
      rw [forget, sourceFault?, sourceFault?, sourceFault?_forget object]
  | .call l callee arguments => by
      rw [forget, sourceFault?, sourceFault?, sourceFault?_forget callee,
        sourceFaults?_forget arguments]
  | .binary l operator left right => by
      rw [forget, sourceFault?, sourceFault?, sourceFault?_forget left, sourceFault?_forget right]
  | .unary l operator operand before => by
      rw [forget, sourceFault?, sourceFault?, sourceFault?_forget operand]
  | .assign l operator left right => by
      rw [forget, sourceFault?, sourceFault?, sourceFault?_forget left, sourceFault?_forget right]
  | .foreign l form head value => by
      rw [forget, sourceFault?, sourceFault?, sourceFault?_forget value]

@[simp] theorem sourceFaults?_forget :
    ∀ es : List Expr, sourceFaults? (forgetList es) = sourceFaults? es
  | [] => rfl
  | e :: es => by
      rw [forgetList, sourceFaults?, sourceFaults?, sourceFault?_forget e, sourceFaults?_forget es]

end

@[simp] theorem length_forgetList (es : List Expr) : (forgetList es).length = es.length := by
  rw [forgetList_eq_map, List.length_map]

end Expr

namespace Blocks

/-! ## Expressions -/

@[simp] theorem serialMethod?_forget (e : Expr) : serialMethod? e.forget = serialMethod? e := by
  cases e with
  | member l object property =>
      cases object with
      | name l' id =>
          rw [Expr.forget, Expr.forget]
          by_cases hid : id = "Serial"
          · subst hid
            rfl
          · unfold serialMethod?
            split <;> split <;> simp_all
      | _ => rfl
  | _ => rfl

mutual

@[simp] theorem expression?_forget : ∀ e : Expr, expression? e.forget = expression? e
  | .empty | .name .. | .literal .. | .pin .. => rfl
  | .member l object property => by
      rw [expression?, ← Expr.source_forget]
      rfl
  | .call l callee arguments => by
      have hsource := Expr.source_forget (.call l callee arguments)
      have hmethod := serialMethod?_forget callee
      have hinputs := fun names => inputs_forget names arguments
      have hlength := Expr.length_forgetList arguments
      rw [Expr.forget] at hsource ⊢
      rw [expression?.eq_def, expression?.eq_def]
      dsimp only
      rw [hsource]
      cases callee with
      | name l' id =>
          rw [Expr.forget]
          dsimp only
          cases valueCall? id with
          | none => rfl
          | some found =>
              dsimp only
              rw [hlength, hinputs]
      | _ =>
          dsimp only [Expr.forget] at hmethod ⊢
          rw [hmethod]
          cases arguments with
          | nil => rfl
          | cons e es => split <;> simp_all [Expr.forgetList]
  | .binary l operator left right => by
      have hsource := Expr.source_forget (.binary l operator left right)
      rw [Expr.forget] at hsource ⊢
      rw [expression?, expression?, hsource, expression?_forget left, expression?_forget right]
  | .unary l operator operand before => by
      have hsource := Expr.source_forget (.unary l operator operand before)
      rw [Expr.forget] at hsource ⊢
      rw [expression?, expression?, hsource, expression?_forget operand]
  | .assign l operator left right => by
      rw [expression?, ← Expr.source_forget]
      rfl
  | .foreign l form head value => by
      rw [expression?, ← Expr.source_forget]
      rfl

@[simp] theorem inputs_forget (names : List String) :
    ∀ es : List Expr, inputs names (Expr.forgetList es) = inputs names es
  | [] => by cases names <;> rfl
  | e :: es => by
      cases names with
      | nil => rfl
      | cons name names =>
          rw [Expr.forgetList, inputs, inputs, expression?_forget e, inputs_forget names es]

end

/-! ## Statements -/

@[simp] theorem checked_forget (e : Expr) : checked e.forget = checked e := by
  rw [checked, checked, Expr.sourceFault?_forget]

@[simp] theorem value?_forget (e : Expr) : value? e.forget = value? e := by
  rw [value?, value?, checked_forget, expression?_forget]

@[simp] theorem valueIn_forget (name : String) (e : Expr) :
    valueIn name e.forget = valueIn name e := by
  rw [valueIn, valueIn, value?_forget]

@[simp] theorem raw_forget (e : Expr) : raw e.forget = raw e := by
  rw [raw, raw, checked_forget, Expr.source_forget]

@[simp] theorem constant?_forget (e : Expr) : constant? e.forget = constant? e := by
  cases e with
  | literal l value raw => cases value <;> rfl
  | _ => rfl

theorem valuesIn_forget (names : List String) (es : List Expr) :
    valuesIn names (Expr.forgetList es) = valuesIn names es := by
  induction names generalizing es with
  | nil => cases es <;> rfl
  | cons name names ih =>
      cases es with
      | nil => rfl
      | cons e es => rw [Expr.forgetList, valuesIn, valuesIn, valueIn_forget, ih]

theorem namedCall_other {whole : Expr} {name : String} (arguments : List Expr)
    (hwrite : name ≠ "digitalWrite") (hmode : name ≠ "pinMode") (hdelay : name ≠ "delay")
    (hmicroseconds : name ≠ "delayMicroseconds") :
    namedCall whole name arguments =
      match statementCall? name with
      | some (type, names) =>
          if arguments.length = names.length then do
            return .ofTexts type [] (← valuesIn names arguments)
          else
            raw whole
      | none => raw whole := by
  unfold namedCall
  split
  · exact absurd rfl hwrite
  · exact absurd rfl hmode
  · exact absurd rfl hdelay
  · exact absurd rfl hmicroseconds
  · rfl

/-- A call with a pin and a word has a block of its own for the words it knows. -/
theorem namedCall_digitalWrite (whole pin state : Expr) :
    namedCall whole "digitalWrite" [pin, state] =
      ((constant? state).filter isState).elim (raw whole) fun s => do
        return .ofTexts "arduino_digitalwrite" [("STATE", s)] [← valueIn "PIN" pin] := by
  rw [namedCall]
  cases (constant? state).filter isState <;> rfl

theorem namedCall_pinMode (whole pin mode : Expr) :
    namedCall whole "pinMode" [pin, mode] =
      ((constant? mode).filter isMode).elim (raw whole) fun m => do
        return .ofTexts "arduino_pinmode" [("MODE", m)] [← valueIn "PIN" pin] := by
  rw [namedCall]
  cases (constant? mode).filter isMode <;> rfl

theorem namedCall_forget (whole : Expr) (name : String) (arguments : List Expr) :
    namedCall whole.forget name (Expr.forgetList arguments) = namedCall whole name arguments := by
  have hraw := raw_forget whole
  by_cases hwrite : name = "digitalWrite"
  · subst hwrite
    rcases arguments with _ | ⟨a, _ | ⟨b, _ | ⟨c, cs⟩⟩⟩
    · exact hraw
    · exact hraw
    · rw [Expr.forgetList, Expr.forgetList, Expr.forgetList, namedCall_digitalWrite,
        namedCall_digitalWrite, constant?_forget, hraw, valueIn_forget]
    · exact hraw
  by_cases hmode : name = "pinMode"
  · subst hmode
    rcases arguments with _ | ⟨a, _ | ⟨b, _ | ⟨c, cs⟩⟩⟩
    · exact hraw
    · exact hraw
    · rw [Expr.forgetList, Expr.forgetList, Expr.forgetList, namedCall_pinMode,
        namedCall_pinMode, constant?_forget, hraw, valueIn_forget]
    · exact hraw
  by_cases hdelay : name = "delay"
  · subst hdelay
    rcases arguments with _ | ⟨a, _ | ⟨b, bs⟩⟩
    · exact hraw
    · cases a with
      | literal l value text => cases value <;> first | rfl | exact hraw
      | _ => exact hraw
    · cases a with
      | literal l value text => cases value <;> exact hraw
      | _ => exact hraw
  by_cases hmicroseconds : name = "delayMicroseconds"
  · subst hmicroseconds
    rcases arguments with _ | ⟨a, _ | ⟨b, bs⟩⟩
    · exact hraw
    · cases a with
      | literal l value text => cases value <;> first | rfl | exact hraw
      | _ => exact hraw
    · cases a with
      | literal l value text => cases value <;> exact hraw
      | _ => exact hraw
  rw [namedCall_other _ hwrite hmode hdelay hmicroseconds,
    namedCall_other _ hwrite hmode hdelay hmicroseconds, hraw, Expr.length_forgetList]
  split
  · rw [valuesIn_forget]
  · rfl

theorem serialCall_forget (whole : Expr) (method : String) (arguments : List Expr) :
    serialCall whole.forget method (Expr.forgetList arguments) =
      serialCall whole method arguments := by
  have hraw := raw_forget whole
  have hvalue := valueIn_forget
  unfold serialCall
  rcases arguments with _ | ⟨a, _ | ⟨b, bs⟩⟩
  · split <;> simp_all [Expr.forgetList]
  · by_cases hbegin : method = "begin"
    · subst hbegin
      exact congrArg (· >>= _) (hvalue "BAUD" a)
    by_cases hprint : method = "print"
    · subst hprint
      exact congrArg (· >>= _) (hvalue "TEXT" a)
    by_cases hprintln : method = "println"
    · subst hprintln
      exact congrArg (· >>= _) (hvalue "TEXT" a)
    split <;> simp_all [Expr.forgetList]
  · split <;> simp_all [Expr.forgetList]

theorem effect_forget (e : Expr) : effect e.forget = effect e := by
  have hraw := raw_forget e
  cases e with
  | call l callee arguments =>
      have hnamed := fun name => namedCall_forget (.call l callee arguments) name arguments
      have hserial := fun name => serialCall_forget (.call l callee arguments) name arguments
      have hmethod := serialMethod?_forget callee
      rw [Expr.forget] at hnamed hserial hraw ⊢
      cases callee with
      | name l' id => exact hnamed id
      | _ =>
          rw [effect.eq_def, effect.eq_def]
          rw [Expr.forget] at hmethod hnamed hserial hraw ⊢
          dsimp only
          rw [hmethod, hraw]
          split
          · exact hserial _
          · rfl
  | assign l operator left right =>
      have hvalue := valueIn_forget "VALUE" right
      rw [Expr.forget] at hraw ⊢
      by_cases hoperator : operator = "="
      · subst hoperator
        cases left with
        | name l' id => exact congrArg (· >>= _) hvalue
        | _ => exact hraw
      · rw [effect.eq_def, effect.eq_def]
        split <;> split <;> simp_all
  | _ => exact hraw

theorem declaration_forget (type name : String) (value : Expr) :
    declaration type name value.forget = declaration type name value := by
  rw [declaration, declaration, Expr.isEmpty_forget, valueIn_forget]

def zeroStart? : Node → Option String
  | .declaration _ _ name (.literal _ (.number start) _) => if start.isZero then some name else none
  | _ => none

/-- A variable with the bound below which it has to stay. -/
def below? : Expr → Option (String × Expr)
  | .binary _ "<" (.name _ tested) bound => some (tested, bound)
  | _ => none

def stepped? : Expr → Option String
  | .unary _ "++" (.name _ stepped) _ => some stepped
  | _ => none

/-- The three parts of the header of a loop are looked at one by one. -/
theorem repetitions?_eq (init : Node) (test update : Expr) :
    repetitions? init test update =
      (zeroStart? init).bind fun name => (below? test).bind fun below =>
        (stepped? update).bind fun stepped =>
          if below.1 == name && stepped == name then some below.2 else none := by
  unfold repetitions?
  split
  · rename_i name _ start _ _ _ tested bound _ _ stepped _
    dsimp only [zeroStart?, below?, stepped?]
    cases start.isZero <;> rfl
  · rename_i hshape
    cases hname : zeroStart? init with
    | none => rfl
    | some name =>
        cases hbelow : below? test with
        | none => rfl
        | some below =>
            cases hstepped : stepped? update with
            | none => rfl
            | some stepped =>
                unfold zeroStart? at hname
                unfold below? at hbelow
                unfold stepped? at hstepped
                split at hname
                · split at hbelow
                  · split at hstepped
                    · exact (hshape _ _ _ _ _ _ _ _ _ _ _ _ _ _ rfl rfl rfl).elim
                    · cases hstepped
                  · cases hbelow
                · cases hname

theorem zeroStart?_forget (init : Node) : zeroStart? init.forget = zeroStart? init := by
  cases init with
  | declaration l type name value =>
      cases value with
      | literal l' start raw => cases start <;> rfl
      | _ => rfl
  | bare e => cases e <;> rfl
  | _ => rfl

theorem below?_forget (test : Expr) :
    below? test.forget = (below? test).map fun below => (below.1, below.2.forget) := by
  cases test with
  | binary l operator left bound =>
      by_cases hoperator : operator = "<"
      · subst hoperator
        cases left <;> rfl
      · rw [Expr.forget, below?.eq_def, below?.eq_def]
        split <;> split <;> simp_all
  | _ => rfl

theorem stepped?_forget (update : Expr) : stepped? update.forget = stepped? update := by
  cases update with
  | unary l operator operand before =>
      by_cases hoperator : operator = "++"
      · subst hoperator
        cases operand <;> rfl
      · rw [Expr.forget, stepped?.eq_def, stepped?.eq_def]
        split <;> split <;> simp_all
  | _ => rfl

theorem repetitions?_forget (init : Node) (test update : Expr) :
    repetitions? init.forget test.forget update.forget =
      (repetitions? init test update).map Expr.forget := by
  rw [repetitions?_eq, repetitions?_eq, zeroStart?_forget, below?_forget, stepped?_forget]
  cases zeroStart? init with
  | none => rfl
  | some name =>
      cases below? test with
      | none => rfl
      | some below =>
          cases stepped? update with
          | none => rfl
          | some stepped =>
              change (if _ then _ else _) = Option.map _ (if _ then _ else _)
              split <;> rfl

end Blocks

namespace Node

theorem source_forget (n : Node) : n.forget.source = n.source := by
  cases n with
  | declaration l type name value =>
      change Expr.assigned _ value.forget value.forget.source = Expr.assigned _ value value.source
      rw [Expr.assigned, Expr.assigned, Expr.isEmpty_forget, Expr.source_forget]
  | bare e => exact e.source_forget
  | _ => rfl

theorem sourceFault?_forget (n : Node) : n.forget.sourceFault? = n.sourceFault? := by
  cases n with
  | declaration l type name value => exact value.sourceFault?_forget
  | bare e => exact e.sourceFault?_forget
  | _ => rfl

end Node

namespace Blocks

theorem loopHeader_forget (init : Node) (test update : Expr) :
    loopHeader init.forget test.forget update.forget = loopHeader init test update := by
  rw [loopHeader, loopHeader, Node.sourceFault?_forget, Node.source_forget, checked_forget,
    checked_forget, Expr.source_forget, Expr.source_forget]

/-! ## Nodes -/

def Agree {α : Type} (x y : Convert α) : Prop :=
  ∀ a, x = .ok a ↔ y = .ok a

namespace Agree

variable {α β : Type} {x y : Convert α}

theorem refl (x : Convert α) : Agree x x := fun _ => Iff.rfl

theorem of_eq (h : x = y) : Agree x y := fun _ => by rw [h]

theorem bind {f g : α → Convert β} (h : Agree x y) (h' : ∀ a, Agree (f a) (g a)) :
    Agree (x >>= f) (y >>= g) := by
  intro b
  cases x with
  | error fault =>
      cases y with
      | error fault' => exact ⟨nofun, nofun⟩
      | ok a => exact absurd ((h a).mpr rfl) nofun
  | ok a =>
      obtain rfl := (h a).mp rfl
      exact h' a b

end Agree

def Part.Agrees (p q : Part) : Prop :=
  Agree (p.body ()) (q.body ()) ∧ ∀ number, Agree (p.arms number) (q.arms number)

namespace Part

theorem agrees_ofBody {b b' : Unit → Convert (List Block)} (h : Agree (b ()) (b' ())) :
    (ofBody b).Agrees (ofBody b') :=
  ⟨h, fun _ => h.bind fun _ => .refl _⟩

theorem agrees_ofBlock {b b' : Unit → Convert Block} (h : Agree (b ()) (b' ())) :
    (ofBlock b).Agrees (ofBlock b') :=
  agrees_ofBody (h.bind fun _ => .refl _)

theorem agrees_ofArms {a a' : Nat → Convert (List Input)} (h : ∀ number, Agree (a number) (a' number)) :
    (ofArms a).Agrees (ofArms a') :=
  ⟨(h 0).bind fun _ => .refl _, h⟩

end Part

theorem agree_unconvertible {α : Type} (n n' : Node) :
    Agree (unconvertible n : Convert α) (unconvertible n') :=
  fun _ => ⟨nofun, nofun⟩

theorem agree_whileLoop (test : Expr) {body body' : Convert (List Block)} (h : Agree body body') :
    Agree (whileLoop test.forget body) (whileLoop test body') :=
  (Agree.of_eq (valueIn_forget "BOOL" test)).bind fun _ => h.bind fun _ => .refl _

theorem agree_forLoop (init : Node) (test update : Expr) {body body' : Convert (List Block)}
    (h : Agree body body') :
    Agree (forLoop init.forget test.forget update.forget body) (forLoop init test update body') := by
  rw [forLoop, forLoop, repetitions?_forget]
  cases repetitions? init test update with
  | none =>
      exact (Agree.of_eq (loopHeader_forget init test update)).bind fun _ => h.bind fun _ => .refl _
  | some bound =>
      refine Agree.bind (.of_eq ?_) fun _ => h.bind fun _ => .refl _
      rw [timesInput, timesInput, value?_forget]

theorem agree_arm (number : Nat) (test : Expr) {body body' : Convert (List Block)}
    (h : Agree body body') : Agree (arm number test.forget body) (arm number test body') :=
  (Agree.of_eq (valueIn_forget _ test)).bind fun _ => h.bind fun _ => .refl _

@[simp] theorem isEmpty_forget (n : Node) : n.forget.isEmpty = n.isEmpty := by
  cases n with
  | bare e => cases e <;> rfl
  | _ => rfl

@[simp] theorem isBlock_forget (n : Node) : n.forget.isBlock = n.isBlock := by
  cases n <;> rfl

mutual

theorem part_forget : ∀ n : Node, (part n.forget).Agrees (part n)
  | .empty => ⟨.refl _, fun _ => .refl _⟩
  | .effect l value => Part.agrees_ofBlock (.of_eq (effect_forget value))
  | .declaration l type name value =>
      Part.agrees_ofBlock (.of_eq (declaration_forget type name value))
  | .forLoop l init test update body =>
      Part.agrees_ofBlock (agree_forLoop init test update (part_forget body).1)
  | .whileLoop l test body => Part.agrees_ofBlock (agree_whileLoop test (part_forget body).1)
  | .branch l test consequent alternative =>
      Part.agrees_ofArms fun number => (agree_arm number test (part_forget consequent).1).bind
        fun _ => ((part_forget alternative).2 (number + 1)).bind fun _ => .refl _
  | .block l body => Part.agrees_ofBody (statements_forget body)
  | .exit l value => ⟨.refl _, fun _ => .refl _⟩
  | .program l body => Part.agrees_ofBody (agree_unconvertible _ _)
  | .function l name returnType parameters body => Part.agrees_ofBody (agree_unconvertible _ _)
  | .parameter p => Part.agrees_ofBody (agree_unconvertible _ _)
  | .bare e => by
      cases e with
      | empty => exact ⟨.refl _, fun _ => .refl _⟩
      | _ => exact Part.agrees_ofBody (agree_unconvertible _ _)

theorem statements_forget : ∀ ns : List Node, Agree (statements (Node.forgetList ns)) (statements ns)
  | [] => .refl _
  | n :: ns => by
      rw [Node.forgetList, statements, statements, isEmpty_forget, isBlock_forget]
      have hrest : ∀ {x y : Convert (List Block)}, Agree x y →
          Agree (x >>= fun first => do return first ++ (← statements (Node.forgetList ns)))
            (y >>= fun first => do return first ++ (← statements ns)) :=
        fun h => h.bind fun _ => (statements_forget ns).bind fun _ => .refl _
      split
      · exact hrest (agree_unconvertible _ _)
      · split
        · exact hrest (.refl _)
        · exact hrest (part_forget n).1

end

/-- The body of a function gives the same blocks wherever it was read. -/
theorem body_of_forget {n n' : Node} (h : n'.forget = n.forget) {bs : List Block}
    (hbody : body n = .ok bs) : body n' = .ok bs := by
  have hforget := ((part_forget n).1 bs).mpr hbody
  rw [← h] at hforget
  exact ((part_forget n').1 bs).mp hforget

end Blocks

end InoBlocks
