import InoBlocks.Proofs.Code.CodedReadBack
import InoBlocks.Proofs.Code.FieldTexts
import InoBlocks.Proofs.Sketch.Quoting
import InoBlocks.Proofs.Sketch.SafeNames
import InoBlocks.Proofs.Sketch.Written

/-!
# Where the names of an expression come back

A name of an expression comes back in one of two ways: inside of raw text, spelled as it was, or by
way of the block of a variable, made safe.  What is written for a literal may have names as well,
such as the letter of an exponent, but those stand for no name of the expression.

`Expr.coming` says so name by name, in the order of reading, and the words of the code that comes of
an expression have just these names.
-/

namespace InoBlocks

open Word Code

/-- One place in the code of blocks that is read as a name. -/
inductive Occurrence where
  /-- A name in raw text. -/
  | raw (id : String)
  /-- A name that goes by way of the block of a variable. -/
  | safe (id : String)
  /-- The variable of a counted loop, with the number of such loops around it. -/
  | counter (id : String) (loops : Nat)
  /-- A name that was none in the sketch. -/
  | brought (id : String)
  deriving DecidableEq, Repr

namespace Occurrence

/-- The name in the sketch that an occurrence stands for. -/
def origin? : Occurrence → Option String
  | raw id | safe id | counter id _ => some id
  | brought _ => none

def spelling : Occurrence → String
  | raw id | brought id => id
  | safe id => safeName id unnamed
  | counter _ loops => Statement.counter loops

@[simp] theorem map_spelling_raw (ids : List String) :
    (ids.map raw).map spelling = ids := by
  simp [Function.comp_def, spelling]

@[simp] theorem map_spelling_brought (ids : List String) :
    (ids.map brought).map spelling = ids := by
  simp [Function.comp_def, spelling]

@[simp] theorem filterMap_origin_raw (ids : List String) :
    (ids.map raw).filterMap origin? = ids := by
  simp [Function.comp_def, origin?]

@[simp] theorem filterMap_origin_brought (ids : List String) :
    (ids.map brought).filterMap origin? = [] := by
  simp [origin?]

end Occurrence

/-! ## The names of an expression -/

namespace Expr

mutual

/-- The names in an expression, in the order of reading. -/
def names : Expr → List String
  | .empty | .literal .. => []
  | .name _ id | .pin _ id _ => [id]
  | .member _ object property => object.names ++ [property]
  | .call _ callee arguments => callee.names ++ namesAll arguments
  | .binary _ _ left right | .assign _ _ left right => left.names ++ right.names
  | .unary _ _ operand _ => operand.names
  | .foreign _ _ _ value => value.names

def namesAll : List Expr → List String
  | [] => []
  | e :: es => e.names ++ namesAll es

end

end Expr

theorem names_of_listed {items : List (List Word × Expr)} {ws : List Word} (h : Listed items ws)
    (hitems : ∀ a ∈ items, names a.1 = a.2.names) :
    names ws = Expr.namesAll (items.map Prod.snd) := by
  induction h with
  | none => rfl
  | one a =>
      rw [hitems a (List.mem_singleton_self a)]
      simp [Expr.namesAll]
  | more a b hcomma _ ih =>
      rw [names_append, hitems a List.mem_cons_self, names_cons, names_of_ne (by rw [hcomma]; decide),
        ih fun c hc => hitems c (List.mem_cons_of_mem a hc)]
      rfl

/-- The names among the words of a phrase are those of its expression. -/
theorem Phrase.names_eq {n : Nat} {ws : List Word} {e : Expr} (h : Phrase n ws e) :
    names ws = e.names := by
  have hvalue : ∀ kind : TokenKind, kind.namesValue = true → kind ≠ .identifier := by
    rintro kind hkind rfl
    cases hkind
  have hoperator : ∀ kind : TokenKind, kind.joins ≠ 0 → kind ≠ .identifier := by
    rintro kind hkind rfl
    exact hkind rfl
  induction h with
  | name | pin => rfl
  | number | string => rfl
  | constant l text hkind => exact names_of_ne (hvalue _ hkind)
  | group hl hr _ ih =>
      rw [List.cons_append, names_cons, names_append, names_of_ne (by rw [hl]; decide),
        names_of_ne (by rw [hr]; decide), ih, List.append_nil]
      rfl
  | @member l dot property ws e hdot hproperty _ ih =>
      obtain ⟨kind, text⟩ := property
      obtain rfl : kind = .identifier := hproperty
      rw [names_append, names_cons, names_of_ne (by rw [hdot]; decide), ih]
      rfl
  | call l hl hr _ hlist _ ih ihs =>
      rw [names_append, names_append, names_cons, names_of_ne (by rw [hl]; decide),
        names_of_ne (by rw [hr]; decide), ih, names_of_listed hlist ihs, List.append_nil]
      rfl
  | step l hop _ ih =>
      rw [names_append, names_of_ne (hoperator _ (by rw [TokenKind.joins_of_isTrailing hop]; decide)),
        ih, List.append_nil]
      rfl
  | @leading l op ws e hop _ ih =>
      have hne : op.kind ≠ .identifier := by
        intro hkind
        rw [hkind] at hop
        cases hop
      rw [names_cons, names_of_ne hne, ih]
      rfl
  | binary l hlow hhigh hop _ _ iha ihb =>
      rw [names_append, names_cons, names_of_ne (hoperator _ (by omega)), iha, ihb]
      rfl
  | assign l hop _ _ iha ihb =>
      rw [names_append, names_cons, names_of_ne (hoperator _
        (by rw [TokenKind.joins_of_isAssignment hop]; decide)), iha, ihb]
      rfl
  | loosen _ _ ih => exact ih

/-- A point that a number takes in leaves the names as they are. -/
theorem Word.Joined.names_eq {allowed : Prop} {ws vs : List Word} (h : Joined allowed ws vs) :
    names ws = names vs := by
  induction h with
  | nil => rfl
  | @cons w ws vs _ ih => rw [names_cons w ws, names_cons w vs, ih]
  | @point raw name ws vs _ _ ih =>
      have hsplit : ∀ us : List Word, names (⟨.identifier, name⟩ :: us) = name :: names us :=
        fun us => names_cons _ us
      rw [names_cons, names_cons (symbol .dot), hsplit, ih, names_cons ⟨.number, raw ++ "."⟩, hsplit]
      rfl

theorem Expr.Shown.names_eq {e : Expr} {vs : List Word} (h : e.Shown vs) :
    Word.names vs = e.names := by
  obtain ⟨ws, hphrase, hjoined⟩ := h
  rw [← hjoined.names_eq, hphrase.names_eq]

theorem Expr.Shown.calm {e : Expr} {vs : List Word} (h : e.Shown vs) : Calm vs :=
  h.inPhrase

/-! ## Texts that tell names -/

/-- A text is read wherever an expression may stand, as words of an expression with some names. -/
def Tells (text : String) (ids : List String) : Prop :=
  ∃ ws, Spelling text ws true ∧ Calm ws ∧ names ws = ids

def namesIn (text : String) : List String :=
  names (words text.toList)

namespace Tells

variable {text left right : String} {ids is js : List String}

theorem namesIn_eq (h : Tells text ids) : namesIn text = ids := by
  obtain ⟨ws, hspelling, -, hnames⟩ := h
  rw [namesIn, hspelling.reads.words_eq, hnames]

theorem self (h : Tells text ids) : Tells text (namesIn text) :=
  h.namesIn_eq ▸ h

theorem word {w : Word} (h : w.Firm) (hsymbol : w.kind.symbol? = none)
    (hphrase : w.kind.inPhrase = true) : Tells w.text (names [w]) :=
  ⟨[w], (Spelling.word h hsymbol hphrase).pointed_true, .one hphrase, rfl⟩

theorem identifier {id : String} (h : Word.Firm ⟨.identifier, id⟩) : Tells id [id] :=
  word h rfl rfl

theorem of_isFieldText (h : IsFieldText text) : Tells text (namesIn text) :=
  ⟨_, h.spelling, h.calm, rfl⟩

theorem guarded (h : Tells text ids) (binding demanded : Nat) :
    Tells (Expr.guarded text binding demanded) ids := by
  obtain ⟨ws, hspelling, hcalm, hnames⟩ := h
  refine ⟨_, hspelling.guarded binding demanded, ?_, ?_⟩
  · rw [Spelling.guardedWords]
    split
    · exact (Calm.cons rfl hcalm).append (.one rfl)
    · exact hcalm
  · rw [Spelling.guardedWords]
    split
    · rw [List.cons_append, names_cons, names_append, hnames]
      simp [names]
    · exact hnames

theorem infixed {kind : TokenKind} {op : String} (hop : kind.symbol? = some op)
    (hphrase : kind.inPhrase = true) (hl : Tells left is) (hr : Tells right js) :
    Tells (left ++ " " ++ op ++ " " ++ right) (is ++ js) := by
  obtain ⟨us, hus, hcalm, rfl⟩ := hl
  obtain ⟨vs, hvs, hcalm', rfl⟩ := hr
  have hne : (symbol kind).kind ≠ .identifier := by
    intro hkind
    rw [symbol_kind] at hkind
    rw [hkind] at hop
    cases hop
  refine ⟨_, Spelling.infixed hop hus hvs, hcalm.append (.cons hphrase hcalm'), ?_⟩
  rw [names_append, names_cons, names_of_ne hne, List.nil_append]

theorem negated (h : Tells text ids) : Tells ("!" ++ text) ids := by
  obtain ⟨ws, hspelling, hcalm, hnames⟩ := h
  have hjoined := hspelling.joinLeading (show TokenKind.logicalNot.symbol? = some "!" from rfl) rfl
  have hfuses : ¬fuses "!".toList text.toList = true := by
    unfold fuses
    split
    · rename_i last first hlast _
      cases hlast
      exact Bool.false_ne_true
    · exact Bool.false_ne_true
  rw [InoBlocks.joinLeading, if_neg hfuses] at hjoined
  exact ⟨_, hjoined, .cons rfl hcalm, by rw [names_cons, hnames]; rfl⟩

theorem call {name : String} (hname : Tells name is) {items : List (String × List String)}
    (hitems : ∀ a ∈ items, Tells a.1 a.2) :
    Tells (Value.callText name (items.map Prod.fst)) (is ++ items.flatMap Prod.snd) := by
  obtain ⟨us, hus, hcalm, rfl⟩ := hname
  obtain ⟨read, htexts, hread, hcalms, hnames⟩ : ∃ read : List (String × List Word),
      read.map Prod.fst = items.map Prod.fst ∧ (∀ a ∈ read, Spelling a.1 a.2 true) ∧
      Calm ([symbol .comma].intercalate (read.map Prod.snd)) ∧
      names ([symbol .comma].intercalate (read.map Prod.snd)) = items.flatMap Prod.snd := by
    induction items with
    | nil => exact ⟨[], rfl, nofun, nofun, rfl⟩
    | cons a items ih =>
        obtain ⟨⟨ws, hws, hcalm', hnames'⟩, hitems⟩ := List.forall_mem_cons.mp hitems
        obtain ⟨read, htexts, hread, hcalms, hnames⟩ := ih hitems
        refine ⟨(a.1, ws) :: read, by simp [htexts], List.forall_mem_cons.mpr ⟨hws, hread⟩, ?_⟩
        cases read with
        | nil =>
            rw [List.flatMap_cons, ← hnames, ← hnames']
            have hone : [symbol .comma].intercalate [ws] = ws := by simp
            rw [List.map_singleton, hone]
            exact ⟨hcalm', (List.append_nil _).symm⟩
        | cons b read =>
            simp only [List.map_cons, List.intercalate_cons_cons] at hcalms hnames ⊢
            refine ⟨(hcalm'.append (.one rfl)).append hcalms, ?_⟩
            rw [names_append, names_append, hnames, hnames', List.flatMap_cons]
            simp [names]
  have hcall := Spelling.call hus hread
  rw [htexts] at hcall
  refine ⟨_, hcall.pointed_true, (hcalm.append (.cons rfl hcalms)).append (.one rfl), ?_⟩
  rw [names_append, names_append, names_cons, hnames]
  simp [names]

end Tells

/-! ## The names in the code of an expression -/

namespace Expr

def inRaw (e : Expr) : List Occurrence :=
  e.names.map .raw

/-- What a text brings with it that stands for a literal. -/
def inLiteral (text : String) : List Occurrence :=
  (namesIn text).map .brought

/-- What is written for an argument, in place of a pin or of any value. -/
def slotText (pin? : Option String) (e : Expr) : String :=
  match pin? with
  | some default => pinText default e e.coded
  | none => e.coded.text

/-- The names in a text that is written for an argument: those of the argument's code, or what the
text brings with it if the argument is a literal. -/
def inSlot (text : String) (e : Expr) (coming : List Occurrence) : List Occurrence :=
  match e with
  | .literal .. => inLiteral text
  | _ => coming

theorem codedArguments_cons (pin? : Option String) (e : Expr) (es : List Expr) :
    codedArguments pin? (e :: es) = slotText pin? e :: codedArguments pin? es := by
  cases pin? <;> rfl

mutual

/-- The names in the code that comes of an expression by way of blocks. -/
def coming : Expr → List Occurrence
  | .empty => []
  | .name _ id => [.safe id]
  | .literal l value raw => inLiteral (Expr.literal l value raw).coded.text
  | .pin _ id _ => [.raw id]
  | .call l callee arguments =>
      match callee with
      | .name _ id =>
          if hasBlock id arguments.length then
            .raw id :: comingArguments (pinDefault? id) arguments
          else (Expr.call l callee arguments).inRaw
      | _ => (Expr.call l callee arguments).inRaw
  | .binary _ _ left right => left.coming ++ right.coming
  | .unary l operator operand before =>
      if operator == "!" && before then operand.coming
      else (Expr.unary l operator operand before).inRaw
  | .member l object property => (Expr.member l object property).inRaw
  | .assign l operator left right => (Expr.assign l operator left right).inRaw
  | .foreign l form head value => (Expr.foreign l form head value).inRaw

/-- The names in the codes of arguments; those of a call that asks for pins, as pins. -/
def comingArguments (pin? : Option String) : List Expr → List Occurrence
  | [] => []
  | e :: es => inSlot (slotText pin? e) e e.coming ++ comingArguments pin? es

end

/-! ### Each name of an expression comes back once, in its place -/

theorem filterMap_inRaw (e : Expr) : e.inRaw.filterMap Occurrence.origin? = e.names :=
  Occurrence.filterMap_origin_raw e.names

theorem filterMap_inLiteral (text : String) :
    (inLiteral text).filterMap Occurrence.origin? = [] :=
  Occurrence.filterMap_origin_brought _

theorem filterMap_inSlot (text : String) {e : Expr} {coming : List Occurrence}
    (h : coming.filterMap Occurrence.origin? = e.names) :
    (inSlot text e coming).filterMap Occurrence.origin? = e.names := by
  unfold inSlot
  split
  · exact filterMap_inLiteral _
  · exact h

mutual

/-- The names in the code of an expression stand for its names, all of them and in their order. -/
theorem filterMap_coming : ∀ e : Expr, e.coming.filterMap Occurrence.origin? = e.names
  | .empty => rfl
  | .name .. => rfl
  | .pin .. => rfl
  | .literal .. => filterMap_inLiteral _
  | .call l callee arguments => by
      rw [coming.eq_def]
      dsimp only
      split
      · split
        · exact congrArg (_ :: ·) (filterMap_comingArguments _ arguments)
        · exact filterMap_inRaw _
      · exact filterMap_inRaw _
  | .binary l operator left right => by
      rw [coming, List.filterMap_append, filterMap_coming left, filterMap_coming right]
      rfl
  | .unary l operator operand before => by
      rw [coming]
      split
      · exact filterMap_coming operand
      · exact filterMap_inRaw _
  | .member .. | .assign .. | .foreign .. => filterMap_inRaw _

theorem filterMap_comingArguments (pin? : Option String) :
    ∀ es : List Expr, (comingArguments pin? es).filterMap Occurrence.origin? = namesAll es
  | [] => rfl
  | e :: es => by
      rw [comingArguments, List.filterMap_append, filterMap_comingArguments pin? es, namesAll,
        filterMap_inSlot _ (filterMap_coming e)]

end

/-! ### The code has just these names -/

theorem Proper.source_tells {e : Expr} (h : e.Proper) : Tells e.source e.names := by
  have hall : Spells True e.source e.pointed e.binding e := h.spells fun _ _ _ => trivial
  obtain ⟨ws, vs, hphrase, hjoined, hspelling⟩ := hall
  have hshown : e.Shown vs := ⟨ws, hphrase.loosenTo (Nat.le_refl 1) hphrase.one_le, hjoined⟩
  exact ⟨vs, hspelling.pointed_true, hshown.calm, hshown.names_eq⟩

/-- An expression that stays raw text has its names. -/
theorem Proper.raw_tells {e : Expr} (h : e.Proper) :
    Tells (rawOperand e.source).text (e.inRaw.map Occurrence.spelling) := by
  obtain ⟨ws, hspelling, hcalm, hnames⟩ := h.source_tells
  have htext : (rawOperand e.source).text = e.source := by
    rw [rawOperand, hspelling.trimmed_eq, if_neg (by simpa using hspelling.ne_empty)]
  rw [htext, inRaw, Occurrence.map_spelling_raw]
  exact ⟨ws, hspelling, hcalm, hnames⟩

/-- What is written for a literal is read wherever an expression may stand. -/
theorem Proper.literal_tells {l : Location} {value : LiteralValue} {raw : String}
    (h : (Expr.literal l value raw).Proper) :
    Tells (Expr.literal l value raw).coded.text
      (namesIn (Expr.literal l value raw).coded.text) := by
  cases value with
  | number x => exact .of_isFieldText (.ofField_none (IsFieldText.of_mem_defaults "0" (by decide)) _)
  | text text =>
      rw [coded]
      rcases literal_cases text raw with ⟨-, -, htext⟩ | ⟨-, ⟨truth, -, rfl, htext⟩ | ⟨-, htext⟩⟩
      · rw [htext]
        exact (Tells.word (firm_quoteText text) rfl rfl).self
      · rw [htext]
        have hkind : ∀ word ∈ ["true", "false"], TokenKind.ofWord word = .boolean ∧
            word.toList.head?.any Text.isNameStart = true ∧
            word.toList.tail.all Text.isNameChar = true := by
          decide
        obtain ⟨hboolean, hhead, htail⟩ := hkind (if truth then "true" else "false")
          (by cases truth <;> decide)
        exact (Tells.word (firm_ofWord hboolean hhead htail) rfl rfl).self
      · rw [htext]
        exact h.raw_tells.self

theorem pinText_of_ne_literal {e : Expr} (h : ∀ l value raw, e ≠ .literal l value raw)
    (default : String) : pinText default e e.coded = e.coded.text := by
  cases e with
  | literal l value raw => exact absurd rfl (h l value raw)
  | _ => rfl

/-- What is written for an argument is read wherever an expression may stand, if that holds of what
is written for literals and of the code of others. -/
theorem tells_inSlot {e : Expr} {text : String} {coming : List Occurrence}
    (hliteral : ∀ l value raw, e = .literal l value raw → Tells text (namesIn text))
    (hother : (∀ l value raw, e ≠ .literal l value raw) →
      Tells text (coming.map Occurrence.spelling)) :
    Tells text ((inSlot text e coming).map Occurrence.spelling) := by
  cases e with
  | literal l value raw =>
      rw [inSlot, inLiteral, Occurrence.map_spelling_brought]
      exact hliteral l value raw rfl
  | _ => exact hother nofun

theorem Proper.slot_tells {pin? : Option String} (hpin : ∀ default ∈ pin?, IsFieldText default)
    {e : Expr} (h : e.Proper) (htells : Tells e.coded.text (e.coming.map Occurrence.spelling)) :
    Tells (slotText pin? e) ((inSlot (slotText pin? e) e e.coming).map Occurrence.spelling) := by
  refine tells_inSlot ?_ fun hne => ?_
  · rintro l value raw rfl
    cases pin? with
    | none => exact h.literal_tells
    | some default =>
        have hdefault := hpin default rfl
        cases value with
        | number x => exact .of_isFieldText (.ofField_upTo hdefault (by decide) _)
        | text text =>
            rw [slotText, pinText]
            split
            · exact .of_isFieldText (.typedPin hdefault _)
            · exact h.literal_tells
  · cases pin? with
    | none => exact htells
    | some default =>
        rw [slotText, pinText_of_ne_literal hne default]
        exact htells

/-- The arguments of a call that has a block, each with its names. -/
theorem exists_comingArguments {pin? : Option String}
    (hpin : ∀ default ∈ pin?, IsFieldText default) {es : List Expr} (hproper : ∀ e ∈ es, e.Proper)
    (htells : ∀ e ∈ es, Tells e.coded.text (e.coming.map Occurrence.spelling)) :
    ∃ items : List (String × List String), items.map Prod.fst = codedArguments pin? es ∧
      items.flatMap Prod.snd = (comingArguments pin? es).map Occurrence.spelling ∧
      ∀ a ∈ items, Tells a.1 a.2 := by
  refine ⟨es.map fun e => (slotText pin? e,
      (inSlot (slotText pin? e) e e.coming).map Occurrence.spelling),
    ?_, ?_, List.forall_mem_map.mpr fun e he => (hproper e he).slot_tells hpin (htells e he)⟩
  · clear hproper htells
    induction es with
    | nil => rfl
    | cons e es ih => rw [codedArguments_cons, ← ih]; rfl
  · clear hproper htells
    induction es with
    | nil => rfl
    | cons e es ih => rw [comingArguments, List.map_append, ← ih]; rfl

theorem isFieldText_of_pinDefault? {id : String} : ∀ default ∈ pinDefault? id, IsFieldText default := by
  intro default hdefault
  refine IsFieldText.of_mem_defaults default ?_
  unfold pinDefault? at hdefault
  split at hdefault <;> cases hdefault <;> decide

/-- A question to the serial line is written as it was. -/
theorem source_of_query {method : String} (h : (Blocks.serialQuery? method).isSome = true)
    (l l' l'' : Location) :
    (rawOperand (Expr.call l (.member l' (.name l'' "Serial") method) []).source).text =
      Value.callText ("Serial." ++ method) [] := by
  unfold Blocks.serialQuery? at h
  split at h
  · exact show (rawOperand "Serial.available()").text = "Serial.available()" by decide
  · exact show (rawOperand "Serial.read()").text = "Serial.read()" by decide
  · exact show (rawOperand "Serial.readString()").text = "Serial.readString()" by decide
  · cases h

/-- The names of a call: those of its arguments if it has a block, and else those of its text. -/
theorem coming_call (l : Location) (callee : Expr) (arguments : List Expr) :
    (∃ l' id, callee = .name l' id ∧
      (Expr.call l callee arguments).coded.text =
        Value.callText id (codedArguments (pinDefault? id) arguments) ∧
      (Expr.call l callee arguments).coming =
        .raw id :: comingArguments (pinDefault? id) arguments) ∨
    (Expr.call l callee arguments).coming = (Expr.call l callee arguments).inRaw ∧
      (Expr.call l callee arguments).coded.text =
        (rawOperand (Expr.call l callee arguments).source).text := by
  by_cases hname : ∃ l' id, callee = .name l' id
  · obtain ⟨l', id, rfl⟩ := hname
    rw [coming, coded]
    split
    · exact Or.inl ⟨l', id, rfl, rfl, rfl⟩
    · exact Or.inr ⟨rfl, rfl⟩
  · refine Or.inr ⟨?_, ?_⟩
    · cases callee with
      | name l' id => exact absurd ⟨l', id, rfl⟩ hname
      | _ => rfl
    · rcases coded_call l callee arguments with hraw | ⟨l', id, rfl, -⟩ |
        ⟨l', l'', method, rfl, rfl, hcoded⟩
      · rw [hraw]
      · exact absurd ⟨l', id, rfl⟩ hname
      · rw [coded]
        split
        · rename_i hquery
          exact (source_of_query ((Bool.and_eq_true _ _).mp hquery).1 l l' l'').symm
        · rfl

/-- The code that comes of a proper expression is read wherever an expression may stand, and its
names are those that come of the expression. -/
theorem Proper.coded_tells {e : Expr} (h : e.Proper) :
    Tells e.coded.text (e.coming.map Occurrence.spelling) := by
  induction h with
  | name l hid hfirm =>
      rw [coming, coded]
      exact .identifier (isSafe_safeName _ (show IsSafe unnamed by decide)).firm
  | pin l hid hfirm => exact (Proper.pin l hid hfirm).raw_tells
  | number l hvalue hfirm =>
      rw [coming, inLiteral, Occurrence.map_spelling_brought]
      exact (Proper.number l hvalue hfirm).literal_tells
  | string l hfirm =>
      rw [coming, inLiteral, Occurrence.map_spelling_brought]
      exact (Proper.string l hfirm).literal_tells
  | constant l hkind hfirm =>
      rw [coming, inLiteral, Occurrence.map_spelling_brought]
      exact (Proper.constant l hkind hfirm).literal_tells
  | member l hfirm hobject ih => exact (Proper.member l hfirm hobject).raw_tells
  | @call l callee arguments hcallee hargs ih ihs =>
      rcases coming_call l callee arguments with ⟨l', id, rfl, htext, hcoming⟩ |
        ⟨hcoming, htext⟩
      · rw [htext, hcoming]
        obtain ⟨items, htexts, hnames, hitems⟩ :=
          exists_comingArguments isFieldText_of_pinDefault? hargs ihs
        cases hcallee with
        | name _ hid hfirm =>
            have hcall := Tells.call (.identifier hfirm) hitems
            rwa [htexts, hnames] at hcall
      · rw [htext, hcoming]
        exact (Proper.call l hcallee hargs).raw_tells
  | step l hop hsymbol hoperand ih =>
      rw [coded, coming, if_neg (by simp), if_neg (by simp)]
      exact (Proper.step l hop hsymbol hoperand).raw_tells
  | @leading l kind op operand hop hsymbol hoperand ih =>
      rw [coded, coming]
      by_cases hnot : op = "!"
      · subst hnot
        rw [if_pos (by simp), if_pos (by simp)]
        exact (ih.guarded _ _).negated
      · rw [if_neg (by simp [hnot]), if_neg (by simp [hnot])]
        exact (Proper.leading l hop hsymbol hoperand).raw_tells
  | binary l hlow hhigh hsymbol hleft hright ihl ihr =>
      rw [coded, coming, List.map_append]
      exact .infixed hsymbol (TokenKind.inPhrase_of_joins (by omega)) (ihl.guarded _ _)
        (ihr.guarded _ _)
  | assign l hop hsymbol hleft hright ihl ihr =>
      exact (Proper.assign l hop hsymbol hleft hright).raw_tells

end Expr

end InoBlocks
