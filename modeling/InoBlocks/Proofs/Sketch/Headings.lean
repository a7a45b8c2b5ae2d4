import InoBlocks.Proofs.Sketch.Written
import InoBlocks.Sketch.Outline

/-!
# The headings of an outline

Every line of an outline is a heading behind its indent.  A heading is read as words that tell what
node it stands for, the nodes inside aside: its first word names the form, and the others are those
of the node's type, name and expressions.  All line feeds in a heading stand inside of words.
-/

namespace InoBlocks

open Word

/-! ## Declarations -/

theorem TokenKind.begins_of_beginsType {kind : TokenKind} (h : kind.beginsType = true) :
    kind.begins = false := by
  cases kind <;> first | rfl | exact absurd h (by decide)

/-- Words up to the first of which something does not hold are determined by all the words. -/
theorem append_cons_inj_of_forall {α : Type} {p : α → Prop} {us vs rs ss : List α} {a b : α}
    (hus : ∀ w ∈ us, p w) (hvs : ∀ w ∈ vs, p w) (ha : ¬ p a) (hb : ¬ p b)
    (h : us ++ a :: rs = vs ++ b :: ss) : us = vs ∧ a = b ∧ rs = ss := by
  induction us generalizing vs with
  | nil =>
      cases vs with
      | nil => exact ⟨rfl, List.cons.inj h⟩
      | cons v vs =>
          obtain ⟨rfl, -⟩ := List.cons.inj h
          exact absurd (hvs _ List.mem_cons_self) ha
  | cons u us ih =>
      cases vs with
      | nil =>
          obtain ⟨rfl, -⟩ := List.cons.inj h
          exact absurd (hus _ List.mem_cons_self) hb
      | cons v vs =>
          obtain ⟨rfl, hrest⟩ := List.cons.inj h
          obtain ⟨rfl, hab⟩ := ih (fun w hw => hus w (List.mem_cons_of_mem _ hw))
            (fun w hw => hvs w (List.mem_cons_of_mem _ hw)) hrest
          exact ⟨rfl, hab⟩

/-- The words of a type. -/
structure IsTypeWords (type : String) (ts : List Word) : Prop where
  ne_nil : ts ≠ []
  begins : ∀ w ∈ ts, w.kind.beginsType = true
  text : type = " ".intercalate (ts.map Word.text)

theorem IsTypeWords.inj {type type' name name' : String} {ts ts' rs ss : List Word}
    (h : IsTypeWords type ts) (h' : IsTypeWords type' ts')
    (heq : ts ++ ⟨.identifier, name⟩ :: rs = ts' ++ ⟨.identifier, name'⟩ :: ss) :
    type = type' ∧ name = name' ∧ rs = ss := by
  have hnone : ∀ name, ¬ (⟨.identifier, name⟩ : Word).kind.beginsType = true :=
    fun _ => Bool.false_ne_true
  obtain ⟨rfl, hname, hrest⟩ := append_cons_inj_of_forall h.begins h'.begins (hnone _) (hnone _) heq
  exact ⟨h.text.trans h'.text.symm, congrArg Word.text hname, hrest⟩

/-- A type and a name are read as the words of the type and the name. -/
theorem IsDeclared.exists_words {type name : String} (h : IsDeclared type name) :
    ∃ ts, IsTypeWords type ts ∧
      WrittenOut (type ++ " " ++ name).toList (ts ++ [⟨.identifier, name⟩]) Text.isNameChar := by
  obtain ⟨ts, hne, hts, htype⟩ := h.type
  refine ⟨ts, ⟨hne, fun w hw => (hts w hw).1, htype⟩, ?_⟩
  have hblank : ∀ {kind : TokenKind}, kind.beginsType = true → kind.runsOn ' ' = false := by
    intro kind hkind
    cases kind <;> first | rfl | cases hkind
  have hfront : WrittenOut (type ++ " ").toList ts fun _ => false := by
    rw [htype]
    clear htype
    induction ts with
    | nil => exact absurd rfl hne
    | cons w ts ih =>
        obtain ⟨⟨hkind, hfirm⟩, hrest⟩ := List.forall_mem_cons.mp hts
        have hword := (WrittenOut.word hfirm).blank (hblank hkind)
        cases ts with
        | nil => simpa using hword
        | cons v ts =>
            have hall := hword.seq (ih (List.cons_ne_nil v ts) hrest)
            simpa using hall
  rw [String.toList_append]
  exact hfront.seq (.word h.name)

/-- The words of a declaration: of its type, its name and its value, if it has one. -/
def DeclarationWords (type name : String) (e : Expr) (ws : List Word) : Prop :=
  ∃ ts vs, ws = ts ++ ⟨.identifier, name⟩ :: vs ∧ IsTypeWords type ts ∧
    (e = .empty ∧ vs = [] ∨ ∃ us, vs = symbol .assign :: us ∧ e.Shown us)

namespace DeclarationWords

variable {type name type' name' : String} {e e' : Expr} {ws : List Word}

theorem inj (h : DeclarationWords type name e ws) (h' : DeclarationWords type' name' e' ws) :
    type = type' ∧ name = name' ∧ e.forget = e'.forget := by
  obtain ⟨ts, vs, rfl, htype, hvalue⟩ := h
  obtain ⟨ts', vs', heq, htype', hvalue'⟩ := h'
  obtain ⟨rfl, rfl, rfl⟩ := htype.inj htype' heq
  refine ⟨rfl, rfl, ?_⟩
  rcases hvalue with ⟨rfl, rfl⟩ | ⟨us, rfl, hshown⟩
  · rcases hvalue' with ⟨rfl, -⟩ | ⟨us', hus, -⟩
    · rfl
    · cases hus
  · rcases hvalue' with ⟨-, hus⟩ | ⟨us', hus, hshown'⟩
    · cases hus
    · obtain rfl := (List.cons.inj hus).2
      exact hshown.forget_eq hshown'

theorem ne_semicolon (h : DeclarationWords type name e ws) : ∀ w ∈ ws, w.kind ≠ .semicolon := by
  obtain ⟨ts, vs, rfl, htype, hvalue⟩ := h
  have hvs : ∀ w ∈ vs, w.kind ≠ .semicolon := by
    rcases hvalue with ⟨-, rfl⟩ | ⟨us, rfl, hshown⟩
    · exact fun w hw => nomatch hw
    · exact List.forall_mem_cons.mpr ⟨nofun, hshown.ne_semicolon⟩
  refine List.forall_mem_append.mpr ⟨fun w hw hkind => ?_, List.forall_mem_cons.mpr ⟨nofun, hvs⟩⟩
  have hbegins := htype.begins w hw
  rw [hkind] at hbegins
  cases hbegins

theorem not_shown (h : DeclarationWords type name e ws) : ¬ e'.Shown ws := by
  obtain ⟨ts, vs, rfl, htype, -⟩ := h
  intro hshown
  obtain ⟨w, us, heq, hbegins⟩ := hshown.exists_head
  cases ts with
  | nil => exact htype.ne_nil rfl
  | cons t ts =>
      obtain ⟨rfl, -⟩ := List.cons.inj heq
      rw [TokenKind.begins_of_beginsType (htype.begins t List.mem_cons_self)] at hbegins
      cases hbegins

theorem ne_nil (h : DeclarationWords type name e ws) : ws ≠ [] := by
  obtain ⟨ts, vs, rfl, -⟩ := h
  simp

end DeclarationWords

theorem IsDeclared.exists_declarationWords {type name : String} (h : IsDeclared type name)
    {e : Expr} (he : e.ProperIfAny) (l : Location) :
    ∃ ws, DeclarationWords type name e ws ∧
      WrittenOut (Node.declaration l type name e).source.toList ws (tail true) := by
  obtain ⟨ts, hts, hwritten⟩ := h.exists_words
  have hname : ∀ d, Text.isNameChar d = true → tail true d = true :=
    fun d hd => Bool.or_eq_true_iff.mpr (Or.inl hd)
  rcases he with rfl | he
  · exact ⟨_, ⟨ts, [], rfl, hts, Or.inl ⟨rfl, rfl⟩⟩, hwritten.mono hname⟩
  · obtain ⟨vs, hvs, hvalue⟩ := he.exists_shown
    refine ⟨_, ⟨ts, _, rfl, hts, Or.inr ⟨vs, rfl, hvs⟩⟩, ?_⟩
    have hassign := (WrittenOut.symbol .assign rfl).blank rfl
    have hall := (hwritten.blank (by decide)).seq (hassign.seq hvalue)
    simpa [Node.source, Node.toExpr, Expr.source, Expr.assigned, he.isEmpty_eq_false] using hall

/-- The words of the parameters of a function. -/
inductive ParameterWords : List Parameter → List Word → Prop where
  | none : ParameterWords [] []
  | one {p : Parameter} {ts : List Word} (h : IsTypeWords p.type ts) :
      ParameterWords [p] (ts ++ [⟨.identifier, p.name⟩])
  | more {p q : Parameter} {ps : List Parameter} {ts ws : List Word} (h : IsTypeWords p.type ts)
      (hrest : ParameterWords (q :: ps) ws) :
      ParameterWords (p :: q :: ps) (ts ++ ⟨.identifier, p.name⟩ :: symbol .comma :: ws)

theorem ParameterWords.inj {ps ps' : List Parameter} {ws ws' : List Word} (h : ParameterWords ps ws)
    (h' : ParameterWords ps' ws') (heq : ws = ws') :
    ps.map Parameter.forget = ps'.map Parameter.forget := by
  have hforget : ∀ {p p' : Parameter}, p.type = p'.type → p.name = p'.name →
      p.forget = p'.forget := by
    rintro ⟨l, type, name⟩ ⟨l', type', name'⟩ rfl rfl
    rfl
  induction h generalizing ps' ws' with
  | none =>
      cases h' with
      | none => rfl
      | one | more => simp at heq
  | one h =>
      cases h' with
      | none => simp at heq
      | one h' =>
          obtain ⟨htype, hname, -⟩ := h.inj h' heq
          rw [List.map_singleton, List.map_singleton, hforget htype hname]
      | more h' => cases (h.inj h' heq).2.2
  | more h _ ih =>
      cases h' with
      | none => simp at heq
      | one h' => cases (h.inj h' heq).2.2
      | more h' hrest' =>
          obtain ⟨htype, hname, hrest⟩ := h.inj h' heq
          exact congrArg₂ List.cons (hforget htype hname) (ih hrest' (List.cons.inj hrest).2)

/-- The text of the parameters of a function is read as their words. -/
theorem exists_parameterWords {ps : List Parameter} (h : ∀ p ∈ ps, IsDeclared p.type p.name) :
    ∃ ws, ParameterWords ps ws ∧ WrittenOut (Node.parameterList ps).toList ws (tail true) := by
  have hname : ∀ d, Text.isNameChar d = true → tail true d = true :=
    fun d hd => Bool.or_eq_true_iff.mpr (Or.inl hd)
  rw [Node.parameterList, String.toList_intercalate]
  induction ps with
  | nil => exact ⟨[], .none, .nil _⟩
  | cons p ps ih =>
      obtain ⟨hfirst, hrest⟩ := List.forall_mem_cons.mp h
      obtain ⟨ts, hts, hwritten⟩ := hfirst.exists_words
      cases ps with
      | nil => exact ⟨_, .one hts, by simpa using hwritten.mono hname⟩
      | cons q ps =>
          obtain ⟨ws, hws, hrows⟩ := ih hrest
          refine ⟨_, .more hts hws, ?_⟩
          have hcomma := (WrittenOut.symbol .comma rfl).blank rfl
          have hall := hwritten.append_cons (d := ',') (hcomma.seq hrows) (by decide)
          simpa using hall

/-! ## Headings -/

/-- The words of the first part of a loop's header. -/
inductive InitWords : Node → List Word → Prop where
  | absent : InitWords .empty []
  | declaration (l : Location) {type name : String} {e : Expr} {ws : List Word}
      (h : DeclarationWords type name e ws) : InitWords (.declaration l type name e) ws
  | bare {e : Expr} {ws : List Word} (h : e.Shown ws) : InitWords (.bare e) ws

namespace InitWords

variable {n n' : Node} {ws : List Word}

theorem inj (h : InitWords n ws) (h' : InitWords n' ws) : n.forget = n'.forget := by
  have hne : ∀ {e : Expr}, ¬ e.Shown [] := fun h => by
    obtain ⟨w, us, hws, -⟩ := h.exists_head
    cases hws
  cases h with
  | absent =>
      cases h' with
      | absent => rfl
      | declaration l h => exact absurd rfl h.ne_nil
      | bare h => exact absurd h hne
  | declaration l h =>
      cases h' with
      | absent => exact absurd rfl h.ne_nil
      | declaration l h' =>
          obtain ⟨rfl, rfl, hvalue⟩ := h.inj h'
          rw [Node.forget, Node.forget, hvalue]
      | bare h' => exact absurd h' h.not_shown
  | bare h =>
      cases h' with
      | absent => exact absurd h hne
      | declaration l h' => exact absurd h h'.not_shown
      | bare h' => rw [Node.forget, Node.forget, h.forget_eq h']

theorem ne_semicolon (h : InitWords n ws) : ∀ w ∈ ws, w.kind ≠ .semicolon := by
  cases h with
  | absent => exact fun w hw => nomatch hw
  | declaration l h => exact h.ne_semicolon
  | bare h => exact h.ne_semicolon

end InitWords

namespace Node

def heading : Node → String
  | empty => Expr.empty.form ++ ": "
  | program .. => "Program"
  | function _ name returnType parameters _ =>
      "Function: " ++ returnType ++ " " ++ name ++ "(" ++ parameterList parameters ++ ")"
  | parameter p => "Parameter: " ++ (parameter p).source
  | declaration l type name value => "Variable: " ++ (declaration l type name value).source
  | block .. => "Block"
  | branch _ test _ _ => "If (" ++ test.source ++ ")"
  | forLoop _ init test update _ =>
      "For (" ++ init.source ++ "; " ++ test.source ++ "; " ++ update.source ++ ")"
  | whileLoop _ test _ => "While (" ++ test.source ++ ")"
  | exit _ value => if value.isEmpty then "Return" else "Return " ++ value.source
  | effect _ value => "Expr: " ++ value.source
  | bare e => e.form ++ ": " ++ e.source

/-- A node without its places and without the nodes inside it. -/
def head : Node → Node
  | program .. => program default []
  | function _ name returnType parameters _ =>
      function default name returnType (parameters.map Parameter.forget) empty
  | block .. => block default []
  | branch _ test _ _ => branch default test.forget empty empty
  | forLoop _ init test update _ =>
      forLoop default init.forget test.forget update.forget empty
  | whileLoop _ test _ => whileLoop default test.forget empty
  | n => n.forget

def label (form : String) : Word :=
  ⟨.identifier, form⟩

/-- The words of a heading. -/
inductive HeadingWords : Node → List Word → Prop where
  | function (l : Location) {name type : String} {ps : List Parameter} (body : Node)
      {ts ws : List Word} (htype : IsTypeWords type ts) (hps : ParameterWords ps ws) :
      HeadingWords (.function l name type ps body)
        (label "Function" :: (ts ++ ⟨.identifier, name⟩ :: symbol .leftParen ::
          (ws ++ [symbol .rightParen])))
  | declaration (l : Location) {type name : String} {e : Expr} {ws : List Word}
      (h : DeclarationWords type name e ws) :
      HeadingWords (.declaration l type name e) (label "Variable" :: ws)
  | block (l : Location) (body : List Node) : HeadingWords (.block l body) [label "Block"]
  | branch (l : Location) {test : Expr} (consequent alternative : Node) {ws : List Word}
      (h : test.Shown ws) : HeadingWords (.branch l test consequent alternative)
        (label "If" :: symbol .leftParen :: (ws ++ [symbol .rightParen]))
  | forLoop (l : Location) {init : Node} {test update : Expr} (body : Node)
      {us vs ws : List Word} (hinit : InitWords init us) (htest : test.ShownIfAny vs)
      (hupdate : update.ShownIfAny ws) : HeadingWords (.forLoop l init test update body)
        (label "For" :: symbol .leftParen :: (us ++ symbol .semicolon :: (vs ++ symbol .semicolon ::
          (ws ++ [symbol .rightParen]))))
  | whileLoop (l : Location) {test : Expr} (body : Node) {ws : List Word} (h : test.Shown ws) :
      HeadingWords (.whileLoop l test body)
        (label "While" :: symbol .leftParen :: (ws ++ [symbol .rightParen]))
  | exit (l : Location) {e : Expr} {ws : List Word} (h : e.ShownIfAny ws) :
      HeadingWords (.exit l e) (label "Return" :: ws)
  | effect (l : Location) {e : Expr} {ws : List Word} (h : e.Shown ws) :
      HeadingWords (.effect l e) (label "Expr" :: ws)

/-- The words of a heading tell which node it is of, the nodes inside aside. -/
theorem HeadingWords.head_eq {n n' : Node} {ws ws' : List Word} (h : HeadingWords n ws)
    (h' : HeadingWords n' ws') (heq : ws = ws') : n.head = n'.head := by
  cases h with
  | function l body htype hps =>
      cases h' with
      | function _ _ htype' hps' =>
          obtain ⟨rfl, rfl, hrest⟩ := htype.inj htype' (List.cons.inj heq).2
          have hwords := List.append_cancel_right (List.cons.inj hrest).2
          rw [head, head, hps.inj hps' hwords]
      | _ => exact absurd (List.cons.inj heq).1 (by decide)
  | declaration l h =>
      cases h' with
      | declaration _ h' =>
          obtain rfl := (List.cons.inj heq).2
          obtain ⟨rfl, rfl, hvalue⟩ := h.inj h'
          simp only [head, forget, hvalue]
      | _ => exact absurd (List.cons.inj heq).1 (by decide)
  | block l body =>
      cases h' with
      | block => rfl
      | _ => exact absurd (List.cons.inj heq).1 (by decide)
  | branch l _ _ h =>
      cases h' with
      | branch _ _ _ h' =>
          obtain rfl := List.append_cancel_right (List.cons.inj (List.cons.inj heq).2).2
          rw [head, head, h.forget_eq h']
      | _ => exact absurd (List.cons.inj heq).1 (by decide)
  | forLoop l body hinit htest hupdate =>
      cases h' with
      | forLoop _ _ hinit' htest' hupdate' =>
          have hends : ¬ (symbol .semicolon).kind ≠ .semicolon := fun h => h rfl
          obtain ⟨rfl, -, hbehind⟩ := append_cons_inj_of_forall hinit.ne_semicolon
            hinit'.ne_semicolon hends hends (List.cons.inj (List.cons.inj heq).2).2
          obtain ⟨rfl, -, hlast⟩ := append_cons_inj_of_forall htest.ne_semicolon
            htest'.ne_semicolon hends hends hbehind
          obtain rfl := List.append_cancel_right hlast
          rw [head, head, hinit.inj hinit', htest.forget_eq htest', hupdate.forget_eq hupdate']
      | _ => exact absurd (List.cons.inj heq).1 (by decide)
  | whileLoop l _ h =>
      cases h' with
      | whileLoop _ _ h' =>
          obtain rfl := List.append_cancel_right (List.cons.inj (List.cons.inj heq).2).2
          rw [head, head, h.forget_eq h']
      | _ => exact absurd (List.cons.inj heq).1 (by decide)
  | exit l h =>
      cases h' with
      | exit _ h' =>
          obtain rfl := (List.cons.inj heq).2
          simp only [head, forget, h.forget_eq h']
      | _ => exact absurd (List.cons.inj heq).1 (by decide)
  | effect l h =>
      cases h' with
      | effect _ h' =>
          obtain rfl := (List.cons.inj heq).2
          simp only [head, forget, h.forget_eq h']
      | _ => exact absurd (List.cons.inj heq).1 (by decide)

/-! ## The texts of headings -/

def forms : List String :=
  ["Program", "Function", "Variable", "Block", "If", "Else", "For", "While", "Return", "Expr"]

theorem firm_label {form : String} (h : form ∈ forms) : (label form).Firm := by
  have hforms : ∀ form ∈ forms, TokenKind.ofWord form = .identifier ∧
      form.toList.head?.any Text.isNameStart = true ∧
      form.toList.tail.all Text.isNameChar = true := by
    decide
  obtain ⟨hkind, hhead, htail⟩ := hforms form h
  exact firm_ofWord hkind hhead htail

theorem tail_of_isNameChar {d : Char} (h : Text.isNameChar d = true) : tail true d = true :=
  Bool.or_eq_true_iff.mpr (Or.inl h)

theorem written_label (form : String) (h : form ∈ forms) :
    WrittenOut form.toList [label form] (tail true) :=
  (WrittenOut.word (firm_label h)).mono fun _ => tail_of_isNameChar

theorem written_colon (form : String) (h : form ∈ forms) :
    WrittenOut (form ++ ": ").toList [label form] fun _ => false := by
  rw [String.toList_append]
  exact (written_label form h).append_cons (d := ':') (WrittenOut.colon.blank rfl) (by decide)

theorem written_open (form : String) (h : form ∈ forms) :
    WrittenOut (form ++ " (").toList [label form, symbol .leftParen] fun _ => false := by
  have hopen := ((written_label form h).blank (by decide)).seq (.symbol .leftParen rfl)
  rw [String.toList_append]
  rwa [List.append_assoc] at hopen

theorem written_test (form : String) (hform : form ∈ forms) {cs : List Char} {ws : List Word}
    (h : WrittenOut cs ws (tail true)) :
    WrittenOut ((form ++ " (").toList ++ cs ++ [')'])
      (label form :: symbol .leftParen :: (ws ++ [symbol .rightParen])) (tail true) := by
  have hall := (written_open form hform).seq h.closed
  rw [List.append_assoc]
  exact hall.ofAlone (tail true)

variable {ts : List Token}

/-- The first part of a loop's header is read as its words. -/
theorem IsInitIn.exists_words {n : Node} (h : n.IsInitIn ts) :
    ∃ ws, InitWords n ws ∧ WrittenOut n.source.toList ws (tail true) := by
  cases h with
  | absent => exact ⟨[], .absent, .nil _⟩
  | declaration l hdeclared h =>
      obtain ⟨ws, hws, hwritten⟩ := hdeclared.exists_declarationWords h.properIfAny l
      exact ⟨ws, .declaration l hws, hwritten⟩
  | bare h =>
      obtain ⟨ws, hws, hwritten⟩ := h.proper.exists_shown
      exact ⟨ws, .bare hws, hwritten⟩

/-- The heading of a declaration is read as its words. -/
theorem exists_headingWords_declaration (l : Location) {type name : String} {e : Expr}
    (hdeclared : IsDeclared type name) (h : e.IsReadIfAny ts) :
    ∃ ws, HeadingWords (declaration l type name e) ws ∧
      WrittenOut (declaration l type name e).heading.toList ws (tail true) := by
  obtain ⟨ws, hws, hwritten⟩ := hdeclared.exists_declarationWords h.properIfAny l
  refine ⟨_, .declaration l hws, ?_⟩
  rw [heading, String.toList_append]
  exact (written_colon "Variable" (by decide)).seq hwritten

/-- The heading of a statement is read as its words. -/
theorem IsStatementIn.exists_headingWords {n : Node} (h : n.IsStatementIn ts) :
    ∃ ws, HeadingWords n ws ∧ WrittenOut n.heading.toList ws (tail true) := by
  cases h with
  | effect l h =>
      obtain ⟨ws, hws, hwritten⟩ := h.proper.exists_shown
      refine ⟨_, .effect l hws, ?_⟩
      rw [heading, String.toList_append]
      exact (written_colon "Expr" (by decide)).seq hwritten
  | exit l h =>
      rcases h with rfl | h
      · exact ⟨_, .exit l (Or.inl ⟨rfl, rfl⟩), written_label "Return" (by decide)⟩
      · obtain ⟨ws, hws, hwritten⟩ := h.proper.exists_shown
        refine ⟨_, .exit l (Or.inr hws), ?_⟩
        have hall := ((written_label "Return" (by decide)).blank (by decide)).seq hwritten
        simpa [heading, h.proper.isEmpty_eq_false] using hall
  | declaration l hdeclared h => exact exists_headingWords_declaration l hdeclared h
  | block l h => exact ⟨_, .block l _, written_label "Block" (by decide)⟩
  | branch l htest hthen helse =>
      obtain ⟨ws, hws, hwritten⟩ := htest.proper.exists_shown
      refine ⟨_, .branch l _ _ hws, ?_⟩
      rw [heading, String.toList_append, String.toList_append]
      exact written_test "If" (by decide) hwritten
  | forLoop l hinit htest hupdate hbody =>
      obtain ⟨us, hus, hfirst⟩ := hinit.exists_words
      obtain ⟨vs, hvs, hsecond⟩ := htest.properIfAny.exists_shown
      obtain ⟨ws, hws, hthird⟩ := hupdate.properIfAny.exists_shown
      refine ⟨_, .forLoop l _ hus hvs hws, ?_⟩
      have hall := (written_open "For" (by decide)).seq
        (hfirst.ended.seq (hsecond.ended.seq hthird.closed))
      simpa [heading] using hall.ofAlone (tail true)
  | whileLoop l htest hbody =>
      obtain ⟨ws, hws, hwritten⟩ := htest.proper.exists_shown
      refine ⟨_, .whileLoop l _ hws, ?_⟩
      rw [heading, String.toList_append, String.toList_append]
      exact written_test "While" (by decide) hwritten

/-- The heading of what stands at the top of a sketch is read as its words. -/
theorem IsTopLevelIn.exists_headingWords {n : Node} (h : n.IsTopLevelIn ts) :
    ∃ ws, HeadingWords n ws ∧ WrittenOut n.heading.toList ws (tail true) := by
  cases h with
  | function l hdeclared hps hts hparen hbody =>
      obtain ⟨ts, hts, hwritten⟩ := hdeclared.exists_words
      obtain ⟨ws, hws, hlisted⟩ := exists_parameterWords hps
      refine ⟨_, .function l _ hts hws, ?_⟩
      have hparams := (WrittenOut.symbol .leftParen rfl).seq hlisted.closed
      have hall := (written_colon "Function" (by decide)).seq
        (hwritten.append_cons (d := '(') hparams (by decide))
      simpa [heading] using hall.ofAlone (tail true)
  | declaration l hdeclared h => exact exists_headingWords_declaration l hdeclared h

end Node

end InoBlocks
