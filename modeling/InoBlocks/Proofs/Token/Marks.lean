import InoBlocks.Proofs.Sketch.Spelling

/-!
# Names among words

What the words of a text say about names: which of them occur and in what order, which of them are
declared, and where the braces are and the headers of loops, which is all that tells how far a
declaration reaches.
-/

namespace InoBlocks

/-- What a word says about names. -/
inductive Mark (α : Type) where
  /-- A name that is used. -/
  | name (a : α)
  /-- A name behind a type. -/
  | declares (a : α)
  /-- The header of a loop begins, which may declare a name for its body. -/
  | loop
  | opens
  | closes
  deriving DecidableEq, Repr

namespace Mark

variable {α β : Type}

def name? : Mark α → Option α
  | name a | declares a => some a
  | loop | opens | closes => none

/-- A mark with another name, or none if there is no other name. -/
def through (f : α → Option β) : Mark α → Option (Mark β)
  | name a => (f a).map name
  | declares a => (f a).map declares
  | loop => some loop
  | opens => some opens
  | closes => some closes

def braced (ms : List (Mark α)) : List (Mark α) :=
  opens :: ms ++ [closes]

def map (f : α → β) : Mark α → Mark β
  | name a => name (f a)
  | declares a => declares (f a)
  | loop => loop
  | opens => opens
  | closes => closes

theorem mem_braced {m : Mark α} {ms : List (Mark α)} (h : m ∈ ms) : m ∈ braced ms :=
  List.mem_append_left _ (List.mem_cons_of_mem _ h)

theorem name?_map (f : α → β) (m : Mark α) : (m.map f).name? = m.name?.map f := by
  cases m <;> rfl

theorem through_some (f : α → β) (m : Mark α) : m.through (fun a => some (f a)) = some (m.map f) := by
  cases m <;> rfl

theorem name?_through (f : α → Option β) (m : Mark α) :
    (m.through f).bind name? = m.name?.bind f := by
  cases m with
  | name a | declares a =>
      change ((f a).map _).bind name? = f a
      cases f a <;> rfl
  | _ => rfl

/-! ## What is in force where a name is used -/

/-- The declarations in force at a place, the innermost first; those that are in force again behind
each brace or header that is open; and whether the next brace belongs to the header of a loop. -/
structure Scope (α : Type) where
  inForce : List α := []
  behind : List (List α) := []
  header : Bool := false

namespace Scope

def step (s : Scope α) : Mark α → Scope α
  | name _ => s
  | declares a => { s with inForce := a :: s.inForce }
  | loop => ⟨s.inForce, s.inForce :: s.behind, true⟩
  | opens => if s.header then { s with header := false } else
      { s with behind := s.inForce :: s.behind }
  | closes =>
      match s.behind with
      | [] => s
      | inForce :: behind => { s with inForce := inForce, behind := behind }

/-- A scope with other names, without those that have none. -/
def through (f : α → Option β) (s : Scope α) : Scope β :=
  ⟨s.inForce.filterMap f, s.behind.map (List.filterMap f), s.header⟩

theorem through_step (f : α → Option β) (s : Scope α) (m : Mark α) :
    (s.step m).through f = ((m.through f).map (s.through f).step).getD (s.through f) := by
  obtain ⟨inForce, behind, header⟩ := s
  cases m with
  | name a =>
      change _ = (((f a).map name).map _).getD _
      cases f a <;> rfl
  | declares a =>
      change _ = (((f a).map declares).map _).getD _
      rw [step, through, List.filterMap_cons]
      cases f a <;> rfl
  | loop => rfl
  | opens => cases header <;> rfl
  | closes => cases behind <;> rfl

/-- What is used at a mark, with the declarations in force there. -/
def used (s : Scope α) : Mark α → List (α × List α)
  | name a => [(a, s.inForce)]
  | _ => []

theorem used_through (f : α → Option β) (s : Scope α) (m : Mark α) :
    (s.used m).filterMap (fun u => (f u.1).map (·, u.2.filterMap f)) =
      ((m.through f).map (s.through f).used).getD [] := by
  cases m with
  | name a =>
      change [(a, s.inForce)].filterMap _ = (((f a).map name).map _).getD []
      rw [List.filterMap_cons]
      cases f a <;> rfl
  | declares a =>
      change [] = (((f a).map declares).map _).getD []
      cases f a <;> rfl
  | _ => rfl

/-- All declarations that are in force somewhere have a property. -/
structure All (P : α → Prop) (s : Scope α) : Prop where
  inForce : ∀ d ∈ s.inForce, P d
  behind : ∀ ds ∈ s.behind, ∀ d ∈ ds, P d

theorem All.step {P : α → Prop} {s : Scope α} (h : s.All P) {m : Mark α}
    (hm : ∀ d, m = declares d → P d) : (s.step m).All P := by
  have hboth : ∀ ds ∈ s.inForce :: s.behind, ∀ d ∈ ds, P d :=
    List.forall_mem_cons.mpr ⟨h.inForce, h.behind⟩
  cases m with
  | name a => exact h
  | declares a => exact ⟨List.forall_mem_cons.mpr ⟨hm a rfl, h.inForce⟩, h.behind⟩
  | loop => exact ⟨h.inForce, hboth⟩
  | opens =>
      rw [Scope.step]
      split
      · exact ⟨h.inForce, h.behind⟩
      · exact ⟨h.inForce, hboth⟩
  | closes =>
      obtain ⟨inForce, behind, header⟩ := s
      cases behind with
      | nil => exact h
      | cons ds behind =>
          obtain ⟨hds, hbehind⟩ := List.forall_mem_cons.mp h.behind
          exact ⟨hds, hbehind⟩

end Scope

/-- The names that are used, each with the declarations in force where it is used. -/
def uses (s : Scope α) : List (Mark α) → List (α × List α)
  | [] => []
  | m :: ms => s.used m ++ uses (s.step m) ms

/-- With other names the same is used at the same places. -/
theorem uses_through (f : α → Option β) (s : Scope α) (ms : List (Mark α)) :
    uses (s.through f) (ms.filterMap (through f)) =
      (uses s ms).filterMap fun u => (f u.1).map (·, u.2.filterMap f) := by
  induction ms generalizing s with
  | nil => rfl
  | cons m ms ih =>
      rw [uses, List.filterMap_append, ← ih, s.used_through f, s.through_step f,
        List.filterMap_cons]
      cases m.through f <;> rfl

theorem uses_map (f : α → β) (ms : List (Mark α)) :
    uses {} (ms.map (map f)) = (uses {} ms).map fun u => (f u.1, u.2.map f) := by
  have hmarks : (through fun a => some (f a)) = some ∘ map f := funext (through_some f)
  have hnames : (fun a => some (f a)) = some ∘ f := rfl
  have huses := uses_through (fun a => some (f a)) {} ms
  rw [hmarks, hnames, List.filterMap_eq_map, List.filterMap_eq_map (f := f)] at huses
  exact huses.trans (congrFun List.filterMap_eq_map (uses {} ms))

/-- Whatever is in force where a name is used was declared. -/
theorem forall_mem_uses {P : α → Prop} {s : Scope α} (hs : s.All P) {ms : List (Mark α)}
    (h : ∀ d, declares d ∈ ms → P d) : ∀ u ∈ uses s ms, ∀ d ∈ u.2, P d := by
  induction ms generalizing s with
  | nil => exact nofun
  | cons m ms ih =>
      rw [uses]
      refine List.forall_mem_append.mpr ⟨?_, ih (hs.step fun d hd => h d (hd ▸ List.mem_cons_self))
        fun d hd => h d (List.mem_cons_of_mem m hd)⟩
      cases m with
      | name a => exact List.forall_mem_singleton.mpr hs.inForce
      | _ => exact nofun

end Mark

namespace Word

def names (ws : List Word) : List String :=
  (ws.filter fun w => w.kind == .identifier).map Word.text

theorem names_append (ws vs : List Word) : names (ws ++ vs) = names ws ++ names vs := by
  simp [names]

theorem names_cons (w : Word) (ws : List Word) : names (w :: ws) = names [w] ++ names ws :=
  names_append [w] ws

theorem names_of_ne {w : Word} (h : w.kind ≠ .identifier) : names [w] = [] := by
  simp [names, h]

def mark? (typed : Bool) (w : Word) : Option (Mark String) :=
  match w.kind with
  | .identifier => some (if typed then .declares w.text else .name w.text)
  | .forWord => some .loop
  | .leftBrace => some .opens
  | .rightBrace => some .closes
  | _ => none

/-- What words say, the first of them behind a type or not. -/
def marks (typed : Bool) : List Word → List (Mark String)
  | [] => []
  | w :: ws => (w.mark? typed).toList ++ marks w.kind.beginsType ws

/-- The names in what words say are the names among the words. -/
theorem filterMap_marks (typed : Bool) (ws : List Word) :
    (marks typed ws).filterMap Mark.name? = names ws := by
  induction ws generalizing typed with
  | nil => rfl
  | cons w ws ih =>
      rw [marks, List.filterMap_append, ih, names_cons]
      congr 1
      by_cases hname : w.kind = .identifier
      · simp only [mark?, hname, names, List.filter_cons, beq_self_eq_true]
        cases typed <;> rfl
      · rw [names_of_ne hname, mark?.eq_def]
        split
        · contradiction
        all_goals rfl

/-- Words that say something wherever no type is in front of them, and leave none behind. -/
def Marked (ws : List Word) (ms : List (Mark String)) : Prop :=
  ∀ vs, marks false (ws ++ vs) = ms ++ marks false vs

namespace Marked

variable {ws vs : List Word} {ms ns : List (Mark String)}

theorem nil : Marked [] [] :=
  fun _ => rfl

theorem append (h : Marked ws ms) (h' : Marked vs ns) : Marked (ws ++ vs) (ms ++ ns) := by
  intro us
  rw [List.append_assoc, h, h', List.append_assoc]

theorem marks_eq (h : Marked ws ms) : marks false ws = ms := by
  have hnil := h []
  rwa [List.append_nil, marks, List.append_nil] at hnil

theorem one {w : Word} (h : w.kind.beginsType = false) : Marked [w] (w.mark? false).toList := by
  intro vs
  rw [List.singleton_append, marks, h]

theorem cons {w : Word} (hw : w.kind.beginsType = false) (h : Marked ws ms) :
    Marked (w :: ws) ((w.mark? false).toList ++ ms) :=
  (one hw).append h

theorem cons_none {w : Word} (hw : w.kind.beginsType = false) (hnone : w.mark? false = none)
    (h : Marked ws ms) : Marked (w :: ws) ms := by
  have hcons := h.cons hw
  rwa [hnone] at hcons

theorem concat_none {w : Word} (hw : w.kind.beginsType = false) (hnone : w.mark? false = none)
    (h : Marked ws ms) : Marked (ws ++ [w]) ms := by
  have hconcat := h.append (cons_none hw hnone nil)
  rwa [List.append_nil] at hconcat

theorem braced (h : Marked ws ms) :
    Marked (symbol .leftBrace :: ws ++ [symbol .rightBrace]) (Mark.braced ms) :=
  ((one (w := symbol .leftBrace) rfl).append h).append (one (w := symbol .rightBrace) rfl)

theorem declared {ts : List Word} (hne : ts ≠ []) (hts : ∀ w ∈ ts, w.kind.beginsType = true)
    (id : String) : Marked (ts ++ [⟨.identifier, id⟩]) [.declares id] := by
  have htype : ∀ kind : TokenKind, kind.beginsType = true → ∀ typed text,
      mark? typed ⟨kind, text⟩ = none := by
    intro kind hkind typed text
    cases kind <;> first | rfl | exact absurd hkind (by decide)
  have hall : ∀ typed : Bool, (ts = [] → typed = true) → ∀ vs,
      marks typed (ts ++ [⟨.identifier, id⟩] ++ vs) = .declares id :: marks false vs := by
    clear hne
    induction ts with
    | nil =>
        intro typed htyped vs
        rw [htyped rfl]
        rfl
    | cons t ts ih =>
        intro typed _ vs
        obtain ⟨ht, hts⟩ := List.forall_mem_cons.mp hts
        rw [List.cons_append, List.cons_append, marks, htype t.kind ht typed t.text, ht,
          ih hts true (fun _ => rfl) vs]
        rfl
  exact hall false fun hnil => absurd hnil hne

end Marked

def Calm (ws : List Word) : Prop :=
  ∀ w ∈ ws, w.kind.inPhrase = true

namespace Calm

variable {ws vs : List Word}

theorem append (h : Calm ws) (h' : Calm vs) : Calm (ws ++ vs) :=
  List.forall_mem_append.mpr ⟨h, h'⟩

theorem cons {w : Word} (hw : w.kind.inPhrase = true) (h : Calm ws) : Calm (w :: ws) :=
  List.forall_mem_cons.mpr ⟨hw, h⟩

theorem one {w : Word} (hw : w.kind.inPhrase = true) : Calm [w] :=
  List.forall_mem_singleton.mpr hw

theorem marked (h : Calm ws) : Marked ws ((names ws).map .name) := by
  induction ws with
  | nil => exact .nil
  | cons w ws ih =>
      obtain ⟨hw, hws⟩ := List.forall_mem_cons.mp h
      have hkind : w.kind.beginsType = false ∧ w.mark? false = (names [w]).head?.map .name := by
        obtain ⟨kind, text⟩ := w
        cases kind <;> first | exact ⟨rfl, rfl⟩ | exact absurd hw Bool.false_ne_true
      have hone : (names [w]).map Mark.name = (w.mark? false).toList := by
        rw [hkind.2]
        by_cases hname : w.kind = .identifier
        · simp [names, hname]
        · simp [names_of_ne hname]
      rw [names_cons, List.map_append, hone]
      exact (ih hws).cons hkind.1

end Calm

end Word

end InoBlocks
