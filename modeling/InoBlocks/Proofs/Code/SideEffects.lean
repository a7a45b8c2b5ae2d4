import InoBlocks.Proofs.Code.StatementTexts
import InoBlocks.Proofs.Code.Visits

/-!
# What a sketch leaves behind

The headers and the global variables of a sketch follow from the blocks that are reached: a header
if one of them needs mathematics, a line for each declaration among the top blocks, and then a
declaration for each name that some block assigns and none declares.  Generating fails over the
structure of a block exactly if one that is reached is malformed.
-/

namespace InoBlocks

namespace Code

/-! ## Lists without duplicates -/

theorem eraseDups_append_singleton (xs : List String) (x : String) :
    (xs ++ [x]).eraseDups = addNew xs.eraseDups x := by
  rw [List.eraseDups_append, addNew, List.removeAll]
  by_cases hx : x ∈ xs <;> simp [hx, List.eraseDups_cons]

theorem nodup_addNew {xs : List String} (h : xs.Nodup) (x : String) : (addNew xs x).Nodup := by
  unfold addNew
  split
  · exact h
  · rename_i hx
    exact List.nodup_append.mpr ⟨h, List.nodup_singleton x, by
      rintro y hy z hz rfl
      rw [List.mem_singleton.mp hz] at hy
      exact hx (by simpa using hy)⟩

theorem nodup_eraseDups (xs : List String) : xs.eraseDups.Nodup := by
  induction xs using List.reverseRecOn with
  | nil => exact List.nodup_nil
  | append_singleton xs x ih =>
      rw [eraseDups_append_singleton]
      exact nodup_addNew ih x

/-! ## What is gathered -/

def topText (style : Style) (b : Block) : String :=
  match (part b).statement style.top {} with
  | .ok (text, _) => text
  | .error _ => ""

def declarationLines (style : Style) (roots : List Block) : List String :=
  (roots.filter Block.isDeclaring).map (topText style)

/-- The names that some blocks assign and none of them declares, each once. -/
def undeclared (bs : List Block) : List String :=
  (bs.filterMap Block.assignedName?).eraseDups.filter fun name =>
    !(bs.filterMap Block.declaredName?).contains name

def integerLine (name : String) : String :=
  "int " ++ name ++ ";"

/-- A context in which there is what some lines and some blocks leave behind. -/
structure Gathered (c : Context) (lines : List String) (bs : List Block) : Prop where
  includes : c.includes = if bs.any Block.needsMath then [mathHeader] else []
  globals : c.globals = lines.eraseDups
  assigned : c.assigned = (bs.filterMap Block.assignedName?).eraseDups
  declared : c.declared = (bs.filterMap Block.declaredName?).eraseDups

namespace Gathered

variable {c : Context} {lines : List String} {bs : List Block}

theorem start : Gathered {} [] [] :=
  ⟨rfl, rfl, rfl, rfl⟩

theorem visit (h : Gathered c lines bs) (b : Block) :
    Gathered (c.visit b) lines (bs ++ [b]) where
  includes := by
    rw [Context.visit, h.includes]
    cases hmath : b.needsMath <;> cases hbefore : bs.any Block.needsMath <;>
      simp [hmath, hbefore, addNew]
  globals := h.globals
  assigned := by
    rw [Context.visit, h.assigned]
    cases hname : b.assignedName? with
    | none => simp [hname]
    | some name => simp [hname, eraseDups_append_singleton]
  declared := by
    rw [Context.visit, h.declared]
    cases hname : b.declaredName? with
    | none => simp [hname]
    | some name => simp [hname, eraseDups_append_singleton]

theorem visitAll (h : Gathered c lines bs) (cs : List Block) :
    Gathered (cs.foldl Context.visit c) lines (bs ++ cs) := by
  induction cs generalizing c bs with
  | nil => simpa using h
  | cons b cs ih => simpa using ih (h.visit b)

theorem addVariable (h : Gathered c lines bs) (line : String) :
    Gathered (c.addVariable line) (lines ++ [line]) bs :=
  { h with globals := by rw [Context.addVariable, h.globals, eraseDups_append_singleton] }

theorem addFunction (h : Gathered c lines bs) (text : String) :
    Gathered (c.addFunction text) lines bs :=
  { h with }

theorem warn (h : Gathered c lines bs) (message : String) : Gathered (c.warn message) lines bs :=
  { h with }

end Gathered

/-! ## Top blocks -/

/-- What taking up a top block beside the two functions changes. -/
def Context.takeTop (style : Style) (c : Context) (b : Block) : Context :=
  if b.isDeclaring then (b.reached.foldl visit c).addVariable (topText style b)
  else if b.isRawTop then (b.reached.foldl visit c).addFunction (topText style b)
  else if b.type == Section.setup.type || b.type == Section.loop.type then c
  else c.warn ("top-level block '" ++ b.type ++ "' outside setup/loop ignored")

/-- The text of a top block does not depend on what was taken up before it. -/
theorem runs_topText (style : Style) (b : Block) (k : String → Context → Context) :
    Runs ((part b).statement style.top >>= fun text => modify (k text))
      (∃ c ∈ b.reached, c.IsMalformed)
      fun c => k (topText style b) (b.reached.foldl Context.visit c) := by
  have hrun := (visited b).statement style.top
  constructor
  · intro hgood
    obtain ⟨text, htext⟩ := hrun.ok hgood
    have htop : topText style b = text := by rw [topText, htext]
    refine ⟨(), fun c => ?_⟩
    change ((part b).statement style.top c >>= fun result => _) = _
    rw [htext, htop]
    rfl
  · intro hbad c
    obtain ⟨fault, hfault, hstructural⟩ := hrun.error hbad c
    refine ⟨fault, ?_, hstructural⟩
    change ((part b).statement style.top c >>= fun result => _) = _
    rw [hfault]
    rfl

theorem runs_addTop (style : Style) (b : Block) :
    Runs (addTop style b) (∃ c ∈ topReached b, c.IsMalformed) fun c => c.takeTop style b := by
  by_cases hdeclaring : b.isDeclaring = true
  · have hadd : addTop style b = (part b).statement style.top >>= fun text =>
        modify fun c => c.addVariable text := by
      rw [Block.isDeclaring, Bool.or_eq_true, beq_iff_eq, beq_iff_eq] at hdeclaring
      unfold addTop
      rcases hdeclaring with htype | htype <;> rw [htype] <;> rfl
    simp only [hadd, Context.takeTop, topReached, hdeclaring, Bool.true_or, if_true]
    exact runs_topText style b fun text c => c.addVariable text
  by_cases hraw : b.isRawTop = true
  · have hadd : addTop style b = (part b).statement style.top >>= fun text =>
        modify fun c => c.addFunction text := by
      rw [Block.isRawTop, Bool.or_eq_true, beq_iff_eq, beq_iff_eq] at hraw
      unfold addTop
      rcases hraw with htype | htype <;> rw [htype] <;> rfl
    simp only [hadd, Context.takeTop, topReached, hdeclaring, hraw, Bool.or_true, if_true]
    exact runs_topText style b fun text c => c.addFunction text
  · have hnone : topReached b = [] := by simp [topReached, hdeclaring, hraw]
    rw [hnone]
    unfold addTop Context.takeTop
    rw [Block.isDeclaring] at hdeclaring ⊢
    rw [Block.isRawTop] at hraw ⊢
    simp only [if_neg hdeclaring, if_neg hraw]
    split
    · exact (Runs.pure ()).congr (by simp) fun c => rfl
    · exact (Runs.modify _).congr (by simp) fun c => rfl

theorem visits_sectionBody (style : Style) (roots : List Block) (s : Section) :
    Visits (sectionBody style roots s) (∃ c ∈ sectionReached roots s, c.IsMalformed)
      (sectionReached roots s) := by
  unfold sectionBody sectionReached
  cases roots.find? fun b => b.type == s.type with
  | none => exact (Visits.pure _).congr (by simp) rfl
  | some root => exact Runs.map (visits_statements (fun b _ => visited b) _) _

/-- What generating the bodies of the two functions changes. -/
def gather (style : Style) (roots : List Block) : Context :=
  (sectionReached roots .setup ++ sectionReached roots .loop).foldl Context.visit
    (roots.foldl (Context.takeTop style) {})

theorem runs_bodies (style : Style) (roots : List Block) :
    Runs (bodies style roots) (∃ c ∈ reached roots, c.IsMalformed) fun c =>
      (sectionReached roots .setup ++ sectionReached roots .loop).foldl Context.visit
        (roots.foldl (Context.takeTop style) c) := by
  have htop : Runs (roots.forM (addTop style)) (∃ b ∈ roots, ∃ c ∈ topReached b, c.IsMalformed)
      fun c => roots.foldl (Context.takeTop style) c :=
    Runs.forM fun b _ => runs_addTop style b
  have hsections := (visits_sectionBody style roots .setup).bind fun setup =>
    Runs.map (visits_sectionBody style roots .loop) fun loop => (setup, loop)
  refine (htop.bind fun _ => hsections).congr ?_ fun c => rfl
  rw [← exists_mem_flatMap, reached]
  simp only [List.mem_append, or_and_right, exists_or]

theorem Gathered.takeTop {c : Context} {lines : List String} {bs : List Block}
    (h : Gathered c lines bs) (style : Style) (b : Block) :
    Gathered (c.takeTop style b) (lines ++ declarationLines style [b]) (bs ++ topReached b) := by
  unfold Context.takeTop declarationLines
  split
  · rename_i hdeclaring
    rw [List.filter_cons_of_pos hdeclaring, topReached, hdeclaring, Bool.true_or, if_pos rfl]
    exact (h.visitAll b.reached).addVariable _
  · rename_i hdeclaring
    rw [List.filter_cons_of_neg hdeclaring, List.filter_nil, List.map_nil, List.append_nil]
    split
    · rename_i hraw
      rw [topReached, hraw, Bool.or_true, if_pos rfl]
      exact (h.visitAll b.reached).addFunction _
    · rename_i hraw
      have hnone : topReached b = [] := by simp [topReached, hdeclaring, hraw]
      rw [hnone, List.append_nil]
      split
      · exact h
      · exact h.warn _

theorem gathered_gather (style : Style) (roots : List Block) :
    Gathered (gather style roots) (declarationLines style roots) (reached roots) := by
  -- Each top block adds to what those before it left, so the fold starts from any context.
  have htop : ∀ {c lines bs}, Gathered c lines bs →
      Gathered (roots.foldl (Context.takeTop style) c) (lines ++ declarationLines style roots)
        (bs ++ roots.flatMap topReached) := by
    intro c lines bs h
    induction roots generalizing c lines bs with
    | nil => simpa [declarationLines] using h
    | cons b roots ih =>
        have hrest := ih (h.takeTop style b)
        have hlines : declarationLines style (b :: roots) =
            declarationLines style [b] ++ declarationLines style roots := by
          rw [declarationLines, declarationLines, declarationLines, ← List.map_append,
            ← List.filter_append, List.singleton_append]
        rw [hlines, List.flatMap_cons, ← List.append_assoc, ← List.append_assoc]
        exact hrest
  exact (htop .start).visitAll _

/-! ## Lines of declarations -/

theorem isName_of_assignedName? {b : Block} {name : String} (h : b.assignedName? = some name) :
    IsName name := by
  unfold Block.assignedName? at h
  split at h
  · cases h
    exact isName_safeNameOf _ isName_unnamed
  · cases h

/-- A declaration at the top: its type, its name, and the value if there is one. -/
theorem topText_cases (style : Style) {b : Block} (h : b.isDeclaring = true) :
    topText style b = "" ∨ ∃ type ∈ Statement.variableTypes, ∃ rest, (rest = [] ∨ ' ' ∈ rest) ∧
      (topText style b).toList =
        type.toList ++ ' ' :: (b.variableName.toList ++ rest ++ [';']) := by
  obtain ⟨type, fields, inputs⟩ := b
  let s : Shape := ⟨type, fields, slots inputs⟩
  have hpad : ∀ text, Statement.line style.top text = text := fun _ => String.empty_append
  rw [Block.isDeclaring, Bool.or_eq_true, beq_iff_eq, beq_iff_eq] at h
  rcases h with rfl | rfl
  · have htext : topText style (.mk "variables_declare" fields inputs) =
        Statement.line style.top (Statement.variableType s ++ " " ++ Value.variableName s ++ ";") :=
      rfl
    refine Or.inr ⟨_, mem_variableTypes s, [], Or.inl rfl, ?_⟩
    rw [htext, hpad]
    simp [s, Value.variableName, Block.variableName, Shape.field?, Block.field?, Block.fields]
  · have hstatement : (part (.mk "variables_define" fields inputs)).statement style.top =
        Statement.variableDefine s style.top := rfl
    rw [topText, hstatement]
    cases hrun : Statement.variableDefine s style.top {} with
    | error fault => exact Or.inl rfl
    | ok result =>
        obtain ⟨text, c'⟩ := result
        obtain ⟨-, c₁, -, hrest⟩ := Gen.bind_eq_ok hrun
        obtain ⟨value, c₂, -, hline⟩ := Gen.bind_eq_ok hrest
        have htext := (Prod.mk.inj (Except.ok.inj hline)).1
        refine Or.inr ⟨_, mem_variableTypes s, " = ".toList ++ value.toList,
          Or.inr (by simp), ?_⟩
        dsimp only
        rw [← htext, hpad]
        simp [s, Value.variableName, Block.variableName, Shape.field?, Block.field?, Block.fields]

/-- A line that declares an integer is that of a declaration at the top only if that declares the
same name: a name holds no blank, and no other type begins like this one. -/
theorem variableName_of_topText (style : Style) {b : Block} (h : b.isDeclaring = true)
    {name : String} (hname : IsName name) (htext : topText style b = integerLine name) :
    b.variableName = name := by
  have hline : (integerLine name).toList = 'i' :: 'n' :: 't' :: ' ' :: (name.toList ++ [';']) := by
    simp [integerLine]
  rcases topText_cases style h with hempty | ⟨type, htype, rest, hrest, hchars⟩
  · rw [← htext, hempty] at hline
    cases hline
  rw [htext, hline] at hchars
  have hint : type = "int" := by
    have hheads : ∀ type ∈ Statement.variableTypes, type = "int" ∨
        type.toList.head?.any (· != 'i') = true := by
      decide
    refine (hheads type htype).resolve_right fun hhead => ?_
    cases hlist : type.toList with
    | nil =>
        rw [hlist] at hhead
        cases hhead
    | cons c cs =>
        rw [hlist, List.cons_append, List.cons.injEq] at hchars
        rw [hlist, ← hchars.1] at hhead
        cases hhead
  subst hint
  have htail : name.toList = b.variableName.toList ++ rest := by
    simpa [← List.append_assoc] using hchars
  rcases hrest with rfl | hblank
  · rw [List.append_nil] at htail
    exact (String.toList_inj.mp htail).symm
  · have hmem : ' ' ∈ name.toList := htail ▸ List.mem_append_right _ hblank
    exact absurd (hname.1 ' ' hmem) (by decide)

/-- The lines for the names that are assigned only stand at the top for the first time. -/
theorem integerLine_not_mem {style : Style} {roots : List Block} {name : String}
    (h : name ∈ undeclared (reached roots)) : integerLine name ∉ declarationLines style roots := by
  obtain ⟨hassigned, hnone⟩ := List.mem_filter.mp h
  obtain ⟨a, -, ha⟩ := List.mem_filterMap.mp (List.mem_eraseDups.mp hassigned)
  intro hline
  obtain ⟨b, hb, htext⟩ := List.mem_map.mp hline
  obtain ⟨hroot, hdeclaring⟩ := List.mem_filter.mp hb
  have hname := variableName_of_topText style hdeclaring (isName_of_assignedName? ha) htext
  have hreached : b ∈ reached roots := by
    rw [reached, List.mem_append, List.mem_flatMap]
    refine Or.inl ⟨b, hroot, ?_⟩
    rw [topReached, hdeclaring, Bool.true_or, if_pos rfl, Block.reached_eq]
    exact List.mem_cons_self
  have hdeclared : name ∈ (reached roots).filterMap Block.declaredName? :=
    List.mem_filterMap.mpr ⟨b, hreached, by rw [Block.declaredName?, if_pos hdeclaring, hname]⟩
  rw [List.contains_iff_mem.mpr hdeclared] at hnone
  cases hnone

theorem integerLine_injective : Function.Injective integerLine := by
  intro m n h
  simpa [integerLine] using h

theorem nodup_undeclared (bs : List Block) : (undeclared bs).Nodup :=
  (nodup_eraseDups _).filter _

theorem nodup_lines {lines : List String} {bs : List Block}
    (hnew : ∀ name ∈ undeclared bs, integerLine name ∉ lines) :
    (lines.eraseDups ++ (undeclared bs).map integerLine).Nodup := by
  refine List.nodup_append.mpr ⟨nodup_eraseDups lines,
    (nodup_undeclared bs).map integerLine_injective, ?_⟩
  rintro line hline _ hmem rfl
  obtain ⟨name, hname, rfl⟩ := List.mem_map.mp hmem
  exact hnew name hname (List.mem_eraseDups.mp hline)

/-- Names that are assigned only get lines, and nothing else changes. -/
theorem declareAssigned_eq (c : Context) :
    c.declareAssigned.globals = ((c.assigned.filter fun name => !c.declared.contains name).map
        integerLine).foldl addNew c.globals ∧
      c.declareAssigned.includes = c.includes ∧ c.declareAssigned.functions = c.functions := by
  rw [Context.declareAssigned]
  generalize c.assigned.filter _ = names
  induction names generalizing c with
  | nil => exact ⟨rfl, rfl, rfl⟩
  | cons name names ih => exact ih (c.addVariable (integerLine name))

/-- What declaring the names that are assigned only adds. -/
theorem Gathered.declareAssigned {c : Context} {lines : List String} {bs : List Block}
    (h : Gathered c lines bs) (hnew : ∀ name ∈ undeclared bs, integerLine name ∉ lines) :
    c.declareAssigned.globals = lines.eraseDups ++ (undeclared bs).map integerLine ∧
      c.declareAssigned.includes = c.includes := by
  have hnames : (c.assigned.filter fun name => !c.declared.contains name) = undeclared bs := by
    rw [h.assigned, h.declared, undeclared]
    refine List.filter_congr fun name _ => ?_
    rw [Bool.eq_iff_iff]
    simp
  obtain ⟨hglobals, hincludes, -⟩ := declareAssigned_eq c
  refine ⟨hglobals.trans ?_, hincludes⟩
  rw [hnames, h.globals, foldl_addNew_of_nodup (nodup_lines hnew)]

/-! ## Sketches -/

/-- The headers and the global variables of a sketch are those that follow from the blocks that are
reached. -/
structure Accounts (style : Style) (roots : List Block) (g : Generated) : Prop where
  nodup : g.globals.Nodup
  globals : g.globals =
    (declarationLines style roots).eraseDups ++ (undeclared (reached roots)).map integerLine
  includes : g.includes = if (reached roots).any Block.needsMath then [mathHeader] else []

/-- Without the bodies of its functions there is no sketch. -/
theorem generate_of_error {style : Style} {roots : List Block} {fault : Fault}
    (h : bodies style roots {} = .error fault) : generate style roots = .error (.shape fault) := by
  unfold generate
  rw [StateT.run, h]
  rfl

theorem generate_accounts {style : Style} {roots : List Block} {g : Generated}
    (h : generate style roots = .ok g) : Accounts style roots g := by
  have hruns := runs_bodies style roots
  have hgood : ¬ ∃ c ∈ reached roots, c.IsMalformed := by
    intro hbad
    obtain ⟨fault, hfault, -⟩ := hruns.error hbad {}
    rw [generate_of_error hfault] at h
    cases h
  obtain ⟨result, hrun⟩ := hruns.ok hgood
  obtain ⟨g', hg', hholds, -⟩ | ⟨-, o, ho⟩ := generate_of_bodies (hrun {})
  · obtain rfl : g' = g := Except.ok.inj (hg'.symm.trans h)
    -- A line for an assigned name is new, so adding these lines one by one is appending them.
    have hnew : ∀ name ∈ undeclared (reached roots),
        integerLine name ∉ declarationLines style roots := fun name hname =>
      integerLine_not_mem hname
    have hgathered := gathered_gather style roots
    obtain ⟨hglobals, hincludes⟩ := hgathered.declareAssigned hnew
    have hlines := hholds.globals.trans hglobals
    exact ⟨hlines ▸ nodup_lines hnew, hlines,
      (hholds.includes.trans hincludes).trans hgathered.includes⟩
  · rw [ho] at h
    cases h

/-- A choice that assigns a declared name in its branch, and an undeclared one in its last arm. -/
def stepping : Workspace where
  loop := [.mk "controls_if" [] [
    .value "IF0" (.mk "logic_compare" [("OP", .text "LT")] [
      .value "A" (.ofTexts "variables_get" [("VAR", "step")] []),
      .value "B" (.mk "arduino_pow" [] [])]),
    .chain "DO0" [.ofTexts "variables_set" [("VAR", "limit")] []],
    .chain "ELSE" [
      .mk "variables_set" [("VAR", .text "step")] [
        .value "VALUE" (.ofTexts "variables_get" [("VAR", "limit")] [])]]]]
  globals := [.ofTexts "variables_declare" [("VAR", "limit"), ("TYPE", "float")] []]

theorem generate_accounts_stepping : ∃ g, generate {} stepping.roots = .ok g ∧
    Accounts {} stepping.roots g ∧ g.globals = ["float limit;", "int step;"] ∧
      g.includes = ["<math.h>"] := by
  have hrun : (generate {} stepping.roots).map (fun g => (g.globals, g.includes)) =
      .ok (["float limit;", "int step;"], ["<math.h>"]) := by
    decide +kernel
  cases hg : generate {} stepping.roots with
  | error fault =>
      rw [hg] at hrun
      cases hrun
  | ok g =>
      rw [hg] at hrun
      obtain ⟨hglobals, hincludes⟩ := Prod.mk.inj (Except.ok.inj hrun)
      exact ⟨g, rfl, generate_accounts hg, hglobals, hincludes⟩

end Code

end InoBlocks
