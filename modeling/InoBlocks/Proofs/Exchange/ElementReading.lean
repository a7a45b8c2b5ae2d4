import InoBlocks.Proofs.Exchange.MarkupReading

/-!
# Elements read back

A written element is read as itself, up to the white space that stands in front of its children
and to the declaration of its namespace.
-/

namespace InoBlocks

namespace Exchange

/-! ## Opening -/

def readAttribute (a : String × String) : Attribute :=
  ⟨⟨none, a.1.toList⟩, a.2.toList⟩

/-- Attributes that a tag may have: distinct plain names, values that survive, and no namespace
that is reserved. -/
structure SoundAttributes (attributes : List (String × String)) : Prop where
  plain : ∀ a ∈ attributes, IsPlainName a.1
  carried : ∀ a ∈ attributes, Carried a.2.toList
  distinct : (attributes.map (·.1)).Nodup
  free : ∀ a ∈ attributes, a.1 = "xmlns" → isFree a.2.toList = true

/-- Attributes for which nothing is declared are read as they were written. -/
theorem attributes?_written {d : DocumentType} (hd : d.rules = []) (tag : QualifiedName)
    {attributes : List (String × String)} (h : SoundAttributes attributes) :
    d.attributes? tag (attributes.map writtenAttribute) = some (attributes.map readAttribute) := by
  rw [DocumentType.attributes?, List.mapM_map, mapM_eq_some (g := readAttribute)]
  · simp [hd]
  · intro a ha
    have hvalue : d.value? false (a.2.toList.flatMap Element.escapeAttribute) =
        some a.2.toList := by
      rw [DocumentType.value?,
        valueWithin?_escapeAttribute d d.levels fun c hc => (h.carried a ha).xmlChar hc]
      rfl
    simp [DocumentType.rule?, hd, readAttribute, writtenAttribute, hvalue]

theorem declares_readAttribute (a : String × String) :
    (readAttribute a).declares = (a.1 == "xmlns") := by
  rw [Bool.eq_iff_iff, beq_iff_eq, ← String.toList_inj]
  simp [readAttribute, Attribute.declares]

theorem foldlM_bind?_read (scope : Scope) {attributes : List (String × String)}
    (hfree : ∀ a ∈ attributes, a.1 = "xmlns" → isFree a.2.toList = true) :
    (attributes.map readAttribute).foldlM bind? scope = some scope := by
  induction attributes with
  | nil => rfl
  | cons a attributes ih =>
      obtain ⟨ha, hmore⟩ := List.forall_mem_cons.mp hfree
      have hbind : bind? scope (readAttribute a) = some scope := by
        rw [bind?, declares_readAttribute]
        by_cases hname : a.1 = "xmlns"
        · simpa [hname, readAttribute] using ha hname
        · simp [hname]
      rw [List.map_cons, List.foldlM_cons, hbind]
      exact ih hmore

theorem ownAttributes_read (attributes : List (String × String)) :
    ownAttributes (attributes.map readAttribute) =
      (attributes.filter fun a => a.1 != "xmlns").map readAttribute := by
  rw [ownAttributes, List.filter_map]
  congr 1
  refine List.filter_congr fun a _ => ?_
  rw [Function.comp_apply, declares_readAttribute]
  rfl

theorem enter?_read (scope : Scope) (name : List Char) {attributes : List (String × String)}
    (h : SoundAttributes attributes) :
    enter? scope ⟨none, name⟩ (attributes.map readAttribute) = some scope := by
  have hnames : ((attributes.map readAttribute).map (·.name)).Nodup := by
    have := h.distinct
    rw [List.map_map]
    rw [List.Nodup, List.pairwise_map] at this ⊢
    refine this.imp fun hne heq => hne ?_
    simpa [readAttribute, String.toList_inj] using heq
  have hown : ((ownAttributes (attributes.map readAttribute)).map (·.name)).Nodup :=
    hnames.sublist (List.filter_sublist.map _)
  have hbound : ((ownAttributes (attributes.map readAttribute)).map (·.name)).all
      (isBound scope) = true := by
    simp [ownAttributes_read, readAttribute, isBound]
  have hexpanded : ((ownAttributes (attributes.map readAttribute)).map (·.name)).map
      (expanded scope) = (ownAttributes (attributes.map readAttribute)).map (·.name) := by
    simp [ownAttributes_read, readAttribute, expanded]
  rw [enter?, foldlM_bind?_read scope h.free]
  simp only [Option.bind_eq_bind, Option.bind_some]
  rw [if_pos]
  · rfl
  · rw [hexpanded, hbound, decide_eq_true hnames, decide_eq_true hown]
    rfl

theorem plainAttributes_read (attributes : List (String × String)) :
    plainAttributes (attributes.map readAttribute) =
      attributes.filter fun a => a.1 != "xmlns" := by
  have hplain : ∀ as : List (String × String),
      (as.map readAttribute).filter (fun a => a.name.space.isNone) = as.map readAttribute :=
    fun as => List.filter_eq_self.mpr fun a ha => by
      obtain ⟨b, -, rfl⟩ := List.mem_map.mp ha
      rfl
  rw [plainAttributes, ownAttributes_read, hplain, List.map_map]
  refine List.map_id'' (fun a => ?_) _
  simp [readAttribute]

theorem openElement?_read (scope : Scope) (outer : List Frame) (name : String) (closed : Bool)
    {attributes : List (String × String)} (h : SoundAttributes attributes) :
    openElement? scope outer ⟨none, name.toList⟩ (attributes.map readAttribute) closed =
      some (
        let e : Element := .mk name (attributes.filter fun a => a.1 != "xmlns") "" []
        if closed then attach e outer else .inside ⟨⟨none, name.toList⟩, scope, e⟩ outer) := by
  rw [openElement?, enter?_read scope _ h, plainAttributes_read]
  simp

/-! ## Elements -/

mutual

/-- An element that is read as it is written, up to white space. -/
def Element.IsSound : Element → Prop
  | .mk name attributes text children =>
      IsPlainName name ∧ SoundAttributes attributes ∧ Carried text.toList ∧
        Element.AreSound children

def Element.AreSound : List Element → Prop
  | [] => True
  | e :: es => e.IsSound ∧ Element.AreSound es

end

mutual

/-- An element as it is read from where it has been written at a level: the indentation of its
first child is its text, and the declaration of a namespace is no attribute. -/
def Element.settled (level : Nat) : Element → Element
  | .mk name attributes text children =>
      .mk name (attributes.filter fun a => a.1 != "xmlns")
        (if children.isEmpty then text else String.ofList ('\n' :: Element.indent (level + 1)))
        (Element.settledAll (level + 1) children)

def Element.settledAll (level : Nat) : List Element → List Element
  | [] => []
  | e :: es => e.settled level :: Element.settledAll level es

end

/-- A frame with elements added, each behind a line end and its indentation. -/
def Frame.addLines (level : Nat) (f : Frame) (es : List Element) : Frame :=
  es.foldl (fun f e => (f.addText ('\n' :: Element.indent level)).addChild (e.settled level)) f

theorem Frame.addLines_children (level : Nat) (es : List Element) {tag : QualifiedName}
    {scope : Scope} {name text : String} {attributes : List (String × String)}
    {children : List Element} (hne : children ≠ []) :
    Frame.addLines level ⟨tag, scope, .mk name attributes text children⟩ es =
      ⟨tag, scope, .mk name attributes text (children ++ Element.settledAll level es)⟩ := by
  induction es generalizing children with
  | nil => simp [Frame.addLines, Element.settledAll]
  | cons e es ih =>
      obtain ⟨c, cs, rfl⟩ := List.exists_cons_of_ne_nil hne
      have hstep : Frame.addLines level ⟨tag, scope, .mk name attributes text (c :: cs)⟩ (e :: es) =
          Frame.addLines level
            ⟨tag, scope, .mk name attributes text (c :: cs ++ [e.settled level])⟩ es := rfl
      rw [hstep, ih (by simp), Element.settledAll, List.append_assoc, List.singleton_append]

theorem Frame.addLines_empty (level : Nat) (e : Element) (es : List Element) (tag : QualifiedName)
    (scope : Scope) (name : String) (attributes : List (String × String)) :
    Frame.addLines level ⟨tag, scope, .mk name attributes "" []⟩ (e :: es) =
      ⟨tag, scope, .mk name attributes (String.ofList ('\n' :: Element.indent level))
        (Element.settledAll level (e :: es))⟩ := by
  have hstep : Frame.addLines level ⟨tag, scope, .mk name attributes "" []⟩ (e :: es) =
      Frame.addLines level ⟨tag, scope, .mk name attributes
        ("" ++ String.ofList ('\n' :: Element.indent level)) [e.settled level]⟩ es := rfl
  rw [hstep, Frame.addLines_children _ _ (by simp), String.empty_append, Element.settledAll,
    List.singleton_append]

def Opens (p : Progress) (scope : Scope) (outer : List Frame) : Prop :=
  ∀ tag attributes closed,
    step? p (.opening tag attributes closed) = openElement? scope outer tag attributes closed

theorem opens_before (declared : Bool) : Opens (.before declared) outerScope [] := by
  intro tag attributes closed
  cases declared <;> rfl

theorem opens_inside (top : Frame) (outer : List Frame) :
    Opens (.inside top outer) top.scope (top :: outer) :=
  fun _ _ _ => rfl

theorem carried_indent (level : Nat) : Carried ('\n' :: Element.indent level) := by
  intro c hc
  rcases List.mem_cons.mp hc with rfl | hc
  · decide
  · rw [List.eq_of_mem_replicate hc]
    decide

section

variable {d : DocumentType} {root : Element} {rest : List Char}

theorem Leads.openingTag (hd : d.rules = []) {p : Progress} {scope : Scope} {outer : List Frame}
    (hp : Opens p scope outer) {name : String} {attributes : List (String × String)}
    (closed : Bool) (hname : IsPlainName name) (hattributes : SoundAttributes attributes)
    (h : Leads d root
      (let e : Element := .mk name (attributes.filter fun a => a.1 != "xmlns") "" []
        if closed then attach e outer else .inside ⟨⟨none, name.toList⟩, scope, e⟩ outer) rest) :
    Leads d root p ('<' :: (name.toList ++ (attributes.flatMap Element.writeAttribute ++
      (tagEnd closed ++ rest)))) := by
  refine .piece (piece?_opening closed hname
    (fun a ha => ⟨hattributes.plain a ha, hattributes.carried a ha⟩) rest) ?_
    (.opening (attributes?_written hd _ hattributes)) ?_ h
  · simp
    omega
  · rw [hp, openElement?_read scope outer name closed hattributes]

theorem Leads.closingTag (scope : Scope) (outer : List Frame) {name : String} {e : Element}
    (hname : IsPlainName name) (h : Leads d root (attach e outer) rest) :
    Leads d root (.inside ⟨⟨none, name.toList⟩, scope, e⟩ outer)
      ('<' :: '/' :: (name.toList ++ '>' :: rest)) := by
  refine .piece (piece?_closing hname rest) ?_ (.closing _) ?_ h
  · simp
    omega
  · simp [step?]

theorem Leads.indentation (level : Nat) (top : Frame) {outer : List Frame} (htag : AtTag rest)
    (h : Leads d root (.inside (top.addText ('\n' :: Element.indent level)) outer) rest) :
    Leads d root (.inside top outer) ('\n' :: Element.indent level ++ rest) := by
  refine .plain (fun c hc => ?_) (carried_indent level) (fun c hc => ?_) h
  · rcases List.mem_cons.mp hc with rfl | hc
    · decide
    · rw [List.eq_of_mem_replicate hc]
      decide
  · rw [htag c hc]
    rfl

theorem atTag_write (level : Nat) (e : Element) (rest : List Char) :
    AtTag (e.write level ++ rest) := by
  obtain ⟨name, attributes, text, children⟩ := e
  unfold Element.write
  cases children with
  | nil => by_cases htext : (text == "") = true <;> simp [htext, AtTag]
  | cons child children => simp [AtTag]

mutual

theorem Leads.element (hd : d.rules = []) {e : Element} (he : e.IsSound) (level : Nat)
    {p : Progress} {scope : Scope} {outer : List Frame} {rest : List Char}
    (hp : Opens p scope outer) (h : Leads d root (attach (e.settled level) outer) rest) :
    Leads d root p (e.write level ++ rest) := by
  match e with
  | .mk name attributes text [] =>
      obtain ⟨hname, hattributes, htext, -⟩ := he
      by_cases hempty : text = ""
      · subst hempty
        have := Leads.openingTag hd hp true hname hattributes h
        simpa [Element.write, tagEnd] using this
      · have hclose := Leads.closingTag scope outer hname h
        have hread : (Frame.mk ⟨none, name.toList⟩ scope
            (.mk name (attributes.filter fun a => a.1 != "xmlns") "" [])).addText text.toList =
            ⟨⟨none, name.toList⟩, scope, Element.settled level (.mk name attributes text [])⟩ := by
          simp [Frame.addText, Element.settled, Element.settledAll]
        have htext := Leads.escapedText htext (by simp [AtTag]) (hread ▸ hclose)
        have := Leads.openingTag hd hp false hname hattributes htext
        simpa [Element.write, tagEnd, hempty] using this
  | .mk name attributes text (child :: children) =>
      obtain ⟨hname, hattributes, -, hchildren⟩ := he
      have hclose := Leads.closingTag scope outer hname h
      have hspace := Leads.indentation level ⟨⟨none, name.toList⟩, scope,
        Element.settled level (.mk name attributes text (child :: children))⟩ (by simp [AtTag])
        hclose
      have hlines := Leads.elements hd hchildren (level + 1) ⟨⟨none, name.toList⟩, scope,
        .mk name (attributes.filter fun a => a.1 != "xmlns") "" []⟩
        (by rw [Frame.addLines_empty]; exact hspace)
      have := Leads.openingTag hd hp false hname hattributes hlines
      simpa [Element.write, tagEnd] using this

theorem Leads.elements (hd : d.rules = []) {es : List Element} (hes : Element.AreSound es)
    (level : Nat) (top : Frame) {outer : List Frame} {rest : List Char}
    (h : Leads d root (.inside (top.addLines level es) outer) rest) :
    Leads d root (.inside top outer) (Element.writeLines level es ++ rest) := by
  match es with
  | [] => exact h
  | e :: es =>
      obtain ⟨he, hmore⟩ := hes
      have hrest := Leads.elements hd hmore level ((top.addText
        ('\n' :: Element.indent level)).addChild (e.settled level)) h
      have := Leads.indentation level _ (atTag_write level e _)
        (Leads.element hd he level (opens_inside _ outer) hrest)
      simpa [Element.writeLines] using this

end

end

/-! ## Documents -/

theorem unifyLineEnds_eq_self {cs : List Char} (h : '\r' ∉ cs) : Text.unifyLineEnds cs = cs := by
  fun_induction Text.unifyLineEnds cs <;> simp_all

theorem return_not_mem_name {s : String} (h : IsPlainName s) : '\r' ∉ s.toList := by
  obtain ⟨c, cs, hs, hc, hcs⟩ := h
  rw [hs, List.mem_cons, not_or]
  refine ⟨fun h => ?_, fun h => ?_⟩
  · subst h
    exact absurd hc (by decide)
  · exact absurd (hcs _ h) (by decide)

theorem return_not_mem_attribute {a : String × String} (hname : IsPlainName a.1)
    (hvalue : Carried a.2.toList) : '\r' ∉ Element.writeAttribute a := by
  have hescaped : '\r' ∉ a.2.toList.flatMap Element.escapeAttribute := fun h => by
    obtain ⟨c, hc, hec⟩ := List.mem_flatMap.mp h
    exact (escapeAttribute_sound (hvalue.xmlChar hc) _ hec).2.2.2 rfl
  simp [Element.writeAttribute, return_not_mem_name hname] at hescaped ⊢
  exact hescaped

theorem return_not_mem_escapeText {cs : List Char} (hcs : Carried cs) :
    '\r' ∉ cs.flatMap Element.escapeText := by
  intro h
  obtain ⟨c, hc, hec⟩ := List.mem_flatMap.mp h
  rcases escapeText_cases c with hmark | ⟨hself, -⟩
  · simp only [List.mem_cons, List.not_mem_nil, or_false] at hmark
    rcases hmark with rfl | rfl | rfl <;> exact absurd hec (by decide)
  · rw [hself, List.mem_singleton] at hec
    exact hcs.ne_return hc hec.symm

mutual

theorem return_not_mem_write {e : Element} (he : e.IsSound) (level : Nat) :
    '\r' ∉ e.write level := by
  match e with
  | .mk name attributes text children =>
      obtain ⟨hname, hattributes, htext, hchildren⟩ := he
      have hfront : '\r' ∉ attributes.flatMap Element.writeAttribute := fun h => by
        obtain ⟨a, ha, hmem⟩ := List.mem_flatMap.mp h
        exact return_not_mem_attribute (hattributes.plain a ha) (hattributes.carried a ha) hmem
      have hname := return_not_mem_name hname
      unfold Element.write
      split
      · have htext := return_not_mem_escapeText htext
        split <;> simp [-List.mem_flatMap, hname, hfront, htext]
      · have hlines := return_not_mem_writeLines hchildren (level + 1)
        simp [-List.mem_flatMap, hname, hfront, hlines, Element.indent]

theorem return_not_mem_writeLines {es : List Element} (hes : Element.AreSound es) (level : Nat) :
    '\r' ∉ Element.writeLines level es := by
  match es with
  | [] => simp [Element.writeLines]
  | e :: es =>
      obtain ⟨he, hmore⟩ := hes
      simp [Element.writeLines, return_not_mem_write he level,
        return_not_mem_writeLines hmore level, Element.indent]

end

theorem body?_write {e : Element} (he : e.IsSound) (level : Nat) :
    body? (e.write level) = some (false, e.write level) := by
  obtain ⟨name, attributes, text, children⟩ := e
  obtain ⟨⟨c, cs, hs, hc, -⟩, -⟩ := he
  obtain ⟨-, -, -, -, hask⟩ := isNameStart_sound hc
  have hfront : ∃ rest, Element.write level (.mk name attributes text children) =
      '<' :: c :: rest := by
    unfold Element.write
    split <;> simp [hs]
    split <;> simp
  obtain ⟨rest, hrest⟩ := hfront
  rw [hrest]
  simp [body?, Text.after?, Text.startsWith, Ne.symm hask]

/-- A document type without entities has room for whatever is referred to. -/
theorem hasRoom_of_entities {d : DocumentType} (hd : d.entities = []) (names : List (List Char)) :
    d.hasRoom names = true := by
  have hsizes : d.sizes d.levels = [] := by
    rw [DocumentType.levels, DocumentType.sizes, hd, List.map_nil]
  have htotal : total (names.map fun n => (([] : List (List Char × Nat)).lookup n).getD 0) = 0 := by
    induction names with
    | nil => rfl
    | cons n names ih => exact ih
  rw [DocumentType.hasRoom, hsizes]
  dsimp only
  rw [htotal, decide_eq_true (Nat.zero_le _), Bool.or_true]

/-- Nothing is declared where no piece declares a document type. -/
theorem ofPieces?_plain (d : DocumentType) {pieces : List Markup}
    (h : ∀ piece ∈ pieces, ∀ ds, piece ≠ .doctype ds) :
    DocumentType.ofPieces? d pieces = some d := by
  rw [DocumentType.ofPieces?, List.findSome?_eq_none_iff.mpr]
  · rfl
  · intro piece hmem
    split
    · rename_i ds
      exact absurd rfl (h _ hmem ds)
    · rfl

theorem element?_toText {e : Element} (he : e.IsSound) :
    element? e.toText = some (e.settled 0) := by
  let d := DocumentType.bare false (e.write 0)
  have hleads : Leads d (e.settled 0) (.before false) (e.write 0 ++ []) :=
    Leads.element rfl he 0 (opens_before false) .done
  rw [List.append_nil] at hleads
  obtain ⟨pieces, expanded, hpieces, hplain, hexpand, hfold⟩ := hleads.pieces d.levels
  have hread : pieces? (e.write 0) = some pieces := hpieces _ (Nat.le_refl _)
  have hdeclared : DocumentType.ofPieces? d pieces = some d := ofPieces?_plain d hplain
  have hexpanded : d.expand? pieces = some expanded := by
    rw [DocumentType.expand?, hasRoom_of_entities rfl]
    exact hexpand
  rw [element?, Element.toText, String.toList_ofList, documentPieces?,
    unifyLineEnds_eq_self (return_not_mem_write he 0), body?_write he 0]
  simp only [Option.bind_eq_bind, Option.bind_some, hread]
  rw [hdeclared, Option.bind_some, hexpanded, Option.bind_some, hfold, Option.bind_some]

end Exchange

end InoBlocks
