import InoBlocks.Proofs.Exchange.RoundTrip

/-!
# Room for workspaces

Writing a workspace takes a call for each level of its elements, and each statement of a chain
stands two levels deeper than the one before it.  Reading takes no more, so a workspace that there
is room to write comes back in the same room.  No room is enough for all workspaces.
-/

namespace InoBlocks

namespace Exchange

/-! ## Room for reading -/

/-- What is read in an element of some height takes no more calls than it has levels. -/
structure Reading.IsWithin (r : Reading) (height : Nat) : Prop where
  block : r.blockDescent.calls ≤ height
  chain : r.chainDescent.calls ≤ height
  heldBlock : r.heldBlockDescent.calls < height
  heldChain : r.heldChainDescent.calls < height

namespace Reading

theorem IsWithin.mono {r : Reading} {m n : Nat} (h : r.IsWithin m) (hle : m ≤ n) :
    r.IsWithin n where
  block := Nat.le_trans h.block hle
  chain := Nat.le_trans h.chain hle
  heldBlock := Nat.lt_of_lt_of_le h.heldBlock hle
  heldChain := Nat.lt_of_lt_of_le h.heldChain hle

theorem mem_of_held? {children : List Reading} {r : Reading} (h : held? children = some r) :
    r ∈ children := by
  unfold held? at h
  cases hblock : children.find? (·.name == "block") with
  | some b =>
      rw [hblock] at h
      injection h with h
      exact h ▸ List.mem_of_find?_eq_some hblock
  | none =>
      rw [hblock] at h
      exact List.mem_of_find?_eq_some h

theorem childDescent_calls_le {child : Reading} {n : Nat} (h : child.IsWithin n) :
    (childDescent child).calls ≤ n := by
  have hblock := h.heldBlock
  have hchain := h.heldChain
  unfold childDescent
  split
  · split
    · exact Nat.zero_le n
    · split
      · omega
      · split
        · rw [Descent.beneath_calls]
          omega
        · exact Nat.zero_le n
  · exact Nat.zero_le n

theorem isWithin_ofParts (name : String) (attributes : List (String × String)) (text : String)
    {children : List Reading} {n : Nat} (h : ∀ r ∈ children, r.IsWithin n) :
    (ofParts name attributes text children).IsWithin (n + 1) := by
  have hblock : ∀ type? : Option String, (descentOf type? children).calls ≤ n + 1 := by
    intro type?
    have hparts : (Descent.inOrder (children.map childDescent)).calls ≤ n := by
      refine Descent.inOrder_calls_le fun d hd => ?_
      obtain ⟨r, hr, rfl⟩ := List.mem_map.mp hd
      exact childDescent_calls_le (h r hr)
    unfold descentOf
    split
    · exact Nat.le_add_left 1 n
    · rw [Descent.beneath_calls]
      omega
  have hnext : (((children.find? (·.name == "next")).map Reading.heldChainDescent).getD
      Descent.flat).calls ≤ n + 1 := by
    cases hfind : children.find? (·.name == "next") with
    | none => exact Nat.zero_le _
    | some r => exact Nat.le_of_lt (Nat.lt_succ_of_lt (h r (List.mem_of_find?_eq_some hfind)).heldChain)
  constructor
  · exact hblock _
  · exact Descent.andThen_calls_le (hblock _) hnext
  · simp only [ofParts]
    cases hheld : held? children with
    | none => exact Nat.succ_pos n
    | some r => exact Nat.lt_succ_of_le (h r (mem_of_held? hheld)).block
  · simp only [ofParts]
    cases hheld : held? children with
    | none => exact Nat.succ_pos n
    | some r => exact Nat.lt_succ_of_le (h r (mem_of_held? hheld)).chain

end Reading

mutual

theorem isWithin_reading (e : Element) : (reading e).IsWithin e.height := by
  match e with
  | .mk name attributes text children =>
      rw [reading, Element.height]
      exact Reading.isWithin_ofParts name attributes text (isWithin_readings children)

theorem isWithin_readings (es : List Element) :
    ∀ r ∈ readings es, r.IsWithin (Element.heightAll es) := by
  match es with
  | [] => simp [readings]
  | e :: es =>
      rw [readings, Element.heightAll]
      refine List.forall_mem_cons.mpr ⟨?_, fun r hr => ?_⟩
      · exact (isWithin_reading e).mono (Nat.le_max_left _ _)
      · exact (isWithin_readings es r hr).mono (Nat.le_max_right _ _)

end

theorem regionDescent_calls_le (input : String) (e : Element) :
    (regionDescent input e).calls ≤ e.height := by
  obtain ⟨name, attributes, text, children⟩ := e
  rw [regionDescent, Element.height]
  split
  · exact Nat.zero_le _
  · rename_i r hr
    have hmem : r ∈ readings children := (List.mem_filter.mp (List.mem_of_find?_eq_some hr)).1
    have hchain := (isWithin_readings children r hmem).heldChain
    rw [Descent.beneath_calls]
    omega

theorem topDescents_calls_le (setup loop : Bool) (es : List Element) :
    ∀ d ∈ topDescents setup loop es, d.calls ≤ Element.heightAll es + 1 := by
  induction es generalizing setup loop with
  | nil => simp [topDescents]
  | cons e es ih =>
      have hregion := fun input => regionDescent_calls_le input e
      have hchain := (isWithin_reading e).chain
      have hmore : ∀ setup loop, ∀ d ∈ topDescents setup loop es,
          d.calls ≤ Element.heightAll (e :: es) + 1 := by
        intro setup loop d hd
        have hle := ih setup loop d hd
        rw [Element.heightAll]
        omega
      have hfirst : ∀ d : Descent, d.calls ≤ e.height + 1 → ∀ setup loop,
          ∀ c ∈ d :: topDescents setup loop es, c.calls ≤ Element.heightAll (e :: es) + 1 := by
        intro d hd setup loop
        refine List.forall_mem_cons.mpr ⟨?_, hmore setup loop⟩
        rw [Element.heightAll]
        omega
      unfold topDescents
      split
      · exact hmore _ _
      · split
        · split
          · exact hmore _ _
          · exact hfirst _ (Nat.le_succ_of_le (hregion _)) _ _
        · split
          · split
            · exact hmore _ _
            · exact hfirst _ (Nat.le_succ_of_le (hregion _)) _ _
          · refine hfirst _ ?_ _ _
            rw [Descent.beneath_calls]
            omega

/-- Reading takes no more calls than there are levels. -/
theorem descent_calls_le {document : String} {root : Element} (h : element? document = some root) :
    (descent document).calls ≤ root.height := by
  obtain ⟨name, attributes, text, children⟩ := root
  rw [descent, h]
  dsimp only
  split
  · exact Nat.zero_le _
  · rw [Element.height]
    exact Descent.inOrder_calls_le (topDescents_calls_le false false children)

mutual

theorem height_settled (level : Nat) (e : Element) : (e.settled level).height = e.height := by
  match e with
  | .mk name attributes text children =>
      rw [Element.settled, Element.height, Element.height, heightAll_settledAll]

theorem heightAll_settledAll (level : Nat) (es : List Element) :
    Element.heightAll (Element.settledAll level es) = Element.heightAll es := by
  match es with
  | [] => rfl
  | e :: es =>
      rw [Element.settledAll, Element.heightAll, Element.heightAll, height_settled,
        heightAll_settledAll]

end

/-! ## There and back -/

/-- A workspace comes back from its exchange text exactly if there is room to write it. -/
theorem decodeWithin_encodeWithin (room : Nat) {w : Workspace} (hw : w.IsKept) :
    (encodeWithin room w >>= decodeWithin room) =
      if calls w ≤ room then .ok w else .error .bottomless := by
  split
  · rename_i hroom
    have hreading : (descent (encode w)).calls ≤ room := by
      have hle := descent_calls_le (element?_toText (isSound_workspaceElement hw))
      rw [height_settled] at hle
      exact Nat.le_trans hle hroom
    have hencode : encodeWithin (ε := DecodeFault) room w = .ok (encode w) := Room.within_ok hroom rfl
    have hdecode : decodeWithin room (encode w) = .ok w := by
      rw [decodeWithin, Room.within_of_le hreading, decode_encode hw]
      rfl
    simp only [hencode, bind, Except.bind, hdecode]
  · rename_i hroom
    have hencode : encodeWithin (ε := DecodeFault) room w = .error .bottomless :=
      Room.within_of_lt (Nat.lt_of_not_le hroom)
    rw [hencode]
    rfl

/-- A choice with two conditions, text full of marks, an empty chain and a declaration. -/
theorem decodeWithin_marks :
    let condition : Input → Block := fun i => .mk "logic_boolean" [("BOOL", .text "")] [i]
    let w : Workspace :=
      { setup := [.mk "controls_if" []
          [.value "IF0" (condition (.chain "A" [])), .chain "DO0" [.mk "x" [] [], .mk "y" [] []],
            .value "IF1" (condition (.chain "]]>" [])), .chain "ELSE" []]]
        loop := []
        globals := [.mk "text" [("TEXT", .text " <b>\t& \"c\" ]]> \n "), ("X", .text "  ")] []] }
    w.IsKept ∧ calls w = 8 ∧ (encodeWithin 8 w >>= decodeWithin 8) = .ok w := by
  intro condition w
  have hw : w.IsKept := ⟨by decide, by decide, by decide, by decide⟩
  have hcalls : calls w = 8 := by decide
  refine ⟨hw, hcalls, ?_⟩
  rw [decodeWithin_encodeWithin 8 hw, if_pos (Nat.le_of_eq hcalls)]

/-! ## No room for all -/

theorem height_lt_of_mem_children {e c : Element} (h : c ∈ e.children) : c.height < e.height := by
  obtain ⟨name, attributes, text, children⟩ := e
  rw [Element.height, Nat.lt_succ_iff]
  have hall : ∀ es : List Element, c ∈ es → c.height ≤ Element.heightAll es := by
    intro es hc
    induction es with
    | nil => cases hc
    | cons e es ih =>
        rw [Element.heightAll]
        rcases List.mem_cons.mp hc with rfl | hc
        · exact Nat.le_max_left _ _
        · exact Nat.le_trans (ih hc) (Nat.le_max_right _ _)
  exact hall children h

theorem eq_nil_of_chainElement {bs : List Block} (h : chainElement bs = none) : bs = [] := by
  cases bs with
  | nil => rfl
  | cons b bs => simp [chainElement] at h

/-- Each statement of a chain stands two levels deeper than the one before it. -/
theorem length_le_height {bs : List Block} {e : Element} (h : chainElement bs = some e) :
    2 * bs.length ≤ e.height + 1 := by
  induction bs generalizing e with
  | nil => simp [chainElement] at h
  | cons b bs ih =>
      rw [chainElement, Option.some_inj] at h
      subst h
      cases hrest : chainElement bs with
      | none =>
          obtain rfl := eq_nil_of_chainElement hrest
          obtain ⟨type, fields, inputs⟩ := b
          rw [linked, blockElement, Element.height]
          simp
      | some n =>
          have hnext : Element.mk "next" [] "" [n] ∈ (linked (blockElement b) (some n)).children := by
            simp [linked, Element.withChild, Element.children]
          have houter := height_lt_of_mem_children hnext
          have hinner : n.height < (Element.mk "next" [] "" [n]).height :=
            height_lt_of_mem_children List.mem_cons_self
          have hle := ih hrest
          rw [List.length_cons]
          omega

theorem length_lt_calls (w : Workspace) : 2 * w.loop.length < calls w + 1 := by
  cases hchain : chainElement w.loop with
  | none =>
      rw [eq_nil_of_chainElement hchain]
      exact Nat.succ_pos _
  | some e =>
      let held : Element := .mk "statement" [("name", Workspace.loopInput)] "" [e]
      let region := regionElement Workspace.loopType Workspace.loopInput w.loop 300
      have hregion : region ∈ (workspaceElement w).children := by
        simp [workspaceElement, Element.children, region]
      have hheld : held ∈ region.children := by
        simp [region, regionElement, Element.children, held, hchain]
      have hlength := length_le_height hchain
      have hroot := height_lt_of_mem_children hregion
      have houter := height_lt_of_mem_children hheld
      have hinner : e.height < held.height := height_lt_of_mem_children List.mem_cons_self
      rw [calls]
      omega

/-- A loop that waits so many times. -/
def waiting (n : Nat) : Workspace where
  loop := List.replicate n <|
    .ofTexts "arduino_delay" [] [.value "TIME" (.ofTexts "math_number" [("NUM", "1")] [])]

/-- Whatever room there is, a loop that waits often enough cannot be written. -/
theorem encodeWithin_waiting (room : Nat) :
    (waiting (room + 1)).IsKept ∧
      (encodeWithin room (waiting (room + 1)) >>= decodeWithin room) = .error .bottomless := by
  have hkept : (waiting (room + 1)).IsKept := by
    refine ⟨trivial, areKept_iff.mpr fun b hb => ?_, trivial, by simp [waiting]⟩
    rw [List.eq_of_mem_replicate hb]
    exact (areKept_iff.mp (by decide : Block.AreKept (waiting 1).loop)) _ List.mem_cons_self
  have hcalls := length_lt_calls (waiting (room + 1))
  have hlength : (waiting (room + 1)).loop.length = room + 1 := List.length_replicate
  have hencode : encodeWithin (ε := DecodeFault) room (waiting (room + 1)) =
      .error .bottomless := Room.within_of_lt (by omega)
  refine ⟨hkept, ?_⟩
  rw [hencode]
  rfl

end Exchange

end InoBlocks
