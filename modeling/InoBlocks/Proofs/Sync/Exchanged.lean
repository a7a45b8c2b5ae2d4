import InoBlocks.Proofs.Skim.ReadableBlocks
import InoBlocks.Proofs.Sync.Regeneration

/-!
# Conversions that cross the exchange form

The exchange text that a successful conversion gives stands for its blocks: going on from the text
is going on from the blocks, as long as the fields of the blocks hold only characters that markup
carries.  A quoted text of the sketch may hold others.
-/

namespace InoBlocks

open Code Exchange

namespace Sync

/-- The sketch of exchange text is that of the workspace it was written for. -/
theorem exchangeToCode_encode {w : Workspace} (hw : w.IsKept) (o : Options) (now : String) :
    exchangeToCode o now (encode w) = toCode o now w := by
  have hname : ((workspaceElement w).settled 0).name = "xml" := name_settled 0 _
  unfold exchangeToCode
  rw [decode, encode, element?_toText (isSound_workspaceElement hw)]
  simp only [hname, takeUp_workspaceElement hw, bind, Except.bind]
  rfl

theorem eq_of_skimmed? {o : Options} {code : String} {w found : Workspace}
    (h : skimmed? o code w = some found) : found = Skim.workspace code := by
  unfold skimmed? at h
  split at h
  · dsimp only at h
    split at h <;> cases h
    rfl
  · cases h

/-- A conversion that succeeds gives filled blocks with names, and the exchange text of them. -/
theorem toBlocks_eq_ok {o : Options} {code : String} {r : ToBlocks} (h : toBlocks o code = .ok r)
    (hsuccess : r.success = true) :
    r.exchange = encode r.workspace ∧ r.workspace.IsNamed ∧ IsFilledWorkspace r.workspace := by
  rw [toBlocks] at h
  split at h
  · cases h
    exact ⟨rfl, ⟨by simp [emptySketch], by simp [emptySketch], by simp [emptySketch]⟩,
      ⟨by simp [emptySketch], by simp [emptySketch], by simp [emptySketch]⟩⟩
  · obtain ⟨c, hc, hfilled⟩ := Blocks.converts_ofProgram
      fun n (hn : n ∈ (readSketch o code).program.body) => Grammar.isTopLevel_of_mem_body hn
    have hnamed := Blocks.gets_ofProgram _ c hc
    dsimp only at h
    rw [hc] at h
    dsimp only [bind, Except.bind] at h
    split at h <;> cases h
    · cases hsuccess
    · refine ⟨rfl, ?_⟩
      dsimp only
      -- The blocks are those of the program; where there are none, they may be skimmed.
      cases hskimmed : skimmed? o code c.workspace with
      | none => exact ⟨hnamed, hfilled⟩
      | some w =>
          obtain rfl := eq_of_skimmed? hskimmed
          exact ⟨Skim.isNamed_workspace code, Skim.isFilledWorkspace_workspace code⟩

/-- Blocks that a conversion gives have a sketch, unless it is to be checked and holds a number
with too many digits. -/
theorem toCode_of_isFilled {w : Workspace} (h : IsFilledWorkspace w) (o : Options) (now : String) :
    (∃ t, toCode o now w = .ok t ∧ t.success = true) ∨
      o.check = true ∧ ∃ e, toCode o now w = .error e := by
  rcases generate_of_isFilled h (o.style now) with ⟨g, hg, -⟩ | ⟨hcheck, e, he⟩
  · refine Or.inl ⟨_, by rw [toCode, hg]; rfl, rfl⟩
  · exact Or.inr ⟨hcheck, e, by rw [toCode, he]; rfl⟩

/-- The exchange text of a conversion that succeeds gives the sketch that its blocks give, if all
characters in the fields of the blocks are carried. -/
theorem exchangeToCode_of_toBlocks {o : Options} {code : String} {r : ToBlocks}
    (h : toBlocks o code = .ok r) (hsuccess : r.success = true)
    (hcarried : ∀ b ∈ r.workspace.walk, ∀ f ∈ b.fields, Carried f.2.toText.toList)
    (o' : Options) (now : String) :
    exchangeToCode o' now r.exchange = toCode o' now r.workspace ∧
      ((∃ t, toCode o' now r.workspace = .ok t ∧ t.success = true) ∨
        o'.check = true ∧ ∃ e, toCode o' now r.workspace = .error e) := by
  obtain ⟨hexchange, hnamed, hfilled⟩ := toBlocks_eq_ok h hsuccess
  rw [hexchange]
  exact ⟨exchangeToCode_encode (hnamed.isKept hfilled hcarried) o' now,
    toCode_of_isFilled hfilled o' now⟩

def printing (text : String) : String :=
  "void loop() \x7b\n  Serial.print(\"" ++ text ++ "\");\n\x7d\n"

/-- Marks of markup and a tab come back. -/
theorem exchangeToCode_of_toBlocks_marks :
    ∃ r, toBlocks plainOptions (printing "a < b\t& c") = .ok r ∧ r.success = true ∧
      (∀ b ∈ r.workspace.walk, ∀ f ∈ b.fields, Carried f.2.toText.toList) ∧
      exchangeToCode plainOptions "" r.exchange = toCode plainOptions "" r.workspace ∧
      ∃ t, toCode plainOptions "" r.workspace = .ok t ∧ t.success = true := by
  have hcheck : (toBlocks plainOptions (printing "a < b\t& c")).toOption.any (fun r => r.success &&
      decide (∀ b ∈ r.workspace.walk, ∀ f ∈ b.fields, Carried f.2.toText.toList)) = true := by
    decide +kernel
  cases hr : toBlocks plainOptions (printing "a < b\t& c") with
  | error fault =>
      rw [hr] at hcheck
      cases hcheck
  | ok r =>
      rw [hr] at hcheck
      obtain ⟨hsuccess, hcarried⟩ := Bool.and_eq_true_iff.mp hcheck
      have hcarried := of_decide_eq_true hcarried
      obtain ⟨hsame, hcode⟩ := exchangeToCode_of_toBlocks hr hsuccess hcarried plainOptions ""
      exact ⟨r, rfl, hsuccess, hcarried, hsame, hcode.resolve_right fun h => nomatch h.1⟩

theorem exchangeToCode_of_malformed {w : Workspace}
    (h : documentPieces? ((workspaceElement w).write 0) = none) (o : Options) (now : String) :
    exchangeToCode o now (encode w) = .ok { error := some DecodeFault.malformed.toFault.text } := by
  unfold exchangeToCode
  rw [decode, encode, element?, Element.toText, String.toList_ofList, h]
  rfl

/-- A control character between quotes makes exchange text that cannot be read. -/
theorem toBlocks_unreadable :
    ∃ r t f, toBlocks plainOptions (printing "\x01") = .ok r ∧ r.success = true ∧
      toCode plainOptions "" r.workspace = .ok t ∧ t.success = true ∧
      exchangeToCode plainOptions "" r.exchange = .ok f ∧ f.success = false := by
  have hcheck : (toBlocks plainOptions (printing "\x01")).toOption.any (fun r => r.success &&
      (toCode plainOptions "" r.workspace).toOption.any ToCode.success &&
      (documentPieces? ((workspaceElement r.workspace).write 0)).isNone) = true := by
    decide +kernel
  cases hr : toBlocks plainOptions (printing "\x01") with
  | error fault =>
      rw [hr] at hcheck
      cases hcheck
  | ok r =>
      rw [hr] at hcheck
      obtain ⟨hcode, hpieces⟩ := Bool.and_eq_true_iff.mp hcheck
      obtain ⟨hsuccess, hcode⟩ := Bool.and_eq_true_iff.mp hcode
      have hmalformed := exchangeToCode_of_malformed (Option.isNone_iff_eq_none.mp hpieces)
        plainOptions ""
      rw [← (toBlocks_eq_ok hr hsuccess).1] at hmalformed
      cases ht : toCode plainOptions "" r.workspace with
      | error e =>
          rw [ht] at hcode
          cases hcode
      | ok t =>
          rw [ht] at hcode
          exact ⟨r, t, _, rfl, hsuccess, ht, hcode, hmalformed, rfl⟩

end Sync

end InoBlocks
