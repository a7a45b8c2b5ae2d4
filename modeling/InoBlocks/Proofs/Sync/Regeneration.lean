import InoBlocks.Proofs.Code.CanonicalRoundTrip
import InoBlocks.Sync.Convert

/-!
# Sketches that come back a second time

A sketch whose blocks are canonical is written anew the first time that it goes there and back, and
comes back as it is from then on.  Without that, what is written may not be readable.
-/

namespace InoBlocks

open Code

namespace Sync

theorem isIndent_of_checked {o : Options} (h : o.checked = .ok o) (now : String) :
    IsIndent (o.style now).indent := by
  intro c hc
  unfold Options.checked at h
  split at h
  · cases h
  · rename_i hindent
    simp only [Options.isIndent, Bool.not_eq_true', Bool.not_eq_false, Bool.and_eq_true,
      List.all_eq_true, Bool.or_eq_true, beq_iff_eq] at hindent
    exact hindent.2 c hc

/-- Options that make sense let reading recover from an error. -/
theorem one_le_recoveryLimit_of_checked {o : Options} (h : o.checked = .ok o) :
    1 ≤ o.recoveryLimit.toNat := by
  unfold Options.checked at h
  split at h
  · cases h
  · split at h
    · cases h
    · omega

/-- There and back is reading, conversion and generation. -/
theorem roundTrip_eq_ok {o : Options} {now source : String} {c : Blocks.Converted} {g : Generated}
    (hread : Blocks.ofProgram (readSketch o source).program = .ok c)
    (hgenerate : c.workspace.generate (o.style now) = .ok g) :
    roundTrip o now source = .ok g.code := by
  rw [roundTrip, hread]
  change ((c.workspace.generate (o.style now)).mapError _ >>= _) = _
  rw [hgenerate]
  rfl

/-- A sketch whose blocks are canonical goes there and back, and what comes back does not change
any more, unless reading it reports a limit of nesting. -/
theorem roundTrip_settles {o : Options} (ho : o.checked = .ok o) {now : String}
    (hnow : '\n' ∉ now.toList) {source : String} {c : Blocks.Converted}
    (hread : Blocks.ofProgram (readSketch o source).program = .ok c)
    (hcanonical : c.workspace.IsCanonical) :
    ∃ once, roundTrip o now source = .ok once ∧
      ((∃ d ∈ (readSketch o once).diagnostics, d.IsNesting) ∨
        roundTrip o now once = .ok once) := by
  have htime : ∀ time ∈ (o.style now).time, '\n' ∉ time.toList := by
    intro time htime
    unfold Options.style at htime
    split at htime
    · cases htime
      exact hnow
    · cases htime
  obtain ⟨g, hg, hassembled⟩ :=
    hcanonical.exists_assembled (isIndent_of_checked ho now) htime
  refine ⟨g.code, roundTrip_eq_ok hread hg, ?_⟩
  have hback := hassembled.readsBack hcanonical.distinct htime o.file
    (one_le_recoveryLimit_of_checked ho)
  refine hback.imp_right fun ⟨_, _, hconverted⟩ => ?_
  exact roundTrip_eq_ok hconverted hg

def plainOptions : Options where
  header := false
  check := false

def lampCode (indent : String) : String :=
  "boolean lit;\n\nvoid setup() \x7b\n" ++ indent ++ "// setup code\n\x7d\n\nvoid loop() \x7b\n" ++
    indent ++ "while (!lit) \x7b\n" ++ indent ++ indent ++ "lit = true;\n" ++ indent ++ indent ++
    "delay(0.5);\n" ++ indent ++ "\x7d\n\x7d\n"

theorem ofProgram_lampCode :
    Blocks.ofProgram (Grammar.parse (lampCode "\t") "<sketch>" 100).program =
      .ok { workspace := Workspace.lampWorkspace } := by
  let style : Style := { indent := "\t", header := false }
  have hcode : (Workspace.lampWorkspace.generate style).toOption.map Generated.code =
      some (lampCode "\t") := by
    decide +kernel
  have hreports : (Grammar.parse (lampCode "\t") "<sketch>" 100).diagnostics.length = 0 := by
    decide +kernel
  obtain ⟨g, hg, hassembled⟩ := Workspace.lampWorkspace_isCanonical.exists_assembled
    (show IsIndent style.indent by unfold IsIndent; decide) nofun
  rw [hg] at hcode
  rw [show g.code = lampCode "\t" from Option.some.inj hcode] at hassembled
  have hback := hassembled.readsBack Workspace.lampWorkspace_isCanonical.distinct nofun "<sketch>"
    (show 1 ≤ 100 by decide)
  rcases hback with ⟨d, hd, -⟩ | ⟨-, -, hconverted⟩
  · rw [List.length_eq_zero_iff.mp hreports] at hd
    cases hd
  · exact hconverted

/-- Tabs become blanks, which then stay. -/
theorem roundTrip_settles_lamp :
    roundTrip plainOptions "" (lampCode "\t") = .ok (lampCode "  ") ∧
      roundTrip plainOptions "" (lampCode "  ") = .ok (lampCode "  ") := by
  have honce : (roundTrip plainOptions "" (lampCode "\t")).toOption = some (lampCode "  ") := by
    decide +kernel
  have hreports : (Grammar.parse (lampCode "  ") "<sketch>" 100).diagnostics.length = 0 := by
    decide +kernel
  obtain ⟨once, hrun, hsettled⟩ := roundTrip_settles
    (show plainOptions.checked = .ok plainOptions by decide)
    (show '\n' ∉ "".toList by decide) ofProgram_lampCode Workspace.lampWorkspace_isCanonical
  rw [hrun] at honce
  obtain rfl : once = lampCode "  " := Option.some.inj honce
  refine ⟨hrun, hsettled.resolve_left ?_⟩
  rintro ⟨d, hd, -⟩
  change d ∈ (Grammar.parse (lampCode "  ") "<sketch>" 100).diagnostics at hd
  rw [List.length_eq_zero_iff.mp hreports] at hd
  cases hd

/-- A small number with a zero in front is written with an exponent, which is not read as a part of
the number, so that its statement is lost. -/
theorem roundTrip_loses_exponent : ∃ once twice,
    roundTrip plainOptions "" "void loop() \x7b\n  x = 00.00001;\n\x7d\n" = .ok once ∧
      roundTrip plainOptions "" once = .ok twice ∧ twice ≠ once := by
  let front := "int x;\n\nvoid setup() \x7b\n  // setup code\n\x7d\n\nvoid loop() \x7b\n"
  refine ⟨front ++ "  x = 1e-05;\n\x7d\n", front ++ "  // loop code\n\x7d\n", ?_, ?_, ?_⟩
  all_goals decide +kernel

end Sync

end InoBlocks
