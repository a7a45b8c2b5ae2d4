import InoBlocks.Proofs.Sketch.AlikeSketch
import InoBlocks.Proofs.Sketch.Same
import InoBlocks.Proofs.Token.Respacing

/-!
# Layout and comments

What a sketch is read as depends on its words alone: neither the white space between them nor the
comments change its tree, its outline, or what is said about it.  And its words can be written down
with single blanks between them, without any other layout.
-/

namespace InoBlocks

/-- Two readings of a sketch agree in everything but places. -/
structure Parsed.Same (x y : Parsed) : Prop where
  program : x.program.same y.program = true
  outline : ∀ indent, x.program.outline indent = y.program.outline indent
  outlineFault : x.program.toNode.outlineFault? = y.program.toNode.outlineFault?
  diagnostics : x.diagnostics.map Diagnostic.said = y.diagnostics.map Diagnostic.said
  unreadable : x.unreadable = y.unreadable

namespace Grammar

open Read

theorem sameWords_prepare {ts ts' : List Token} (file file' : String)
    (h : SameWords (ts.filter Token.isSignificant) (ts'.filter Token.isSignificant)) :
    SameWords (prepare ts file) (prepare ts' file') := by
  have hlast : (ts.filter Token.isSignificant).getLast?.map Token.word =
      (ts'.filter Token.isSignificant).getLast?.map Token.word := by
    rw [← List.getLast?_map, ← List.getLast?_map, h]
  unfold prepare
  dsimp only
  generalize ts.filter Token.isSignificant = us at h hlast
  generalize ts'.filter Token.isSignificant = us' at h hlast
  cases hus : us.getLast? with
  | none =>
      rw [hus] at hlast
      rw [Option.map_eq_none_iff.mp hlast.symm]
      rfl
  | some last =>
      rw [hus] at hlast
      obtain ⟨last', hus', hword⟩ := Option.map_eq_some_iff.mp hlast.symm
      rw [hus']
      dsimp only
      rw [SameWord.kind hword]
      split
      · exact h
      · simpa [SameWords, Token.word] using h

theorem sameFindings_closing {s s' : ReadState} (hs : s.Like s') {stop stop' : Option Stop}
    (hstop : Option.Rel Stop.Like stop stop') :
    (closingFindings s stop).Like (closingFindings s' stop') := by
  cases hstop with
  | none => exact hs.findings
  | some hstop =>
      cases hstop with
      | misread _ => exact hs.findings
      | unreadable _ => exact hs.findings
      | exhausted =>
          simp only [closingFindings, hs.recoveries]
          exact hs.findings.record _ _ _ _

theorem parseTokens_same {ts ts' : List Token} (file file' : String) (limit : Nat)
    (h : SameWords (ts.filter Token.isSignificant) (ts'.filter Token.isSignificant)) :
    (parseTokens ts file limit).Same (parseTokens ts' file' limit) := by
  have hwords := sameWords_prepare file file' h
  have hstart : ReadState.Like ⟨prepare ts file, 0, .empty "parser"⟩
      ⟨prepare ts' file', 0, .empty "parser"⟩ := ⟨hwords, rfl, rfl⟩
  have hrun := sameReading_declarations limit (prepare ts file).length hstart
  unfold parseTokens
  dsimp only
  rw [← hwords.length]
  generalize declarations limit _ ⟨prepare ts file, _, _⟩ = x at hrun
  generalize declarations limit _ ⟨prepare ts' file', _, _⟩ = y at hrun
  obtain ⟨body, s, stop⟩ := x
  obtain ⟨body', s', stop'⟩ := y
  obtain ⟨hbody, hs, hstop⟩ := hrun
  have hprogram : (Program.toNode ⟨⟨file, 1, 1⟩, body⟩).forget =
      (Program.toNode ⟨⟨file', 1, 1⟩, body'⟩).forget := by
    simpa [Program.toNode, Node.forget, Node.AllLike] using hbody.symm
  constructor
  · exact (Node.sameList_iff body body').mpr hbody.symm
  · intro indent
    unfold Program.outline Node.outline
    rw [← Node.outlineAt_forget, hprogram, Node.outlineAt_forget]
  · dsimp only
    rw [← Node.outlineFault?_forget, hprogram, Node.outlineFault?_forget]
  · exact sameFindings_closing hs hstop
  · cases hstop with
    | none => rfl
    | some hstop => cases hstop <;> rfl

/-- Layout and comments do not matter: two sources with the same words are read as the same sketch,
with the same outlines and the same findings, for every recovery limit.  And the text made of the
words of a source has its words. -/
theorem layout_irrelevant (source source' file file' : String) :
    (SameWords (Token.significant source file) (Token.significant source' file') →
      ∀ limit, (parse source file limit).Same (parse source' file' limit)) ∧
    SameWords (Token.significant (Token.respaced (Token.significant source file)) file)
      (Token.significant source file) := by
  constructor
  · intro h limit
    rw [Token.significant_eq_filter, Token.significant_eq_filter] at h
    exact parseTokens_same file file' limit h
  · rw [SameWords, Word.significant_word, Word.significant_word, Token.words_respaced]

theorem layout_irrelevant_spread :
    SameWords (Token.significant "void loop()\x7ba=;b=2;\x7d" "<sketch>")
        (Token.significant "void loop() \x7b\n  a = /* what? */ ;\n\n  b = 2; // two\n\x7d\n" "<sketch>") ∧
      (parse "void loop()\x7ba=;b=2;\x7d" "<sketch>" 100).Same
        (parse "void loop() \x7b\n  a = /* what? */ ;\n\n  b = 2; // two\n\x7d\n" "<sketch>" 100) := by
  have hwords : SameWords (Token.significant "void loop()\x7ba=;b=2;\x7d" "<sketch>")
      (Token.significant "void loop() \x7b\n  a = /* what? */ ;\n\n  b = 2; // two\n\x7d\n"
        "<sketch>") := by
    unfold SameWords
    decide +kernel
  exact ⟨hwords, (layout_irrelevant _ _ _ _).1 hwords 100⟩

end Grammar

end InoBlocks
