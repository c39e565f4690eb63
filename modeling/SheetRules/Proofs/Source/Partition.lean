import Mathlib.Tactic.Common
import SheetRules.Proofs.Token.Pieces

/-!
# Scanning loses nothing

Until its report is full, scanning parts the whole source into pieces.  Each of them is a token, a
blank, a comment or something that is reported, and it stands where its span says.  The tokens and
the faults are those of the pieces, in order, and the end of file comes last.
-/

namespace SheetRules

namespace Source

open Piece

/-- The pieces are all of the source, and scanning gives their tokens and reports their faults. -/
structure IsCutInto (source : Source) (pieces : List Piece) : Prop where
  /-- In order, the pieces make up the source. -/
  text : textOf pieces = source.text.toList
  /-- Each piece is one that can be cut off where it stands. -/
  cuts : ∀ front piece back, pieces = front ++ piece :: back →
    piece.IsCut (depthAfterAll 0 front) (textOf back)
  /-- A piece that is not a line feed stands on one line, in the columns of its span. -/
  spans : ∀ r ∈ placed .start pieces, r.1.text ≠ ['\n'] → source.HasAt r.2 r.1.text
  /-- The span of a line feed begins where a line ends. -/
  lineFeeds : ∀ r ∈ placed .start pieces, r.1.text = ['\n'] → source.LineEndsAt r.2.first
  /-- The tokens are those of the pieces, and then the end of file. -/
  tokens : source.scan.tokens = (placed .start pieces).filterMap tokenAt? ++
    [⟨.endOfFile, .point (Place.start.after source.text.toList)⟩]
  /-- There is no other end of file. -/
  endOfFile : ∀ piece ∈ pieces, piece.token? ≠ some .endOfFile
  /-- The faults are those of the pieces. -/
  faults : source.scan.report.entries = (placed .start pieces).filterMap faultAt?
  /-- A token is reported as a number out of range, and all else that is reported is an unexpected
  character or a broken template. -/
  codes : ∀ piece ∈ pieces, ∀ cause, piece.cause? = some cause →
    if piece.token?.isSome then cause.code = 102 else cause.code = 101 ∨ cause.code = 103

/-- **Scanning loses nothing.**  A source whose report is not full is parted into pieces. -/
theorem exists_isCutInto (source : Source) (h : source.scan.report.total < Report.limit) :
    ∃ pieces, source.IsCutInto pieces := by
  have hroom := length_faults_lt h
  have hcuts : ∀ front piece back, source.pieces = front ++ piece :: back →
      piece.IsCut (depthAfterAll 0 front) (textOf back) ∧ piece.text ≠ [] :=
    fun front piece back => isCut_of_cutAll
  have htext : ∀ front piece back, source.pieces = front ++ piece :: back →
      source.text.toList = textOf front ++ (piece.text ++ textOf back) := by
    intro front piece back hpieces
    rw [← textOf_pieces, hpieces, textOf, List.flatMap_append, List.flatMap_cons]
    rfl
  refine ⟨source.pieces, textOf_pieces source, fun front piece back hpieces =>
    (hcuts front piece back hpieces).1, ?_, ?_, tokens_scan hroom, ?_, entries_scan hroom, ?_⟩
  · -- a piece on one line has its text at its span
    intro r hr hline
    obtain ⟨front, back, hpieces, hspan⟩ := exists_of_mem_placed hr
    obtain ⟨hcut, hne⟩ := hcuts front r.1 back hpieces
    rw [hspan]
    exact hasAt_between (htext front r.1 back hpieces) hne (hcut.lineFeed_not_mem hline)
  · -- a newline ends its line
    intro r hr hline
    obtain ⟨front, back, hpieces, hspan⟩ := exists_of_mem_placed hr
    have hsource := htext front r.1 back hpieces
    rw [hline] at hsource
    rw [hspan]
    exact lineEndsAt_after hsource
  · intro piece hpiece
    obtain ⟨front, back, hpieces⟩ := List.append_of_mem hpiece
    exact (hcuts front piece back hpieces).1.token?_ne_endOfFile
  · intro piece hpiece cause hcause
    obtain ⟨front, back, hpieces⟩ := List.append_of_mem hpiece
    exact (hcuts front piece back hpieces).1.code_of_cause? hcause

/-- A source with a comment, a line feed between parentheses, a character of two bytes, a template
that is not closed, a number that is too large, and a dollar sign at its end. -/
theorem exists_isCutInto_broken :
    let source : Source := ⟨"a", String.ofList
      ("# é\n1: a.$\x7bb\x7d = (2.5 +\n é) $\x7bc\n".toList ++ List.replicate 310 '9' ++
        "// $".toList)⟩
    source.scan.report.total = 4 ∧ ∃ pieces, source.IsCutInto pieces := by
  intro source
  have htotal : source.scan.report.total = 4 := by
    rw [scan, String.toList_ofList]
    decide +kernel
  exact ⟨htotal, exists_isCutInto source (by rw [htotal]; decide)⟩

end Source

end SheetRules
