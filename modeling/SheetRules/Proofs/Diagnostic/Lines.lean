import SheetRules.Proofs.Compile.Faults
import SheetRules.Proofs.Feature.Moving
import SheetRules.Proofs.Feature.ProperPaths
import SheetRules.Proofs.Source.Inside
import SheetRules.Proofs.Token.Pieces

/-!
# Diagnostics show their line

The places where a fault can stand come from the counters of the scanner, and the line that is shown
with it comes from cutting the source at its line feeds.  Both agree: scanning stands at places of
the source only, reading and merging add no others, and compiling takes its spans from what was
read, also when the fault is in the body of a macro that is used on another line.  So there is
always a line to show, and the column is on it.
-/

namespace SheetRules

open Function (IsFixedPt)

variable {source : Source}

/-! ### Scanning -/

namespace Scan

/-- The report after a piece holds what it held before, and perhaps a fault at the piece. -/
lemma mem_reportAfter {report : Report Fault} {span : Span} {piece : Piece} {fault : Fault}
    (h : fault ∈ (reportAfter report span piece).entries) :
    fault ∈ report.entries ∨ fault.span = span := by
  unfold reportAfter at h
  split at h
  · obtain h | rfl := Report.mem_entries_push h
    · exact .inl h
    · exact .inr rfl
  · exact .inl h

/-- The token of a piece has its span. -/
lemma span_of_mem_token {piece : Piece} {span : Span} {t : Token}
    (h : t ∈ (piece.token?.map fun kind => (⟨kind, span⟩ : Token)).toList) : t.span = span := by
  rw [Option.mem_toList, Option.map_eq_some_iff] at h
  obtain ⟨kind, -, rfl⟩ := h
  rfl

/-- The text goes on after the piece that is cut off. -/
lemma text_eq_append_cut {depth : Nat} {c : Char} {front rest : List Char}
    (hsource : source.text.toList = front ++ c :: rest) :
    source.text.toList =
      (front ++ (Piece.cut depth c rest).1.text) ++ (Piece.cut depth c rest).2 := by
  rw [hsource, List.append_assoc, Piece.cut_append]

/-- What one piece gives begins at places of the source. -/
lemma holds_piece {depth : Nat} {c : Char} {front rest : List Char} {report : Report Fault}
    (hsource : source.text.toList = front ++ c :: rest)
    (hreport : ∀ fault ∈ report.entries, source.Holds fault.span.first) :
    let piece := (Piece.cut depth c rest).1
    let stop := (Place.start.after front).after piece.text
    let span := Span.between (Place.start.after front) stop
    source.Holds stop ∧
      (∀ t ∈ (piece.token?.map fun kind => (⟨kind, span⟩ : Token)).toList,
        source.Holds t.span.first) ∧
      ∀ fault ∈ (reportAfter report span piece).entries, source.Holds fault.span.first := by
  intro piece stop span
  have hhere : source.Holds span.first := Source.holds_after hsource
  refine ⟨?_, fun t ht => ?_, fun fault hfault => ?_⟩
  · have hstop : stop = Place.start.after (front ++ piece.text) :=
      (Place.after_append _ _ _).symm
    rw [hstop]
    exact Source.holds_after (text_eq_append_cut hsource)
  · rw [span_of_mem_token ht]
    exact hhere
  · obtain hfault | hspan := mem_reportAfter hfault
    · exact hreport fault hfault
    · rw [hspan]
      exact hhere

/-- Wherever scanning goes on from, its tokens and its faults begin at places of the source. -/
lemma holds_scanFrom {place : Place} {depth : Nat} {report : Report Fault} {front text : List Char}
    (hsource : source.text.toList = front ++ text) (hplace : place = Place.start.after front)
    (hreport : ∀ fault ∈ report.entries, source.Holds fault.span.first) :
    (∀ t ∈ (scanFrom place depth report text).tokens, source.Holds t.span.first) ∧
      ∀ fault ∈ (scanFrom place depth report text).report.entries,
        source.Holds fault.span.first := by
  -- by induction on the pieces; `front` is the text that has been scanned
  fun_induction scanFrom place depth report text generalizing front with
  | case1 =>
    refine ⟨fun t ht => ?_, hreport⟩
    obtain rfl := List.mem_singleton.mp ht
    rw [hplace]
    exact Source.holds_after hsource
  | case2 =>
    subst hplace
    obtain ⟨hstop, htoken, hpiece⟩ := holds_piece hsource hreport
    refine ⟨fun t ht => ?_, hpiece⟩
    rcases List.mem_append.mp ht with ht | ht
    · exact htoken t ht
    · obtain rfl := List.mem_singleton.mp ht
      exact hstop
  | case3 =>
    rename_i ih
    subst hplace
    obtain ⟨-, htoken, hpiece⟩ := holds_piece hsource hreport
    obtain ⟨htokens, hfaults⟩ := ih (text_eq_append_cut hsource)
      (Place.after_append _ _ _).symm hpiece
    refine ⟨fun t ht => ?_, hfaults⟩
    rcases List.mem_append.mp ht with ht | ht
    · exact htoken t ht
    · exact htokens t ht

end Scan

/-! ### Reading -/

namespace Feature

variable {tokens : List Token}

/-- Every line of tokens that stand at places of the source gives an item or a fault that does. -/
lemma isFixedPt_of_mem_linesOf (htokens : ∀ t ∈ tokens, source.Holds t.span.first) {line : Line}
    (hline : line ∈ linesOf tokens) :
    (∀ i, line.parse = .ok i → IsFixedPt (Item.mapSpans source.settle) i) ∧
      ∀ fault, line.parse = .error fault → IsFixedPt source.settle fault.span := by
  obtain ⟨hmem, hstop⟩ := Line.mem_of_mem_split hline
  refine Line.parse_fixed source.respectsMerge_settle (Line.isInside_stop_of_mem_split hline) ?_ ?_
  · rcases hstop with hstop | hstop
    · exact Source.settle_eq_iff.mpr (htokens _ hstop)
    · rw [hstop]
      exact Source.settle_eq_iff.mpr source.holds_start
  · exact fun t ht => Source.settle_eq_iff.mpr (htokens t (hmem t ht))

/-- Items of tokens that stand at places of the source stand there as well. -/
lemma isFixedPt_of_mem_items (htokens : ∀ t ∈ tokens, source.Holds t.span.first) {i : Item}
    (hi : i ∈ (parse tokens).1.items) : IsFixedPt (Item.mapSpans source.settle) i := by
  obtain ⟨line, hline, hparse⟩ := Parse.exists_line hi
  exact (isFixedPt_of_mem_linesOf htokens hline).1 i hparse

/-- Faults of tokens that stand at places of the source stand there as well. -/
lemma isFixedPt_of_mem_entries (htokens : ∀ t ∈ tokens, source.Holds t.span.first) {fault : Fault}
    (hfault : fault ∈ (parse tokens).2.entries) : IsFixedPt source.settle fault.span := by
  obtain hnone | ⟨line, hline, hparse⟩ := Parse.exists_line_of_fault hfault
  · exact nomatch hnone
  · exact (isFixedPt_of_mem_linesOf htokens hline).2 fault hparse

end Feature

/-! ### The three stages -/

namespace Source

/-- Tokens and faults of a scan begin at places of the source. -/
lemma holds_scan (source : Source) :
    (∀ t ∈ source.scan.tokens, source.Holds t.span.first) ∧
      ∀ fault ∈ source.scan.report.entries, source.Holds fault.span.first :=
  Scan.holds_scanFrom (List.nil_append _).symm rfl fun _ h => absurd h List.not_mem_nil

/-- Faults of reading a source begin at places of the source. -/
lemma holds_parse (source : Source) :
    ∀ fault ∈ (Feature.parse source.scan.tokens).2.entries, source.Holds fault.span.first :=
  fun _ hfault => settle_eq_iff.mp (Feature.isFixedPt_of_mem_entries source.holds_scan.1 hfault)

/-- Faults of compiling a source begin at places of the source, if those reported before do. -/
lemma holds_compile {report : Report Fault}
    (hreport : ∀ fault ∈ report.entries, source.Holds fault.span.first) :
    ∀ fault ∈ ((Feature.parse source.scan.tokens).1.compile report).2.entries,
      source.Holds fault.span.first := by
  intro fault hfault
  refine settle_eq_iff.mp (isFixedPt_of_mem_compileItems ?_ ?_ ?_ fault hfault)
  · exact fun d hd => absurd hd List.not_mem_nil
  · exact fun i hi => Feature.isFixedPt_of_mem_items source.holds_scan.1 hi
  · exact fun earlier hearlier => settle_eq_iff.mpr (hreport earlier hearlier)

end Source

/-! ### What is shown -/

/-- The diagnostic shows the line that it is about.  There is such a line in the source,
`sourceLine` is the line without the carriage returns at its end, and the column is one of its bytes
or right after them. -/
structure Diagnostic.ShowsLine (source : Source) (d : Diagnostic) : Prop where
  line : 1 ≤ d.span.line ∧ d.span.line ≤ source.lineCount
  found : source.line? d.span.line = some d.sourceLine
  text : ∃ raw returns, source.IsLine d.span.line raw ∧ raw = d.sourceLine.toList ++ returns ∧
    (∀ c ∈ returns, c = '\r') ∧ d.sourceLine.toList.getLast? ≠ some '\r' ∧
    1 ≤ d.span.column ∧ d.span.column ≤ Text.byteLength raw + 1

/-- A fault that begins at a place of the source shows its line. -/
lemma Source.Holds.showsLine {fault : Fault} (h : source.Holds fault.span.first) :
    (fault.diagnose source).ShowsLine source := by
  obtain ⟨raw, hraw, hfound, hline, hcolumn⟩ := h.exists_line
  obtain ⟨returns, hreturns, hall, hlast⟩ := exists_shown raw
  have hshown : (fault.diagnose source).sourceLine = shown raw :=
    congrArg (·.getD "") hfound
  refine ⟨hline, ?_, raw, returns, hraw, ?_, hall, ?_, hcolumn⟩
  · rw [hshown]
    exact hfound
  · rw [hshown]
    exact hreturns
  · rw [hshown]
    exact hlast

/-- **Diagnostics show their line**, whether they come from scanning, from reading the tokens or
from compiling what was read. -/
theorem Source.diagnostics_show_lines (source : Source) :
    let parsed := Feature.parse source.scan.tokens
    (∀ fault ∈ source.scan.report.entries, (fault.diagnose source).ShowsLine source) ∧
      (∀ fault ∈ parsed.2.entries, (fault.diagnose source).ShowsLine source) ∧
      (∀ fault ∈ (parsed.1.compile .empty).2.entries, (fault.diagnose source).ShowsLine source) ∧
      (∀ report, source.compile = .error report → ∀ d ∈ report.entries, d.ShowsLine source) ∧
      ∀ d ∈ source.compilePartly.2.entries, d.ShowsLine source := by
  intro parsed
  have hscan := source.holds_scan.2
  have hparse := source.holds_parse
  have hcompile := holds_compile hparse
  -- diagnosing keeps the place of a fault
  have hdiagnose {report : Report Fault}
      (h : ∀ fault ∈ report.entries, source.Holds fault.span.first) :
      ∀ d ∈ (report.map (Fault.diagnose source)).entries, d.ShowsLine source := by
    intro d hd
    obtain ⟨fault, hfault, rfl⟩ := List.mem_map.mp hd
    exact (h fault hfault).showsLine
  refine ⟨fun fault h => (hscan fault h).showsLine, fun fault h => (hparse fault h).showsLine,
    fun fault h => ?_, fun report h => ?_, hdiagnose hcompile⟩
  · have hnone : ∀ fault ∈ (Report.empty : Report Fault).entries, source.Holds fault.span.first :=
      fun _ hnot => absurd hnot List.not_mem_nil
    exact (holds_compile hnone fault h).showsLine
  · -- a source is refused with the report of the first stage that has something to report
    simp only [compile] at h
    split at h
    · cases h
      exact hdiagnose hscan
    · split at h
      · cases h
        exact hdiagnose hparse
      · split at h
        · cases h
          exact hdiagnose hcompile
        · exact nomatch h

/-- The divisor of a macro turns out not to be constant when the macro is used two lines further
down; the diagnostic shows the line of the macro, without its carriage return. -/
theorem Source.diagnostics_show_lines_ratio :
    let source : Source := ⟨"a", "# é\n!r(x) = 6 // !x\r\n\n0: a = !r(b)"⟩
    ∃ report d, source.compile = .error report ∧ d ∈ report.entries ∧
      d.span.first = ⟨2, 14⟩ ∧ d.sourceLine = "!r(x) = 6 // !x" ∧ d.ShowsLine source := by
  intro source
  have hcomputed : (match source.compile with
      | .error report => report.entries.map fun d => (d.span.first, d.sourceLine)
      | .ok _ => []) = [(⟨2, 14⟩, "!r(x) = 6 // !x")] := by
    decide +kernel
  cases hcompile : source.compile with
  | ok statements =>
    rw [hcompile] at hcomputed
    exact nomatch hcomputed
  | error report =>
    rw [hcompile] at hcomputed
    obtain ⟨d, hd, hshown⟩ := List.mem_map.mp (hcomputed ▸ List.mem_singleton_self _)
    obtain ⟨hfirst, hline⟩ := Prod.mk.inj hshown
    refine ⟨report, d, rfl, hd, hfirst, hline, ?_⟩
    exact source.diagnostics_show_lines.2.2.2.1 report hcompile d hd

end SheetRules
