import SheetRules.Diagnostic.Basic
import SheetRules.Token.Piece

/-!
# Scanning

Scanning cuts a text into pieces from left to right. It yields the tokens among them, each with the
span of its text, and a report. Once the report is full, scanning ends after the next token or
unexpected character; the tokens always end with the end of file.
-/

namespace SheetRules

/-- The tokens of a text and what was reported about it. -/
structure Scan where
  tokens : List Token
  report : Report Fault

namespace Scan

/-- Scanning may end after this piece: it is a token, or an unexpected character. -/
def mayEndAfter (piece : Piece) : Bool :=
  match piece.token?, piece.cause? with
  | some _, _ => true
  | none, some (.unexpectedCharacter _) => true
  | none, _ => false

/-- The report after a piece with the given span. -/
def reportAfter (report : Report Fault) (span : Span) (piece : Piece) : Report Fault :=
  match piece.cause? with
  | some cause => report.push ⟨cause, span⟩
  | none => report

/-- Scans the rest of a text that begins at `place`, where `depth` parentheses are open. -/
def scanFrom (place : Place) (depth : Nat) (report : Report Fault) : List Char → Scan
  | [] => ⟨[⟨.endOfFile, .point place⟩], report⟩
  | c :: rest =>
    let piece := (Piece.cut depth c rest).1
    let stop := place.after piece.text
    let span := Span.between place stop
    let report := reportAfter report span piece
    let tokens := (piece.token?.map fun kind => (⟨kind, span⟩ : Token)).toList
    if mayEndAfter piece && report.isFull then
      ⟨tokens ++ [⟨.endOfFile, .point stop⟩], report⟩
    else
      let more := scanFrom stop (piece.depthAfter depth) report (Piece.cut depth c rest).2
      ⟨tokens ++ more.tokens, more.report⟩
termination_by text => text.length
decreasing_by exact Piece.cut_rest_length depth c rest

end Scan

/-- Scans a source. -/
def Source.scan (source : Source) : Scan :=
  Scan.scanFrom .start 0 .empty source.text.toList

end SheetRules
