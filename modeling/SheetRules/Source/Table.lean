import SheetRules.Source.Basic
import SheetRules.Text.Bytes

/-!
# Sources with a table of lines

A table says at which byte every line of a source starts. A line is then looked up as a slice of the
text: from its start to the byte before the next start, or to the end of the text.
-/

namespace SheetRules

/-- A slice that a text does not have. -/
structure BadSlice where
  start : Nat
  stop : Nat
deriving DecidableEq, Repr

/-- A source with the offsets at which its lines start. -/
structure IndexedSource extends Source where
  lineStarts : List Nat
  lineStarts_eq : lineStarts = 0 :: Text.offsetsAfter '\n' 0 text.toList

/-- A source with the table of its lines. -/
def Source.indexed (source : Source) : IndexedSource :=
  { source with
    lineStarts := 0 :: Text.offsetsAfter '\n' 0 source.text.toList
    lineStarts_eq := rfl }

namespace IndexedSource

/-- The number of lines. -/
def count (source : IndexedSource) : Nat :=
  source.lineStarts.length

/-- The offset at which the line of an index ends, without its line feed. -/
def stopOf (source : IndexedSource) (index : Nat) : Nat :=
  match source.lineStarts[index + 1]? with
  | some next => next - 1
  | none => Text.byteLength source.text.toList

/-- The line of a given number, counted from one, as it is shown. -/
def lookup (source : IndexedSource) (number : Nat) : Except BadSlice (Option String) :=
  match number with
  | 0 => .ok none
  | index + 1 =>
    match source.lineStarts[index]? with
    | none => .ok none
    | some start =>
      match Text.slice? start (source.stopOf index) source.text.toList with
      | none => .error ⟨start, source.stopOf index⟩
      | some line => .ok (some (Source.shown line))

end IndexedSource

end SheetRules
