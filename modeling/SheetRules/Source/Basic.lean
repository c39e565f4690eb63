import SheetRules.Text.Split

/-!
# Source texts
-/

namespace SheetRules

/-- A named text. -/
structure Source where
  name : String
  text : String

namespace Source

/-- The lines of a source: the parts between its line feeds. -/
def lines (source : Source) : List (List Char) :=
  Text.split '\n' source.text.toList

/-- The number of lines. -/
def lineCount (source : Source) : Nat :=
  source.lines.length

/-- A line without the carriage returns at its end. -/
def shown (line : List Char) : String :=
  String.ofList (line.reverse.dropWhile (· = '\r')).reverse

/-- The line of a given number, counted from one, as it is shown. -/
def line? (source : Source) (number : Nat) : Option String :=
  match number with
  | 0 => none
  | index + 1 => source.lines[index]?.map shown

end Source

end SheetRules
