import SheetRules.Number.Format
import SheetRules.Tree.Basic

/-!
# Statements as a TypeScript literal

Statements are written as an array of object literals that name the host's operator enumerations.
A part is written on its own, from column zero, and moved to the right as a block when it is put
into a larger part: `indentAll` moves every line, `indentTail` all lines but the first, which goes
on the line of the key.
-/

namespace SheetRules

namespace TypeScript

/-- One step to the right. -/
def step : List Char := [' ', ' ', ' ', ' ']

/-- The lines of a text whose current line begins with `current`, reversed. A line ends at a line
feed, and a carriage return right before that belongs to the end of the line; what follows the last
line feed is a line if it is not empty. -/
def linesFrom (current : List Char) : List Char → List (List Char)
  | [] => if current.isEmpty then [] else [current.reverse]
  | c :: rest =>
    if c = '\n' then
      let line := match current with
        | '\r' :: before => before
        | whole => whole
      line.reverse :: linesFrom [] rest
    else linesFrom (c :: current) rest

/-- The lines of a text. -/
def lines (text : List Char) : List (List Char) :=
  linesFrom [] text

/-- Moves a line to the right, unless it is empty. -/
def indentLine (line : List Char) : List Char :=
  if line.isEmpty then [] else step ++ line

/-- Moves every line of a text to the right. -/
def indentAll (text : List Char) : List Char :=
  ['\n'].intercalate ((lines text).map indentLine)

/-- Moves every line of a text but the first to the right. -/
def indentTail (text : List Char) : List Char :=
  match text.dropWhile (· ≠ '\n') with
  | [] => text
  | _ :: rest => text.takeWhile (· ≠ '\n') ++ '\n' :: indentAll rest

/-- A list of parts, one after the other. -/
def renderList (items : List (List Char)) : List Char :=
  if items.isEmpty then ['[', ']']
  else
    ['[', '\n'] ++ [',', '\n'].intercalate (items.map indentAll) ++ ['\n', ']']

/-- An object literal of the given fields. -/
def renderObject (fields : List (String × List Char)) : List Char :=
  let line := fun (f : String × List Char) => step ++ f.1.toList ++ ':' :: ' ' :: f.2
  "\x7b\n".toList ++ [',', '\n'].intercalate (fields.map line) ++ "\n\x7d".toList

/-- The size from which on integral values are written like any other value. -/
def integerLimit : Nat := Nat.pow 10 15

/-- A constant: an integer where the value is one of moderate size. -/
def renderNumber (v : Float) : List Char :=
  match Double.integerBelow? integerLimit v with
  | some n => (toString n).toList
  | none => (Double.text v).toList

/-- A precedence: an integral value of moderate size keeps one digit after the point. -/
def renderPrecedence (v : Float) : List Char :=
  match Double.integerBelow? integerLimit v with
  | some _ => (NumberFormat.json.text v).toList
  | none => (Double.text v).toList

/-- A path in the quotes of a template literal. -/
def renderPath (path : String) : List Char :=
  '`' :: path.toList ++ ['`']

/-- An expression node with its operands. -/
def renderNode (op : Operator) (operands : List Char) : List Char :=
  renderObject [("operator", ("ExpressionOperators." ++ op.tag).toList), ("operands", operands)]

mutual

/-- A tree, from column zero. -/
def renderTree : Tree Float → List Char
  | .static v => renderNode .static (renderNumber v)
  | .dynamic path => renderNode .dynamic (renderPath path)
  | .combine op operands =>
    renderNode (.combine op) (indentTail (renderList (renderTrees operands)))
  | .floor operand => renderNode .floor (indentTail (renderList [renderTree operand]))

/-- Several trees, each from column zero. -/
def renderTrees : List (Tree Float) → List (List Char)
  | [] => []
  | t :: rest => renderTree t :: renderTrees rest

end

/-- A statement, from column zero. -/
def renderStatement (s : Statement) : List Char :=
  renderObject [
    ("precedence", renderPrecedence s.precedence),
    ("target", renderPath s.target),
    ("operator", ("StatementOperators." ++ s.action.tag).toList),
    ("operand", indentTail (renderTree s.operand))]

/-- Statements as one array literal. -/
def render (statements : List Statement) : String :=
  String.ofList (renderList (statements.map renderStatement))

end TypeScript

end SheetRules
