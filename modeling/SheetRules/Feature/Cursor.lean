import SheetRules.Diagnostic.Cause
import SheetRules.Feature.Basic

/-!
# Reading the tokens of a line

An item is read from the tokens of its line. The token that closes the line, a newline or the end
of file, can be seen but not passed, so reading never goes on to the next line. Reading ends at the
first fault.
-/

namespace SheetRules

/-- A place among the tokens of a line. -/
structure Cursor where
  /-- The tokens that are still to be read. -/
  rest : List Token
  /-- The token that closes the line. -/
  stop : Token

/-- The next token, which may be the one that closes the line. -/
def Cursor.current (c : Cursor) : Token :=
  c.rest.headD c.stop

/-- A way to read a value from the tokens of a line. -/
abbrev Parser (α : Type) := StateT Cursor (Except Fault) α

namespace Parser

/-- The next token is left where it is. -/
def peek : Parser Token := fun c => .ok (c.current, c)

/-- Passes the next token, unless it closes the line. -/
def advance : Parser Unit := fun c => .ok ((), { c with rest := c.rest.tail })

/-- Ends reading with a fault at the next token. -/
def failAt {α : Type} (cause : Kind → Cause) : Parser α := fun c =>
  .error ⟨cause c.current.kind, c.current.span⟩

/-- The next token is not what the grammar asks for. -/
def unexpected {α : Type} (what : Expectation) : Parser α :=
  failAt (.expected what)

/-- The expression has no more levels to go. -/
def tooDeep {α : Type} : Parser α :=
  failAt fun _ => .nestedTooDeep

/-- Passes the next token if it is of a given kind, and tells whether it was. -/
def eat (kind : Kind) : Parser Bool := do
  if (← peek).kind = kind then
    advance
    pure true
  else pure false

/-- Passes a token that has to be of a given kind. -/
def expect (kind : Kind) : Parser Token := do
  let token ← peek
  if token.kind = kind then
    advance
    pure token
  else unexpected (.symbol kind)

/-- Reads a name. -/
def ident : Parser Ident := do
  let token ← peek
  match token.kind with
  | .name text =>
    advance
    pure ⟨text, token.span⟩
  | _ => unexpected .name

/-- Reads a path segment, with its span. -/
def segment : Parser (Segment × Span) := do
  let token ← peek
  match token.kind with
  | .name text =>
    advance
    pure (.name text, token.span)
  | .template text =>
    advance
    pure (.template text, token.span)
  | _ => unexpected .segment

/-- The number of steps that a loop over the rest of the line can take. -/
def steps : Parser Nat := fun c => .ok (c.rest.length + 1, c)

/-- Reads the segments of a path after its first one; `last` is the span of the segment before. -/
def segmentsAfter (last : Span) : (fuel : Nat) → Parser (List Segment × Span)
  | 0 => unexpected .segment
  | fuel + 1 => do
    if ← eat .dot then
      let (next, span) ← segment
      let (more, final) ← segmentsAfter span fuel
      pure (next :: more, final)
    else pure ([], last)

/-- Reads a path. -/
def path : Parser Path := do
  let (first, start) ← segment
  let (more, final) ← segmentsAfter start (← steps)
  pure ⟨first :: more, start.merge final⟩

/-- Reads one or more values with commas between them. -/
def separated {α : Type} (value : Parser α) : (fuel : Nat) → Parser (List α)
  | 0 => unexpected (.symbol .closeParen)
  | fuel + 1 => do
    let first ← value
    if ← eat .comma then
      let more ← separated value fuel
      pure (first :: more)
    else pure [first]

/-- Reads values with commas between them and the parenthesis that closes them, after the opening
one. Returns the values and the closing parenthesis. -/
def listed {α : Type} (value : Parser α) : Parser (List α × Token) := do
  let values ←
    if (← peek).kind = .closeParen then pure []
    else separated value (← steps)
  let close ← expect .closeParen
  pure (values, close)

end Parser

end SheetRules
