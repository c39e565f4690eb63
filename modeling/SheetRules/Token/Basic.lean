import SheetRules.Number.Format
import SheetRules.Source.Span

/-!
# Tokens
-/

namespace SheetRules

/-- The kinds of tokens. There are no reserved words: the names of functions are names. -/
inductive Kind where
  | number (value : Float)
  | name (text : String)
  /-- A name in a path that the host fills in. -/
  | template (text : String)
  | plus
  | plusPlus
  | minus
  | star
  | slash
  | slashSlash
  | bang
  | equals
  | openParen
  | closeParen
  | comma
  | colon
  | dot
  /-- The end of an item; there is none between parentheses. -/
  | newline
  | endOfFile
deriving DecidableEq

/-- A template as it is written. -/
def templateText (name : String) : String :=
  "$\x7b" ++ name ++ "\x7d"

/-- The text of a token. -/
def Kind.text : Kind → String
  | .number value => Double.text value
  | .name text => text
  | .template text => templateText text
  | .plus => "+"
  | .plusPlus => "++"
  | .minus => "-"
  | .star => "*"
  | .slash => "/"
  | .slashSlash => "//"
  | .bang => "!"
  | .equals => "="
  | .openParen => "("
  | .closeParen => ")"
  | .comma => ","
  | .colon => ":"
  | .dot => "."
  | .newline => "newline"
  | .endOfFile => "end of file"

/-- A token and where it stands. -/
structure Token where
  kind : Kind
  span : Span
deriving DecidableEq

end SheetRules
