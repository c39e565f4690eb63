import SheetRules.Source.Span
import SheetRules.Token.Basic

/-!
# Features

A feature is a list of items, one a line: rules, which say what is computed for which attribute,
and definitions of macros. A static macro stands for an expression; a functional macro stands for
an expression with arguments.
-/

namespace SheetRules

/-- A name and where it stands. -/
structure Ident where
  text : String
  span : Span
deriving DecidableEq

/-- A segment of an attribute path. -/
inductive Segment where
  | name (text : String)
  | template (text : String)
deriving DecidableEq

/-- The text of a segment. -/
def Segment.text : Segment → String
  | .name text => text
  | .template text => templateText text

/-- An attribute path. -/
structure Path where
  segments : List Segment
  span : Span
deriving DecidableEq

/-- The text of a path: its segments with dots between them. -/
def Path.text (path : Path) : String :=
  ".".intercalate (path.segments.map Segment.text)

/-- The operators between two operands. -/
inductive BinaryOp where
  | add
  | sub
  | mul
  | div
  | floorDiv
deriving DecidableEq, Repr

/-- The text of an operator. -/
def BinaryOp.text : BinaryOp → String
  | .add => "+"
  | .sub => "-"
  | .mul => "*"
  | .div => "/"
  | .floorDiv => "//"

/-- An expression of a rule or a macro. -/
inductive Expr where
  | number (value : Float) (span : Span)
  | path (path : Path)
  | binary (left : Expr) (op : BinaryOp) (right : Expr) (span : Span)
  | neg (inner : Expr) (span : Span)
  /-- A function with its arguments. -/
  | call (name : Ident) (args : List Expr) (span : Span)
  /-- A static macro, or an argument of a functional one. -/
  | macroUse (name : Ident) (span : Span)
  /-- A functional macro with its arguments. -/
  | macroCall (name : Ident) (args : List Expr) (span : Span)
  | paren (inner : Expr) (span : Span)

/-- Where an expression stands. -/
def Expr.span : Expr → Span
  | .number _ span => span
  | .path p => p.span
  | .binary _ _ _ span => span
  | .neg _ span => span
  | .call _ _ span => span
  | .macroUse _ span => span
  | .macroCall _ _ span => span
  | .paren _ span => span

/-- What a rule does with its value. -/
inductive RuleOp where
  | set
  | push
deriving DecidableEq, Repr

/-- The text of a rule's operator. -/
def RuleOp.text : RuleOp → String
  | .set => "="
  | .push => "++"

/-- A rule: its value is written to its target. -/
structure Rule where
  precedence : Float
  target : Path
  op : RuleOp
  value : Expr
  span : Span

/-- The definition of a macro; a static macro has no parameter list. -/
structure MacroDef where
  name : Ident
  params : Option (List Ident)
  body : Expr
  span : Span

/-- A line of a feature. -/
inductive Item where
  | define (definition : MacroDef)
  | rule (rule : Rule)

/-- A list of items. -/
structure Feature where
  items : List Item
  span : Span

/-- The functions that expressions can call. -/
inductive Builtin where
  | min
  | max
  | floor
deriving DecidableEq, Repr

namespace Builtin

/-- The name of a function. -/
def name : Builtin → String
  | .min => "min"
  | .max => "max"
  | .floor => "floor"

/-- All functions, in the order in which they are listed to the user. -/
def all : List Builtin := [.min, .max, .floor]

/-- The function of a given name. -/
def ofName? (name : String) : Option Builtin :=
  all.find? fun f => f.name == name

/-- The function can be called with a given number of arguments. -/
def takes (f : Builtin) (count : Nat) : Bool :=
  match f with
  | .floor => count == 1
  | _ => count != 0

/-- The number of arguments that a function takes, in words. -/
def arity : Builtin → String
  | .floor => "exactly 1 argument"
  | _ => "at least 1 argument"

end Builtin

end SheetRules
