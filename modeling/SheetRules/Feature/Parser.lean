import SheetRules.Diagnostic.Basic
import SheetRules.Feature.ExprParser

/-!
# Reading features

The tokens of a feature are cut into lines, and every line is read on its own: it gives an item or
a fault. A fault therefore never changes how another line is read. Reading ends when the report is
full.
-/

namespace SheetRules

/-- The tokens of a line that is not empty. -/
structure Line where
  /-- The span of the token before the line, the start of the text for the first line. -/
  before : Span
  tokens : List Token
  /-- The token that closes the line. -/
  stop : Token

namespace Line

/-- The end of file of a text without tokens. -/
def noToken : Token := ⟨.endOfFile, .point .start⟩

/-- The token does not close a line. -/
def isInside (t : Token) : Bool :=
  match t.kind with
  | .newline => false
  | .endOfFile => false
  | _ => true

/-- The lines of a list of tokens up to the end of file, and the span of the last token before
that; `last` is the span of the token before the list. -/
def split (last : Span) : List Token → List Line × Span
  | [] => ([], last)
  | t :: rest =>
    match t.kind with
    | .endOfFile => ([], last)
    | .newline => split t.span rest
    | _ =>
      let tokens := t :: rest.takeWhile isInside
      let after := rest.dropWhile isInside
      let final := (tokens.getLastD t).span
      let (lines, finish) := split final after
      (⟨last, tokens, after.headD noToken⟩ :: lines, finish)
termination_by tokens => tokens.length
decreasing_by
  · simp
  · have := (List.dropWhile_suffix isInside (l := rest)).length_le
    simp only [List.length_cons]
    omega

end Line

namespace Parser

/-- Reads the definition of a macro. -/
def macroDef : Parser MacroDef := do
  let start ← expect .bang
  let name ← ident
  let params ←
    if ← eat .openParen then do
      let (params, _) ← listed ident
      pure (some params)
    else pure none
  let _ ← expect .equals
  let body ← expr
  pure ⟨name, params, body, start.span.merge body.span⟩

/-- Reads the precedence of a rule without its sign. -/
def precedence : Parser Float := do
  match (← peek).kind with
  | .number value =>
    advance
    pure value
  | _ => unexpected .precedence

/-- Reads the operator of a rule. -/
def ruleOp : Parser RuleOp := do
  match (← peek).kind with
  | .equals =>
    advance
    pure .set
  | .plusPlus =>
    advance
    pure .push
  | _ => unexpected .ruleOperator

/-- Reads a rule. -/
def rule : Parser Rule := do
  let start ← peek
  let negative ← eat .minus
  let value ← precedence
  let _ ← expect .colon
  let target ← path
  let op ← ruleOp
  let expression ← expr
  pure ⟨if negative then -value else value, target, op, expression,
    start.span.merge expression.span⟩

/-- Reads an item. -/
def item : Parser Item := do
  match (← peek).kind with
  | .bang => do pure (.define (← macroDef))
  | .number _ => do pure (.rule (← rule))
  | .minus => do pure (.rule (← rule))
  | _ => unexpected .item

/-- Reads an item that takes up the whole line. -/
def wholeItem : Parser Item := do
  let value ← item
  fun c => match c.rest with
    | [] => .ok (value, c)
    | _ :: _ => unexpected .endOfLine c

end Parser

/-- Reads a line. -/
def Line.parse (line : Line) : Except Fault Item :=
  (Parser.wholeItem ⟨line.tokens, line.stop⟩).map (·.1)

/-- The items that were read, the span of the last token that was looked at, and the report. -/
structure Parse where
  items : List Item
  finish : Span
  report : Report Fault

/-- Reads lines one after the other until the report is full; `finish` is the span of the last
token of all. -/
def Parse.lines (finish : Span) (report : Report Fault) : List Line → Parse
  | [] => ⟨[], finish, report⟩
  | line :: rest =>
    if report.isFull then ⟨[], line.before, report⟩
    else match line.parse with
      | .ok item =>
        let more := Parse.lines finish report rest
        { more with items := item :: more.items }
      | .error fault => Parse.lines finish (report.push fault) rest

/-- Reads a feature from its tokens. -/
def Feature.parse (tokens : List Token) : Feature × Report Fault :=
  let (lines, finish) := Line.split (.point .start) tokens
  let parse := Parse.lines finish .empty lines
  let start := (tokens.headD Line.noToken).span
  (⟨parse.items, start.merge parse.finish⟩, parse.report)

end SheetRules
