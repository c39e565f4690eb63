import SheetRules.Feature.Parser

/-!
# Reading a stream of tokens

A feature can also be read in one go, with a single cursor that runs over all its tokens. A fault is
reported where it is found, and reading comes to nothing there; the cursor then skips to the next
line and goes on. The levels of an expression are counted: who goes down a level raises the counter,
and it is put back afterwards, also after a fault.

Readers of expressions are made from those one level below, as many as there can be levels. It is
the counter that ends reading, never the number of readers.
-/

namespace SheetRules

/-- A cursor in a list of tokens, the number of levels that it is below an item, and what was
reported so far. -/
structure TokenStream where
  tokens : List Token
  position : Nat
  depth : Nat
  report : Report Fault

namespace TokenStream

/-- The start of a list of tokens. -/
def start (tokens : List Token) : TokenStream := ⟨tokens, 0, 0, .empty⟩

/-- The token at the cursor. Past the end this is the last token, again and again. -/
def current (s : TokenStream) : Token :=
  (s.tokens[s.position]?).getD (s.tokens.getLastD Line.noToken)

/-- The kind of the token some places after the cursor, the end of file past the end. -/
def ahead (s : TokenStream) (places : Nat) : Kind :=
  ((s.tokens[s.position + places]?).map Token.kind).getD .endOfFile

/-- The span of the token before the cursor. -/
def previousSpan (s : TokenStream) : Span :=
  match s.position with
  | 0 => .point .start
  | position + 1 => ((s.tokens[position]?).map Token.span).getD (.point .start)

/-- The cursor is moved to the next token, unless it is past the end. -/
def advanced (s : TokenStream) : TokenStream :=
  if s.position < s.tokens.length then { s with position := s.position + 1 } else s

/-- The number of tokens from the cursor on. -/
def remaining (s : TokenStream) : Nat :=
  s.tokens.length - s.position

/-- Reports a fault at the token under the cursor. -/
def reported (s : TokenStream) (cause : Kind → Cause) : TokenStream :=
  { s with report := s.report.push ⟨cause s.current.kind, s.current.span⟩ }

end TokenStream

/-- A way to read a value from a stream. If it comes to nothing, a fault was reported; the stream
goes on from where reading ended in any case. -/
abbrev Reading (α : Type) := OptionT (StateM TokenStream) α

namespace Reading

variable {α : Type}

/-- The token under the cursor is left where it is. -/
def peek : Reading Token := fun s => (some s.current, s)

/-- The kind of a token further on. -/
def ahead (places : Nat) : Reading Kind := fun s => (some (s.ahead places), s)

/-- The span of the token before the cursor. -/
def previous : Reading Span := fun s => (some s.previousSpan, s)

/-- The number of steps that a loop over the other tokens can take. -/
def steps : Reading Nat := fun s => (some (s.remaining + 1), s)

/-- Passes the token under the cursor. -/
def advance : Reading Token := fun s => (some s.current, s.advanced)

/-- Reports a fault at the token under the cursor and comes to nothing. -/
def failAt (cause : Kind → Cause) : Reading α := fun s => (none, s.reported cause)

/-- The token under the cursor is not what the grammar asks for. -/
def unexpected (what : Expectation) : Reading α :=
  failAt (.expected what)

/-- A loop that has taken all its steps, which none does. -/
def stuck : Reading α := fun s => (none, s)

/-- Passes the token under the cursor if it is of a given kind, and tells whether it was. -/
def eat (kind : Kind) : Reading Bool := do
  if (← peek).kind = kind then
    let _ ← advance
    pure true
  else pure false

/-- Passes a token that has to be of a given kind. -/
def expect (kind : Kind) : Reading Token := do
  if (← peek).kind = kind then advance
  else unexpected (.symbol kind)

/-- Reads a name. -/
def ident : Reading Ident := do
  match (← peek).kind with
  | .name text =>
    let token ← advance
    pure ⟨text, token.span⟩
  | _ => unexpected .name

/-- Reads a path segment. -/
def segment : Reading Segment := do
  match (← peek).kind with
  | .name text =>
    let _ ← advance
    pure (.name text)
  | .template text =>
    let _ ← advance
    pure (.template text)
  | _ => unexpected .segment

/-- Reads the segments of a path after its first one. -/
def segmentsAfter : (fuel : Nat) → Reading (List Segment)
  | 0 => stuck
  | fuel + 1 => do
    if ← eat .dot then
      let next ← segment
      let more ← segmentsAfter fuel
      pure (next :: more)
    else pure []

/-- Reads a path. -/
def path : Reading Path := do
  let token ← peek
  let first ← segment
  let more ← segmentsAfter (← steps)
  let final ← previous
  pure ⟨first :: more, token.span.merge final⟩

/-- Reads one or more values with commas between them. -/
def separated (value : Reading α) : (fuel : Nat) → Reading (List α)
  | 0 => stuck
  | fuel + 1 => do
    let first ← value
    if ← eat .comma then
      let more ← separated value fuel
      pure (first :: more)
    else pure [first]

/-- Reads values with commas between them and the parenthesis that closes them. -/
def listed (value : Reading α) : Reading (List α) := do
  let values ←
    if (← peek).kind = .closeParen then pure []
    else separated value (← steps)
  let _ ← expect .closeParen
  pure values

/-! ### Levels -/

/-- Puts the counter of levels back, whatever reading comes to. -/
def restoring (inner : Reading α) : Reading α := fun s =>
  match inner s with
  | (result, after) => (result, { after with depth := s.depth })

/-- Goes down a level, if there is one. -/
def deepen : Reading Unit := fun s =>
  let deeper := { s with depth := s.depth + 1 }
  if deeper.depth ≤ Limit.exprLevels then (some (), deeper)
  else failAt (fun _ => .nestedTooDeep) deeper

/-- Reads something one level down. -/
def nested (inner : Reading α) : Reading α :=
  restoring do
    deepen
    inner

/-- Reads a macro after its mark, whose span is `start`. -/
def macroAfter (start : Span) (argument : Reading Expr) : Reading Expr := do
  let name ← ident
  if ← eat .openParen then
    let args ← listed argument
    let final ← previous
    pure (.macroCall name args (start.merge final))
  else pure (.macroUse name (start.merge name.span))

/-- Reads what begins with a name at `start`: a function with its arguments, or a path. -/
def named (start : Span) (argument : Reading Expr) : Reading Expr := do
  if (← ahead 1) = .openParen then
    let name ← ident
    let _ ← advance
    let args ← listed argument
    let final ← previous
    pure (.call name args (start.merge final))
  else
    let value ← path
    pure (.path value)

/-- Reads an operand without a sign. What it holds in parentheses is read by `inner`. -/
def operand (inner : Reading Expr) : Reading Expr := do
  let token ← peek
  match token.kind with
  | .number value =>
    let _ ← advance
    pure (.number value token.span)
  | .name _ => named token.span inner
  | .template _ =>
    let value ← path
    pure (.path value)
  | .bang =>
    let _ ← advance
    macroAfter token.span inner
  | .openParen =>
    let _ ← advance
    let value ← inner
    let _ ← expect .closeParen
    let final ← previous
    pure (.paren value (token.span.merge final))
  | _ => unexpected .expression

/-- Reads the next link of a chain, one level down, and then what the chain goes on with. -/
def link (op? : Kind → Option BinaryOp) (operand : Reading Expr) (more : Expr → Reading Expr)
    (left : Expr) : Reading Expr := do
  match op? (← peek).kind with
  | none => pure left
  | some op =>
    let _ ← advance
    deepen
    let right ← operand
    more (Parser.join left op right)

/-- Readers of expressions. -/
structure Readers where
  /-- Reads a sum. -/
  sum : Reading Expr
  /-- Reads a product. -/
  product : Reading Expr
  /-- Reads an operand with its signs. -/
  signed : Reading Expr
  /-- Reads what a sum goes on with after the operands read so far. -/
  sumAfter : Expr → Reading Expr
  /-- Reads what a product goes on with after the operands read so far. -/
  productAfter : Expr → Reading Expr

namespace Readers

/-- Readers that are never reached. -/
def unreached : Readers where
  sum := stuck
  product := stuck
  signed := stuck
  sumAfter _ := stuck
  productAfter _ := stuck

/-- Readers that read what is one level down with the given ones. -/
def above (below : Readers) : Readers :=
  let signed : Reading Expr := do
    let token ← peek
    if ← eat .minus then
      let inner ← nested below.signed
      pure (.neg inner (token.span.merge inner.span))
    else operand (nested below.sum)
  let productAfter := link Parser.productOp? below.signed below.productAfter
  let product : Reading Expr := restoring do
    let left ← signed
    productAfter left
  let sumAfter := link Parser.sumOp? below.product below.sumAfter
  let sum : Reading Expr := restoring do
    let left ← product
    sumAfter left
  { sum, product, signed, sumAfter, productAfter }

/-- Readers for a number of levels. -/
def ofNat : (levels : Nat) → Readers
  | 0 => unreached
  | levels + 1 => above (ofNat levels)

end Readers

/-- Reads an expression. -/
def expr : Reading Expr :=
  nested (Readers.ofNat Limit.exprLevels).sum

/-! ### Items -/

/-- Reads the definition of a macro, whose mark has been seen. -/
def macroDef : Reading MacroDef := do
  let start ← advance
  let name ← ident
  let params ←
    if ← eat .openParen then do
      let params ← listed ident
      pure (some params)
    else pure none
  let _ ← expect .equals
  let body ← expr
  pure ⟨name, params, body, start.span.merge body.span⟩

/-- Reads the precedence of a rule without its sign. -/
def precedence : Reading Float := do
  match (← peek).kind with
  | .number value =>
    let _ ← advance
    pure value
  | _ => unexpected .precedence

/-- Reads the operator of a rule. -/
def ruleOp : Reading RuleOp := do
  match (← peek).kind with
  | .equals =>
    let _ ← advance
    pure .set
  | .plusPlus =>
    let _ ← advance
    pure .push
  | _ => unexpected .ruleOperator

/-- Reads a rule. -/
def rule : Reading Rule := do
  let start ← peek
  let negative ← eat .minus
  let value ← precedence
  let _ ← expect .colon
  let target ← path
  let op ← ruleOp
  let expression ← expr
  pure ⟨if negative then -value else value, target, op, expression,
    start.span.merge expression.span⟩

/-- Reads an item. -/
def item : Reading Item := do
  match (← peek).kind with
  | .bang => do pure (.define (← macroDef))
  | .number _ => do pure (.rule (← rule))
  | .minus => do pure (.rule (← rule))
  | _ => unexpected .item

end Reading

namespace TokenStream

/-- The cursor is at the end of file. -/
def atEnd (s : TokenStream) : Bool :=
  s.current.kind = .endOfFile

/-- Passes newlines, at most as many as the first argument says. -/
def skipNewlines : (fuel : Nat) → TokenStream → TokenStream
  | 0, s => s
  | fuel + 1, s => if s.current.kind = .newline then skipNewlines fuel s.advanced else s

/-- Passes the other tokens of a line, at most as many as the first argument says. -/
def skipLine : (fuel : Nat) → TokenStream → TokenStream
  | 0, s => s
  | fuel + 1, s => if Line.isInside s.current then skipLine fuel s.advanced else s

/-- Goes on at the start of the next line that is not empty. -/
def synchronize (s : TokenStream) : TokenStream :=
  let stopped := skipLine s.remaining s
  skipNewlines stopped.remaining stopped

/-- An item has to end with its line. Tells whether it does, and then goes on at the next line;
otherwise a fault is reported. -/
def endLine (s : TokenStream) : Bool × TokenStream :=
  if s.atEnd then (true, s)
  else if s.current.kind = .newline then (true, skipNewlines s.remaining s)
  else (false, s.reported (.expected .endOfLine))

/-- Reads items to the end of file or until the report is full, at most as many as the first
argument says. After an item that cannot be read, or does not end with its line, reading goes on at
the next line. -/
def items : (fuel : Nat) → TokenStream → List Item × TokenStream
  | 0, s => ([], s)
  | fuel + 1, s =>
    if s.atEnd then ([], s)
    else if s.report.isFull then ([], s)
    else match Reading.item s with
      | (none, stopped) => items fuel stopped.synchronize
      | (some item, stopped) =>
        match stopped.endLine with
        | (false, stopped) => items fuel stopped.synchronize
        | (true, next) =>
          let more := items fuel next
          (item :: more.1, more.2)

/-- Reads a feature from its tokens. -/
def parse (tokens : List Token) : Feature × Report Fault :=
  let first := start tokens
  let result := items (tokens.length + 1) (skipNewlines first.remaining first)
  (⟨result.1, first.current.span.merge result.2.previousSpan⟩, result.2.report)

end TokenStream

end SheetRules
