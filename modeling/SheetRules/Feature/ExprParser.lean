import SheetRules.Feature.Cursor

/-!
# Reading expressions

Sums are chains of products, products are chains of signed operands, and chains associate to the
left. The levels of an expression are limited. A parenthesised expression, an argument and the
operand of a sign are one level below the place where they stand, and the right operand of each
operator of a chain is one level below the operand before it. The readers of one level are
therefore made from those of the level below (`Level.above`); below the last one every reader fails.
-/

namespace SheetRules

namespace Parser

/-- The operators of sums. -/
def sumOp? : Kind → Option BinaryOp
  | .plus => some .add
  | .minus => some .sub
  | _ => none

/-- The operators of products. -/
def productOp? : Kind → Option BinaryOp
  | .star => some .mul
  | .slash => some .div
  | .slashSlash => some .floorDiv
  | _ => none

/-- Joins two operands. -/
def join (left : Expr) (op : BinaryOp) (right : Expr) : Expr :=
  .binary left op right (left.span.merge right.span)

/-- The readers of expressions at one level. -/
structure Level where
  /-- Reads a sum. -/
  sum : Parser Expr
  /-- Reads a product. -/
  product : Parser Expr
  /-- Reads an operand with its signs. -/
  signed : Parser Expr
  /-- Reads what a sum goes on with after the operands read so far. -/
  sumAfter : Expr → Parser Expr
  /-- Reads what a product goes on with after the operands read so far. -/
  productAfter : Expr → Parser Expr

namespace Level

/-- The level below the last one. -/
def exhausted : Level where
  sum := tooDeep
  product := tooDeep
  signed := tooDeep
  sumAfter _ := tooDeep
  productAfter _ := tooDeep

/-- Reads a macro after its mark, whose span is `start`. -/
def macroAfter (start : Span) (argument : Parser Expr) : Parser Expr := do
  let name ← ident
  if ← eat .openParen then
    let (args, close) ← listed argument
    pure (.macroCall name args (start.merge close.span))
  else pure (.macroUse name (start.merge name.span))

/-- Tells whether a parenthesis opens right after the next token. -/
def opensCall : Parser Bool := fun c =>
  match c.rest with
  | _ :: ⟨.openParen, _⟩ :: _ => .ok (true, c)
  | _ => .ok (false, c)

/-- Reads what begins with a name: a function with its arguments, or a path. -/
def named (argument : Parser Expr) : Parser Expr := do
  if ← opensCall then
    let name ← ident
    advance
    let (args, close) ← listed argument
    pure (.call name args (name.span.merge close.span))
  else
    let value ← path
    pure (.path value)

/-- Reads an operand without a sign. What it holds in parentheses is read by `inner`. -/
def operand (inner : Parser Expr) : Parser Expr := do
  let token ← peek
  match token.kind with
  | .number value =>
    advance
    pure (.number value token.span)
  | .name _ => named inner
  | .template _ =>
    let value ← path
    pure (.path value)
  | .bang =>
    advance
    macroAfter token.span inner
  | .openParen =>
    advance
    let value ← inner
    let close ← expect .closeParen
    pure (.paren value (token.span.merge close.span))
  | _ => unexpected .expression

/-- The readers of a level, made from those of the level below. -/
def above (below : Level) : Level :=
  let signed : Parser Expr := do
    let token ← peek
    if ← eat .minus then
      let inner ← below.signed
      pure (.neg inner (token.span.merge inner.span))
    else operand below.sum
  let productAfter : Expr → Parser Expr := fun left => do
    match productOp? (← peek).kind with
    | none => pure left
    | some op =>
      advance
      let right ← below.signed
      below.productAfter (join left op right)
  let product : Parser Expr := do
    let left ← signed
    productAfter left
  let sumAfter : Expr → Parser Expr := fun left => do
    match sumOp? (← peek).kind with
    | none => pure left
    | some op =>
      advance
      let right ← below.product
      below.sumAfter (join left op right)
  let sum : Parser Expr := do
    let left ← product
    sumAfter left
  { sum, product, signed, sumAfter, productAfter }

/-- The readers of the level from which `levels` levels can be entered. -/
def ofNat : (levels : Nat) → Level
  | 0 => exhausted
  | levels + 1 => above (ofNat levels)

end Level

/-- Reads an expression. -/
def expr : Parser Expr :=
  (Level.ofNat Limit.exprLevels).sum

end Parser

end SheetRules
