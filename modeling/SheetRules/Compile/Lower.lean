import SheetRules.Compile.Macros
import SheetRules.Diagnostic.Cause
import SheetRules.Number.Arithmetic

/-!
# Lowering expressions to trees

Trees have neither subtraction nor division, so these are lowered to sums and products: `a - b` to
`a + b * (-1)`, `a / k` to `a * (1/k)`, and `a // k` to the floor of that. What is constant is
computed, adding zero and multiplying by one leave no trace, and a product with zero is zero.
Divisors have to be constants other than zero.

Every expression that is lowered and every node that is copied from a macro is charged to a budget.
Expansions nest at most `Limit.expansions` deep: the lowering of one level is made from that of the
level inside (`lowerAt`).
-/

namespace SheetRules

variable {α : Type} [Arithmetic α]

/-- Lowering counts the nodes charged so far and ends at the first fault. -/
abbrev Lowering (β : Type) := StateT Nat (Except Fault) β

namespace Lowering

/-- Ends lowering with a fault. -/
def fail {β : Type} (cause : Cause) (span : Span) : Lowering β :=
  fun _ => .error ⟨cause, span⟩

/-- Charges nodes to the budget. -/
def charge (count : Nat) (span : Span) : Lowering Unit := fun used =>
  if used + count > Limit.nodes then .error ⟨.treeTooLarge, span⟩ else .ok ((), used + count)

/-- A constant, which has to be a number. -/
def constant (value : α) (span : Span) : Lowering (Tree α) :=
  match Arithmetic.nonFinite? value with
  | some reason => fail (.nonFiniteConstant reason) span
  | none => pure (.static value)

/-- The tree is a constant of a given value. -/
def isConstant (tree : Tree α) (value : α) : Bool :=
  match tree.constant? with
  | some k => Arithmetic.same k value
  | none => false

/-- The sum of two trees. -/
def add (left right : Tree α) : Tree α := .combine .add [left, right]

/-- The product of two trees. -/
def multiply (left right : Tree α) : Tree α := .combine .multiply [left, right]

/-- A tree with the opposite sign. -/
def negated (tree : Tree α) : Tree α := multiply tree (.static Arithmetic.minusOne)

/-- The value of an operator with two constant operands. -/
def fold (op : BinaryOp) (a b : α) (divisor : Span) : Except Fault α :=
  let quotient := fun (finish : α → α) =>
    if Arithmetic.same b Arithmetic.zero then .error ⟨.divisionByZero op, divisor⟩
    else .ok (finish (Arithmetic.div a b))
  match op with
  | .add => .ok (Arithmetic.add a b)
  | .sub => .ok (Arithmetic.sub a b)
  | .mul => .ok (Arithmetic.mul a b)
  | .div => quotient id
  | .floorDiv => quotient Arithmetic.floor

/-- A sum of which at most one operand is constant. -/
def sum (left right : Tree α) : Tree α :=
  if isConstant right Arithmetic.zero then left
  else if isConstant left Arithmetic.zero then right
  else add left right

/-- A difference of which at most one operand is constant. -/
def difference (left right : Tree α) : Tree α :=
  match right.constant? with
  | some k =>
    if Arithmetic.same k Arithmetic.zero then left else add left (.static (Arithmetic.neg k))
  | none => add left (negated right)

/-- A product of which at most one operand is constant. -/
def product (left right : Tree α) : Tree α :=
  if isConstant left Arithmetic.zero || isConstant right Arithmetic.zero then
    .static Arithmetic.zero
  else if isConstant right Arithmetic.one then left
  else if isConstant left Arithmetic.one then right
  else multiply left right

/-- A quotient whose dividend is not constant; `divisor` is the span of the divisor. -/
def quotient (op : BinaryOp) (left right : Tree α) (divisor : Span) : Lowering (Tree α) :=
  match right.constant? with
  | none => fail (.dynamicDivisor op) divisor
  | some k =>
    if Arithmetic.same k Arithmetic.zero then fail (.divisionByZero op) divisor
    else if Arithmetic.same k Arithmetic.one then pure left
    else do
      let reciprocal ← constant (Arithmetic.div Arithmetic.one k) divisor
      pure (multiply left reciprocal)

/-- An operator with its operands; `divisor` is the span of the right one. -/
def binary (left : Tree α) (op : BinaryOp) (right : Tree α) (divisor span : Span) :
    Lowering (Tree α) :=
  match left.constant?, right.constant? with
  | some a, some b => do
    let value ← fold op a b divisor
    constant value span
  | _, _ =>
    match op with
    | .add => pure (sum left right)
    | .sub => pure (difference left right)
    | .mul => pure (product left right)
    | .div => quotient .div left right divisor
    | .floorDiv => do
      let scaled ← quotient .floorDiv left right divisor
      pure (.floor scaled)

/-- An expression with the opposite sign. -/
def negate (tree : Tree α) (span : Span) : Lowering (Tree α) :=
  match tree.constant? with
  | some k => constant (Arithmetic.neg k) span
  | none => pure (negated tree)

/-- The constants that the operands are, if all of them are constant. -/
def constants? : List (Tree α) → Option (List α)
  | [] => some []
  | t :: rest => do
    let v ← t.constant?
    let vs ← constants? rest
    pure (v :: vs)

/-- A function with its operands, of which there are as many as it takes. -/
def apply (f : Builtin) (operands : List (Tree α)) (span : Span) : Lowering (Tree α) :=
  match f, constants? operands, operands with
  | .floor, some (v :: _), _ => constant (Arithmetic.floor v) span
  | .min, some (v :: rest), _ => constant (rest.foldl Arithmetic.least v) span
  | .max, some (v :: rest), _ => constant (rest.foldl Arithmetic.greatest v) span
  | .min, _, operands => pure (.combine .min operands)
  | .max, _, operands => pure (.combine .max operands)
  | .floor, _, operand :: _ => pure (.floor operand)
  | .floor, _, [] => fail (.wrongArgumentCount .floor 0) span

/-- The tree that a plain macro name stands for. Its nodes are charged, since they are copied. -/
def useMacro (scope : Scope α) (name : Ident) : Lowering (Tree α) :=
  match scope.lookup? name.text with
  | some tree => do
    charge tree.size name.span
    pure tree
  | none =>
    let hint :=
      if name.text ∈ scope.macros.failed then some MacroHint.failed
      else if (scope.macros.functional? name.text).isSome then some MacroHint.functional
      else none
    fail (.undefinedMacro name.text hint) name.span

/-- The functional macro of a given name. -/
def functional (scope : Scope α) (name : Ident) : Lowering MacroDef :=
  match scope.macros.functional? name.text with
  | some definition => pure definition
  | none =>
    let hint := if (scope.lookup? name.text).isSome then some MacroHint.static else none
    fail (.undefinedMacroCall name.text hint) name.span

/-- How the body of a functional macro is lowered in the scope of its arguments; the name and the
span are those of the call. -/
abbrev Expand (α : Type) := Ident → Span → Scope α → Expr → Lowering (Tree α)

mutual

/-- Lowers an expression; the bodies of functional macros are lowered by `expand`. -/
def lowerWith (expand : Expand α) (scope : Scope α) : Expr → Lowering (Tree α)
  | .number value span => do
    charge 1 span
    constant (Arithmetic.ofFloat value) span
  | .path p => do
    charge 1 p.span
    pure (.dynamic p.text)
  | .paren inner span => do
    charge 1 span
    lowerWith expand scope inner
  | .neg inner span => do
    charge 1 span
    let tree ← lowerWith expand scope inner
    negate tree span
  | .binary left op right span => do
    charge 1 span
    let lhs ← lowerWith expand scope left
    let rhs ← lowerWith expand scope right
    binary lhs op rhs right.span span
  | .call name args span => do
    charge 1 span
    match Builtin.ofName? name.text with
    | none => fail (.undefinedFunction name.text) name.span
    | some f =>
      if f.takes args.length then
        let operands ← lowerAllWith expand scope args
        apply f operands span
      else fail (.wrongArgumentCount f args.length) span
  | .macroUse name span => do
    charge 1 span
    useMacro scope name
  | .macroCall name args span => do
    charge 1 span
    let definition ← functional scope name
    let values ← lowerAllWith expand scope args
    let params := definition.params.getD []
    if params.length = values.length then
      expand name span (scope.enter params values) definition.body
    else fail (.macroArity name.text params.length values.length) span

/-- Lowers several expressions from left to right. -/
def lowerAllWith (expand : Expand α) (scope : Scope α) : List Expr → Lowering (List (Tree α))
  | [] => pure []
  | e :: rest => do
    let tree ← lowerWith expand scope e
    let trees ← lowerAllWith expand scope rest
    pure (tree :: trees)

end

/-- No further expansion may be entered. -/
def noExpansion : Expand α := fun name span _ _ => fail (.expansionTooDeep name.text) span

/-- Lowers an expression in which `levels` nested expansions may be entered. -/
def lowerAt : (levels : Nat) → Scope α → Expr → Lowering (Tree α)
  | 0 => lowerWith noExpansion
  | levels + 1 => lowerWith fun _ _ => lowerAt levels

/-- Lowers the expression of an item with a budget of its own. The tree must not be too deep. -/
def lower (macros : Macros α) (e : Expr) : Except Fault (Tree α) := do
  let (tree, _) ← lowerAt Limit.expansions (Scope.top macros) e 0
  if tree.depth > Tree.depthLimit then .error ⟨.treeTooDeep tree.depth, e.span⟩ else .ok tree

end Lowering

end SheetRules
