import SheetRules.Number.Arithmetic
import SheetRules.Store.RunError

/-!
# Evaluating trees

A tree is evaluated over a way to read attribute paths. All operands of a node are evaluated, from
left to right, before they are combined; the value of every node has to be a number. The depth of
the tree is limited, and the limit is checked on the way down.
-/

namespace SheetRules

variable {α : Type} [Arithmetic α]

/-- Combines the values of operands. Sums and products of nothing are zero and one; a minimum or
maximum needs a value. -/
def Combine.apply (op : Combine) (values : List α) : Except RunError α :=
  match op, values with
  | .add, values => .ok (values.foldl Arithmetic.add Arithmetic.zero)
  | .multiply, values => .ok (values.foldl Arithmetic.mul Arithmetic.one)
  | .min, v :: rest => .ok (rest.foldl Arithmetic.least v)
  | .max, v :: rest => .ok (rest.foldl Arithmetic.greatest v)
  | op, [] => .error (.emptyOperands op)

/-- The value of a node, which has to be a number. -/
def Operator.checked (op : Operator) (value : α) : Except RunError α :=
  match Arithmetic.nonFinite? value with
  | some reason => .error (.nodeTrap op reason)
  | none => .ok value

namespace Tree

mutual

/-- Evaluates a tree of which `left` levels may still be entered; `limit` is the number of levels
that the whole tree may have. -/
def evalWithin (limit : Nat) (read : String → Except RunError α) :
    Tree α → (left : Nat) → Except RunError α
  | _, 0 => .error (.tooDeep limit)
  | .static v, _ + 1 => Operator.static.checked v
  | .dynamic path, _ + 1 => do
    let v ← read path
    Operator.dynamic.checked v
  | .combine op operands, left + 1 => do
    let values ← evalAllWithin limit read operands left
    let v ← op.apply values
    (Operator.combine op).checked v
  | .floor operand, left + 1 => do
    let v ← operand.evalWithin limit read left
    Operator.floor.checked (Arithmetic.floor v)

/-- Evaluates several trees from left to right. -/
def evalAllWithin (limit : Nat) (read : String → Except RunError α) :
    List (Tree α) → (left : Nat) → Except RunError (List α)
  | [], _ => .ok []
  | t :: rest, left => do
    let v ← t.evalWithin limit read left
    let vs ← evalAllWithin limit read rest left
    .ok (v :: vs)

end

/-- Evaluates a tree of at most `limit` levels. -/
def eval (limit : Nat) (read : String → Except RunError α) (tree : Tree α) : Except RunError α :=
  tree.evalWithin limit read limit

end Tree

end SheetRules
