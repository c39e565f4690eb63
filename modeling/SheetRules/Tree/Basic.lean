/-!
# Operand trees

The operand of a statement is a tree over constants and attribute paths. Its operators are four
ways to combine any number of operands, and the floor of a single one. The constants are of any
type, so that a tree can be read over doubles or over exact numbers.
-/

namespace SheetRules

/-- The ways to combine a list of operands. -/
inductive Combine where
  | add
  | multiply
  | min
  | max
deriving DecidableEq, Repr

/-- An operand tree with constants of type `α`. -/
inductive Tree (α : Type) where
  | static (value : α)
  | dynamic (path : String)
  | combine (op : Combine) (operands : List (Tree α))
  | floor (operand : Tree α)

/-- The operator of a node. -/
inductive Operator where
  | static
  | dynamic
  | combine (op : Combine)
  | floor
deriving DecidableEq, Repr

namespace Combine

/-- The tag of a combination. -/
def tag : Combine → String
  | .add => "ADD"
  | .multiply => "MULTIPLY"
  | .min => "MIN"
  | .max => "MAX"

end Combine

namespace Operator

/-- The tag by which documents and messages name an operator. -/
def tag : Operator → String
  | .static => "STATIC_VALUE"
  | .dynamic => "DYNAMIC_VALUE"
  | .combine op => op.tag
  | .floor => "FLOOR"

/-- All operators. -/
def all : List Operator :=
  [.combine .add, .combine .min, .combine .max, .floor, .combine .multiply, .dynamic, .static]

/-- The operator with a given tag. -/
def ofTag? (tag : String) : Option Operator :=
  all.find? fun op => op.tag == tag

end Operator

namespace Tree

variable {α : Type}

/-- The operator of the root. -/
def operator : Tree α → Operator
  | .static _ => .static
  | .dynamic _ => .dynamic
  | .combine op _ => .combine op
  | .floor _ => .floor

/-- The value of a tree that is a single constant. -/
def constant? : Tree α → Option α
  | .static v => some v
  | _ => none

mutual

/-- The number of nodes on the longest way down from the root. -/
def depth : Tree α → Nat
  | .static _ => 1
  | .dynamic _ => 1
  | .combine _ operands => 1 + deepest operands
  | .floor operand => 1 + operand.depth

/-- The depth of the deepest of several trees, zero if there is none. -/
def deepest : List (Tree α) → Nat
  | [] => 0
  | t :: rest => max t.depth (deepest rest)

end

mutual

/-- The number of nodes. -/
def size : Tree α → Nat
  | .static _ => 1
  | .dynamic _ => 1
  | .combine _ operands => 1 + totalSize operands
  | .floor operand => 1 + operand.size

/-- The number of nodes of several trees together. -/
def totalSize : List (Tree α) → Nat
  | [] => 0
  | t :: rest => t.size + totalSize rest

end

/-- The greatest depth of the tree of a statement. -/
def depthLimit : Nat := 60

end Tree

/-- What a statement does with its value. -/
inductive Action where
  /-- The value replaces what is at the target. -/
  | set
  /-- The value is appended to the list at the target. -/
  | push
deriving DecidableEq, Repr

namespace Action

/-- The tag by which documents name an action. -/
def tag : Action → String
  | .set => "SET"
  | .push => "PUSH"

/-- The action with a given tag. -/
def ofTag? (tag : String) : Option Action :=
  [Action.set, .push].find? fun action => action.tag == tag

end Action

/-- A statement: evaluate the operand and write its value to the target. Statements are executed
in the order of their precedence. -/
structure Statement where
  precedence : Float
  target : String
  action : Action
  operand : Tree Float

end SheetRules
