import SheetRules.Json.Basic
import SheetRules.Tree.Basic

/-!
# Why a statement cannot be executed

Each failure of reading, evaluating or writing is one constructor here; the wording is in
`RunError.message` alone.
-/

namespace SheetRules

/-- What is wrong with a path in a store. -/
inductive PathFault where
  | emptySegment
  | missing (segment : String)
  | notObject (segment : String) (found : Json.Kind)
  | notNumber (segment : String) (found : Json.Kind)
  | notList (segment : String) (found : Json.Kind)
deriving DecidableEq, Repr

/-- The reason as it is given in messages. -/
def PathFault.reason : PathFault → String
  | .emptySegment => "empty path segment"
  | .missing segment => "'" ++ segment ++ "' is missing"
  | .notObject segment found => "'" ++ segment ++ "' is " ++ found.phrase ++ ", not an object"
  | .notNumber segment found => "'" ++ segment ++ "' is " ++ found.phrase ++ ", not a number"
  | .notList segment found => "'" ++ segment ++ "' is " ++ found.phrase ++ ", not a list"

/-- Why a statement cannot be executed. -/
inductive RunError where
  /-- A path that is read does not lead to a number. -/
  | unresolved (path : String) (fault : PathFault)
  /-- A target cannot be written. -/
  | invalidTarget (path : String) (fault : PathFault)
  /-- A minimum or maximum of nothing. -/
  | emptyOperands (op : Combine)
  /-- A node has a value that is no number. -/
  | nodeTrap (op : Operator) (value : NonFinite)
  /-- A value that is no number was to be stored. -/
  | storeTrap (path : String) (value : NonFinite)
  /-- The tree is deeper than the limit. -/
  | tooDeep (limit : Nat)
deriving DecidableEq, Repr

/-- The message for a failure. -/
def RunError.message : RunError → String
  | .unresolved path fault => "unresolved path '" ++ path ++ "': " ++ fault.reason
  | .invalidTarget path fault => "invalid target '" ++ path ++ "': " ++ fault.reason
  | .emptyOperands op => op.tag ++ " requires at least one operand"
  | .nodeTrap op value => "arithmetic trap: " ++ op.tag ++ " produced " ++ value.text
  | .storeTrap path value =>
    "arithmetic trap: cannot store " ++ value.text ++ " at '" ++ path ++ "'"
  | .tooDeep limit => "expression nesting exceeds the maximum depth of " ++ toString limit

end SheetRules
