import SheetRules.Feature.Basic

/-!
# What occurs in an expression

The attribute paths and the macros that an expression is written with.
-/

namespace SheetRules

namespace Expr

mutual

/-- The attribute paths in an expression, from left to right. -/
def paths : Expr → List Path
  | .number _ _ => []
  | .path p => [p]
  | .binary left _ right _ => left.paths ++ right.paths
  | .neg inner _ => inner.paths
  | .call _ args _ => pathsOfAll args
  | .macroUse _ _ => []
  | .macroCall _ args _ => pathsOfAll args
  | .paren inner _ => inner.paths

/-- The attribute paths in several expressions. -/
def pathsOfAll : List Expr → List Path
  | [] => []
  | e :: rest => e.paths ++ pathsOfAll rest

end

mutual

/-- The expression uses no macro. -/
def isMacroFree : Expr → Bool
  | .number _ _ => true
  | .path _ => true
  | .binary left _ right _ => left.isMacroFree && right.isMacroFree
  | .neg inner _ => inner.isMacroFree
  | .call _ args _ => areMacroFree args
  | .macroUse _ _ => false
  | .macroCall _ _ _ => false
  | .paren inner _ => inner.isMacroFree

/-- None of the expressions uses a macro. -/
def areMacroFree : List Expr → Bool
  | [] => true
  | e :: rest => e.isMacroFree && areMacroFree rest

end

mutual

/-- The names of the macros that are used without arguments in an expression. -/
def plainNames : Expr → List String
  | .number _ _ => []
  | .path _ => []
  | .binary left _ right _ => left.plainNames ++ right.plainNames
  | .neg inner _ => inner.plainNames
  | .call _ args _ => plainNamesOfAll args
  | .macroUse name _ => [name.text]
  | .macroCall _ args _ => plainNamesOfAll args
  | .paren inner _ => inner.plainNames

/-- The names of the macros that are used without arguments in several expressions. -/
def plainNamesOfAll : List Expr → List String
  | [] => []
  | e :: rest => e.plainNames ++ plainNamesOfAll rest

end

mutual

/-- The names of the functional macros that are called in an expression. -/
def callNames : Expr → List String
  | .number _ _ => []
  | .path _ => []
  | .binary left _ right _ => left.callNames ++ right.callNames
  | .neg inner _ => inner.callNames
  | .call _ args _ => callNamesOfAll args
  | .macroUse _ _ => []
  | .macroCall name args _ => name.text :: callNamesOfAll args
  | .paren inner _ => inner.callNames

/-- The names of the functional macros that are called in several expressions. -/
def callNamesOfAll : List Expr → List String
  | [] => []
  | e :: rest => e.callNames ++ callNamesOfAll rest

end

end Expr

/-- The definition that an item is, if it is one. -/
def Item.definition? : Item → Option MacroDef
  | .define d => some d
  | .rule _ => none

/-- The rule that an item is, if it is one. -/
def Item.rule? : Item → Option Rule
  | .define _ => none
  | .rule r => some r

namespace Feature

/-- The definitions of macros in a feature, in order. -/
def definitions (feature : Feature) : List MacroDef :=
  feature.items.filterMap Item.definition?

/-- The rules of a feature, in order. -/
def rules (feature : Feature) : List Rule :=
  feature.items.filterMap Item.rule?

end Feature

end SheetRules
