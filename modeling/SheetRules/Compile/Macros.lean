import SheetRules.Feature.Basic
import SheetRules.Tree.Basic

/-!
# Macros in force

The table of macros changes from item to item. A static macro is kept as the tree of its body; a
functional macro is kept as it is written. The two kinds have names of their own, so `!x` and
`!x(...)` may both be defined. While the body of a functional macro is expanded, its arguments stand
in front of the static macros, the innermost expansion first.
-/

namespace SheetRules

/-- Trees bound to names. -/
abbrev Bindings (α : Type) := List (String × Tree α)

/-- The macros that are defined before an item. -/
structure Macros (α : Type) where
  statics : Bindings α
  /-- Static macros whose latest definition failed. -/
  failed : List String
  /-- Functional macros, the latest definition first. -/
  functionals : List MacroDef

namespace Macros

variable {α : Type}

/-- No macro is defined. -/
def empty : Macros α := ⟨[], [], []⟩

/-- Defines a static macro. An earlier definition is replaced, and an earlier failure forgotten. -/
def defineStatic (macros : Macros α) (name : String) (value : Tree α) : Macros α :=
  { macros with
    statics := (name, value) :: macros.statics.filter fun entry => entry.1 ≠ name
    failed := macros.failed.filter fun other => other ≠ name }

/-- Records that the definition of a static macro failed. An earlier definition is dropped. -/
def failStatic (macros : Macros α) (name : String) : Macros α :=
  { macros with
    statics := macros.statics.filter fun entry => entry.1 ≠ name
    failed := name :: macros.failed.filter fun other => other ≠ name }

/-- Defines a functional macro. -/
def defineFunctional (macros : Macros α) (definition : MacroDef) : Macros α :=
  { macros with functionals := definition :: macros.functionals }

/-- The functional macro of a given name. -/
def functional? (macros : Macros α) (name : String) : Option MacroDef :=
  macros.functionals.find? fun definition => definition.name.text == name

end Macros

/-- The macros in force at a place, with the arguments of the expansions around it. -/
structure Scope (α : Type) where
  macros : Macros α
  /-- The arguments of the expansions, the innermost first. -/
  frames : List (Bindings α)

namespace Scope

variable {α : Type}

/-- The scope of an item, outside of any expansion. -/
def top (macros : Macros α) : Scope α := ⟨macros, []⟩

/-- The tree that a plain macro name stands for. -/
def lookup? (scope : Scope α) (name : String) : Option (Tree α) :=
  (scope.frames ++ [scope.macros.statics]).findSome? fun bindings => bindings.lookup name

/-- The scope inside an expansion. -/
def enter (scope : Scope α) (params : List Ident) (values : List (Tree α)) : Scope α :=
  { scope with frames := ((params.map Ident.text).zip values) :: scope.frames }

end Scope

end SheetRules
