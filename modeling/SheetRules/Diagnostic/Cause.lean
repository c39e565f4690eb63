import SheetRules.Feature.Basic
import SheetRules.Tree.Basic

/-!
# Causes of diagnostics

Whatever can be wrong with a feature is one constructor of `Cause`. Its code, its message and its
hint are functions of the cause, so the wording stands here alone.
-/

namespace SheetRules

namespace Limit

/-- The number of levels of a single expression. -/
def exprLevels : Nat := 64

/-- The number of nested expansions of functional macros. -/
def expansions : Nat := 32

/-- The number of nodes that may be made for one rule or static macro. -/
def nodes : Nat := 100000

end Limit

/-- What the grammar asks for at a place. -/
inductive Expectation where
  | item
  | endOfLine
  | symbol (kind : Kind)
  | name
  | precedence
  | ruleOperator
  | segment
  | expression

/-- The expectation as it is named in messages. -/
def Expectation.text : Expectation → String
  | .item => "a rule ('0.5: target = expr') or a macro definition ('!name = expr')"
  | .endOfLine => "end of line"
  | .symbol kind => "'" ++ kind.text ++ "'"
  | .name => "identifier"
  | .precedence => "rule precedence"
  | .ruleOperator => "'=' or '++' after rule target"
  | .segment => "path segment"
  | .expression => "expression"

/-- What is known about a macro that is not defined. -/
inductive MacroHint where
  | failed
  | functional
  | static

/-- What can be wrong with a feature. -/
inductive Cause where
  | unexpectedCharacter (text : String)
  | bareDollar
  | numberOutOfRange (text : String)
  | brokenTemplate
  | expected (what : Expectation) (found : Kind)
  | nestedTooDeep
  | undefinedMacro (name : String) (hint : Option MacroHint)
  | undefinedMacroCall (name : String) (hint : Option MacroHint)
  | repeatedParam (param macroName : String)
  | macroArity (name : String) (params args : Nat)
  | expansionTooDeep (name : String)
  | divisionByZero (op : BinaryOp)
  | dynamicDivisor (op : BinaryOp)
  | nonFiniteConstant (value : NonFinite)
  | undefinedFunction (name : String)
  | wrongArgumentCount (function : Builtin) (found : Nat)
  | treeTooDeep (depth : Nat)
  | treeTooLarge

namespace Cause

/-- The code of a cause. -/
def code : Cause → Nat
  | .expected _ _ => 100
  | .unexpectedCharacter _ => 101
  | .bareDollar => 101
  | .numberOutOfRange _ => 102
  | .brokenTemplate => 103
  | .undefinedMacro _ _ => 200
  | .undefinedMacroCall _ _ => 200
  | .repeatedParam _ _ => 201
  | .macroArity _ _ _ => 202
  | .expansionTooDeep _ => 203
  | .divisionByZero _ => 300
  | .dynamicDivisor _ => 301
  | .nonFiniteConstant _ => 302
  | .undefinedFunction _ => 400
  | .wrongArgumentCount _ _ => 401
  | .nestedTooDeep => 500
  | .treeTooDeep _ => 501
  | .treeTooLarge => 502

/-- The message for a cause. -/
def message : Cause → String
  | .unexpectedCharacter text => "Unexpected character '" ++ text ++ "'"
  | .bareDollar =>
    "Unexpected character '$'; templates are written " ++ templateText "name"
  | .numberOutOfRange text => "Number literal '" ++ text ++ "' is out of range"
  | .brokenTemplate => "Template must be a single name in " ++ templateText "..."
  | .expected what found => "expected " ++ what.text ++ ", got '" ++ found.text ++ "'"
  | .nestedTooDeep => "maximum expression nesting depth is " ++ toString Limit.exprLevels
  | .undefinedMacro name _ => "Macro !" ++ name ++ " is not defined"
  | .undefinedMacroCall name _ => "Macro !" ++ name ++ "() is not defined"
  | .repeatedParam param macroName =>
    "Argument '" ++ param ++ "' appears more than once in !" ++ macroName ++
      "(); argument names must be unique"
  | .macroArity name params args =>
    "Incorrect number of arguments passed to !" ++ name ++ "(): expected " ++ toString params ++
      ", got " ++ toString args
  | .expansionTooDeep name =>
    "Expanding !" ++ name ++ "() exceeds the maximum macro nesting depth of " ++
      toString Limit.expansions
  | .divisionByZero op => "Cannot divide by zero with '" ++ op.text ++ "'"
  | .dynamicDivisor op =>
    "Cannot divide by a dynamic expression with '" ++ op.text ++ "'; divisors must be constant"
  | .nonFiniteConstant value => "Constant expression evaluates to " ++ value.text
  | .undefinedFunction name => "Function " ++ name ++ "() is not defined"
  | .wrongArgumentCount function found =>
    function.name ++ "() takes " ++ function.arity ++ ", got " ++ toString found
  | .treeTooDeep depth =>
    "Expression compiles to a tree " ++ toString depth ++ " levels deep; the limit is " ++
      toString Tree.depthLimit
  | .treeTooLarge => "Macro expansion produces more than " ++ toString Limit.nodes ++ " nodes"

/-- What is said about a macro of a given name. -/
def hintText (name : String) : MacroHint → String
  | .failed => "the definition of !" ++ name ++ " failed to compile"
  | .functional => "!" ++ name ++ " is a functional macro; call it as !" ++ name ++ "(...)"
  | .static => "!" ++ name ++ " is a static macro; use it without arguments"

/-- The help that goes with a cause. -/
def help? : Cause → Option String
  | .undefinedMacro name hint => hint.map (hintText name)
  | .undefinedMacroCall name hint => hint.map (hintText name)
  | .undefinedFunction _ =>
    some ("available functions: " ++ ", ".intercalate (Builtin.all.map Builtin.name))
  | _ => none

end Cause

/-- A cause and where it is. -/
structure Fault where
  cause : Cause
  span : Span

end SheetRules
