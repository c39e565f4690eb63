import SheetRules.Diagnostic.Cause
import SheetRules.Source.Basic

/-!
# Diagnostics and reports

A diagnostic is a fault as it is shown to the author of a feature: with the file, the code and its
category, the message, and the line of the source. A report keeps the first twenty of them and
counts them all.
-/

namespace SheetRules

/-- The categories of diagnostics. -/
inductive Category where
  | grammar
  | macros
  | arithmetic
  | call
  | limit
deriving DecidableEq, Repr

namespace Category

/-- The name of a category. -/
def text : Category → String
  | .grammar => "syntax"
  | .macros => "macro"
  | .arithmetic => "arithmetic"
  | .call => "call"
  | .limit => "structure"

/-- All categories. -/
def all : List Category := [.grammar, .macros, .arithmetic, .call, .limit]

/-- The category of a given name. -/
def ofText? (name : String) : Option Category :=
  all.find? fun category => category.text == name

/-- Codes belong to categories by the hundred. -/
def ofCode (code : Nat) : Category :=
  match code / 100 with
  | 2 => .macros
  | 3 => .arithmetic
  | 4 => .call
  | 5 => .limit
  | _ => .grammar

end Category

/-- The text of a code. -/
def codeText (code : Nat) : String :=
  "E" ++ toString code

/-- A fault as it is shown. -/
structure Diagnostic where
  file : String
  code : Nat
  category : Category
  message : String
  span : Span
  sourceLine : String
  help? : Option String
deriving DecidableEq, Repr

namespace Diagnostic

/-- The diagnostic with a given code; its category follows from the code. -/
def make (file : String) (code : Nat) (message : String) (span : Span) (sourceLine : String)
    (help? : Option String) : Diagnostic :=
  ⟨file, code, Category.ofCode code, message, span, sourceLine, help?⟩

/-- A diagnostic on one line. -/
def text (d : Diagnostic) : String :=
  d.file ++ ":" ++ d.span.text ++ ": " ++ codeText d.code ++ " [" ++ d.category.text ++ "] " ++
    d.message

end Diagnostic

/-- Shows a fault of a source. -/
def Fault.diagnose (source : Source) (fault : Fault) : Diagnostic :=
  Diagnostic.make source.name fault.cause.code fault.cause.message fault.span
    ((source.line? fault.span.line).getD "") fault.cause.help?

/-- Faults or diagnostics, of which only the first ones are kept. -/
structure Report (ε : Type) where
  entries : List ε
  /-- The number of all entries, the kept ones among them. -/
  total : Nat
deriving DecidableEq, Repr

namespace Report

variable {ε : Type}

/-- The number of entries that are kept. -/
def limit : Nat := 20

/-- A report without entries. -/
def empty : Report ε := ⟨[], 0⟩

/-- Something was reported. -/
def hasErrors (r : Report ε) : Bool := 0 < r.total

/-- As much was reported as can be kept. -/
def isFull (r : Report ε) : Bool := limit ≤ r.total

/-- Adds an entry: it is counted, and kept if there is room. -/
def push (r : Report ε) (entry : ε) : Report ε :=
  ⟨if r.entries.length < limit then r.entries ++ [entry] else r.entries, r.total + 1⟩

/-- Changes every entry. -/
def map {δ : Type} (f : ε → δ) (r : Report ε) : Report δ :=
  ⟨r.entries.map f, r.total⟩

/-- The line that counts the entries that were not kept, if there are any. -/
def remainder (r : Report ε) : String :=
  if r.entries.length < r.total then
    "... and " ++ toString (r.total - r.entries.length) ++ " more errors\n"
  else ""

/-- A report with one line for each diagnostic. -/
def text (r : Report Diagnostic) : String :=
  String.join (r.entries.map fun d => d.text ++ "\n") ++ r.remainder

end Report

end SheetRules
