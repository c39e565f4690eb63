import SheetRules.Diagnostic.Basic
import SheetRules.Json.Skip
import SheetRules.Json.Writer

/-!
# Reports as JSON

A diagnostic is an object with a field for each part, the four numbers of its span among them, and
the help only if there is any. A report is an object, or a list, of its entries and their number.
When a report is read, every field but the help has to be there once. Fields of other names have no
effect: in a report they are passed over, in a diagnostic they are read like the others.
-/

namespace SheetRules

open Json (Written)

/-- A natural number as a JSON value. -/
def Json.ofNat (n : Nat) : Json := .number (.int n)

namespace Span

/-- The fields of a span. -/
def jsonFields (s : Span) : Json.Fields :=
  [("line", .ofNat s.line), ("column", .ofNat s.column),
    ("end_line", .ofNat s.endLine), ("end_column", .ofNat s.endColumn)]

/-- A span as a JSON value. -/
def toJson (s : Span) : Json := .object s.jsonFields

end Span

namespace Diagnostic

/-- A diagnostic as a JSON value. -/
def toJson (d : Diagnostic) : Json :=
  .object (
    [("file", .text d.file), ("code", .ofNat d.code), ("category", .text d.category.text),
      ("message", .text d.message)] ++
    d.span.jsonFields ++
    [("source_line", .text d.sourceLine)] ++
    (d.help?.map fun help => ("suggestion", Json.text help)).toList)

/-- The members of an object as it is written. -/
abbrev Members := List (String × Written)

/-- The value of a member that occurs at most once. -/
def optional? (members : Members) (name : String) : Option (Option Written) :=
  match members.filter fun m => m.1 == name with
  | [] => some none
  | [m] => some (some m.2)
  | _ => none

/-- The value of a member that occurs exactly once. -/
def required? (members : Members) (name : String) : Option Written := do
  (← optional? members name)

/-- Reads a text. -/
def readText? : Written → Option String
  | .text s => some s
  | _ => none

/-- Reads a natural number below a limit. -/
def readNat? (limit : Nat) : Written → Option Nat
  | .number (.int (.ofNat n)) => if n < limit then some n else none
  | _ => none

/-- Reads a category: its name, or an object whose only member has that name and the value null. -/
def readCategory? : Written → Option Category
  | .text name => Category.ofText? name
  | .object [(name, .null)] => Category.ofText? name
  | _ => none

/-- Reads the help, which may be null. -/
def readHelp? : Option Written → Option (Option String)
  | none => some none
  | some .null => some none
  | some (.text s) => some (some s)
  | some _ => none

/-- Reads a diagnostic. Codes have 16 bits, and the numbers of a span 32. -/
def read? : Written → Option Diagnostic
  | .object members => do
    let text := fun name => do readText? (← required? members name)
    let place := fun name => do readNat? (Nat.pow 2 32) (← required? members name)
    let file ← text "file"
    let code ← readNat? (Nat.pow 2 16) (← required? members "code")
    let category ← readCategory? (← required? members "category")
    let message ← text "message"
    let span : Span :=
      ⟨← place "line", ← place "column", ← place "end_line", ← place "end_column"⟩
    let sourceLine ← text "source_line"
    let help? ← readHelp? (← optional? members "suggestion")
    pure ⟨file, code, category, message, span, sourceLine, help?⟩
  | _ => none

end Diagnostic

namespace Report

/-- A report as a JSON value. -/
def toJson (r : Report Diagnostic) : Json :=
  .object [("errors", .list (r.entries.map Diagnostic.toJson)), ("total_errors", .ofNat r.total)]

/-- Why a text is no report. -/
inductive Fault where
  | notJson (fault : Json.Fault)
  | wrongShape
deriving DecidableEq, Repr

/-- A part that has to be of the right shape. -/
def shaped {α : Type} : Option α → Except Fault α
  | some a => .ok a
  | none => .error .wrongShape

/-- The entries of a report. -/
def readEntries? : Written → Option (List Diagnostic)
  | .list items => items.mapM Diagnostic.read?
  | _ => none

/-- The number of entries, which has 64 bits. -/
def readTotal? (v : Written) : Option Nat :=
  Diagnostic.readNat? (Nat.pow 2 64) v

/-- The parts of a report read so far. -/
structure Parts where
  entries? : Option (List Diagnostic) := none
  total? : Option Nat := none

/-- Reads the value of a member after its name. -/
def readPart : Json.ReadOr Fault Written := fun input => do
  let rest ← (Json.readColon input).mapError .notJson
  (Json.readNested (Json.nestingLimit - 1) rest).mapError .notJson

/-- Reads a member of a report after its name. -/
def readMember (p : Parts) (name : String) : Json.ReadOr Fault Parts := fun input => do
  if name = "errors" then
    if p.entries?.isSome then .error .wrongShape
    else
      let (v, rest) ← readPart input
      .ok ({ p with entries? := some (← shaped (readEntries? v)) }, rest)
  else if name = "total_errors" then
    if p.total?.isSome then .error .wrongShape
    else
      let (v, rest) ← readPart input
      .ok ({ p with total? := some (← shaped (readTotal? v)) }, rest)
  else
    let rest ← (Json.readColon input).mapError .notJson
    .ok (p, ← (Json.skipValue rest).mapError .notJson)

/-- Reads the parts of a report, which is an object or a list. -/
def readParts : Json.ReadOr Fault Parts := fun input =>
  match Json.skipBlanks input with
  | '\x7b' :: rest => Json.foldMembers .notJson readMember (rest.length + 1) true {} rest
  | other => do
    let (v, rest) ← (Json.readNested Json.nestingLimit other).mapError .notJson
    match v with
    | .list [entries, total] => .ok (⟨readEntries? entries, readTotal? total⟩, rest)
    | _ => .error .wrongShape

/-- Reads a report. -/
def load (text : String) : Except Fault (Report Diagnostic) := do
  let (p, rest) ← readParts text.toList
  if (Json.skipBlanks rest).isEmpty then
    .ok ⟨← shaped p.entries?, ← shaped p.total?⟩
  else .error (.notJson .malformed)

end Report

end SheetRules
