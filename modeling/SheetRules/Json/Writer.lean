import SheetRules.Json.Basic
import SheetRules.Number.Format

/-!
# Writing JSON

Two forms: compact without blanks, and pretty with two blanks for each level. Fields are written
in the order of the list. Text is escaped only where JSON asks for it.
-/

namespace SheetRules

namespace Json

/-- The hexadecimal digits of escapes. -/
def hexDigit (n : Nat) : Char :=
  (Nat.toDigits 16 (n % 16)).headD '0'

/-- The characters written for one character of a text. -/
def escape (c : Char) : List Char :=
  if c = '"' then ['\\', '"']
  else if c = '\\' then ['\\', '\\']
  else if c = '\n' then ['\\', 'n']
  else if c = '\r' then ['\\', 'r']
  else if c = '\t' then ['\\', 't']
  else if c = Char.ofNat 8 then ['\\', 'b']
  else if c = Char.ofNat 12 then ['\\', 'f']
  else if c.toNat < 32 then ['\\', 'u', '0', '0', hexDigit (c.toNat / 16), hexDigit c.toNat]
  else [c]

/-- A text in quotes. -/
def quote (s : String) : String :=
  "\"" ++ String.ofList (s.toList.flatMap escape) ++ "\""

/-- The text of a number. -/
def Number.text : Number → String
  | .int n => toString n
  | .float x => NumberFormat.json.text x

/-- The text of a value without parts. -/
def scalarText : Json → String
  | .null => "null"
  | .bool b => if b then "true" else "false"
  | .number n => n.text
  | .text s => quote s
  | .list _ => "[]"
  | .object _ => "\x7b\x7d"

mutual

/-- A value without blanks. -/
def compact : Json → String
  | .list items => "[" ++ ",".intercalate (compactItems items) ++ "]"
  | .object fields => "\x7b" ++ ",".intercalate (compactFields fields) ++ "\x7d"
  | v => v.scalarText

/-- The items of a list, each without blanks. -/
def compactItems : List Json → List String
  | [] => []
  | v :: rest => v.compact :: compactItems rest

/-- The fields of an object, each without blanks. -/
def compactFields : List (String × Json) → List String
  | [] => []
  | (k, v) :: rest => (quote k ++ ":" ++ v.compact) :: compactFields rest

end

/-- The start of a line at a given level. -/
def indentation (level : Nat) : String :=
  String.ofList (List.replicate (2 * level) ' ')

/-- The lines of a container at a given level, between its brackets. -/
def block (left right : String) (level : Nat) (lines : List String) : String :=
  left ++ "\n" ++ ",\n".intercalate lines ++ "\n" ++ indentation level ++ right

mutual

/-- A value whose first line stands at the given level. -/
def prettyAt (level : Nat) : Json → String
  | .list (v :: rest) => block "[" "]" level (prettyItems (level + 1) (v :: rest))
  | .object (f :: rest) => block "\x7b" "\x7d" level (prettyFields (level + 1) (f :: rest))
  | v => v.scalarText

/-- The items of a list, one a line. -/
def prettyItems (level : Nat) : List Json → List String
  | [] => []
  | v :: rest => (indentation level ++ v.prettyAt level) :: prettyItems level rest

/-- The fields of an object, one a line. -/
def prettyFields (level : Nat) : List (String × Json) → List String
  | [] => []
  | (k, v) :: rest =>
    (indentation level ++ quote k ++ ": " ++ v.prettyAt level) :: prettyFields level rest

end

/-- A value over several lines, two blanks for each level. -/
def pretty (v : Json) : String :=
  v.prettyAt 0

end Json

end SheetRules
