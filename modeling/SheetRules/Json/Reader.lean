import SheetRules.Json.Basic
import SheetRules.Number.Decimal

/-!
# Reading JSON

The reader takes the text from left to right and stops at the first fault, of which it says
whether the text ended too early or is malformed. What it returns is the value *as written*:
members in their order, repeated names included. `Written.toJson` keeps the last of several members
of one name.

Lists and objects are walked by `foldItems` and `foldMembers`, which know nothing of what is made of
the items and members. A record with known fields is read by the same walk: it can refuse a member
as soon as its name is read.

Numbers with a fraction or an exponent go through a 64-bit significand and one scaling by a power
of ten; the result is therefore not always the nearest double.
-/

namespace SheetRules

namespace Json

/-- Why a text is no JSON value. -/
inductive Fault where
  /-- The text ends before the value does. -/
  | ended
  /-- The text goes on in a way no value does. -/
  | malformed
deriving DecidableEq, Repr

/-- A JSON value as it is written. -/
inductive Written where
  | null
  | bool (value : Bool)
  | number (value : Number)
  | text (value : String)
  | list (items : List Written)
  | object (members : List (String × Written))
deriving Inhabited

/-- A step of reading that may fail for the reasons `ε`: from the input to a result and the rest of
the input. -/
abbrev ReadOr (ε α : Type) := List Char → Except ε (α × List Char)

/-- A step of reading that fails only where the text is no JSON value. -/
abbrev Read (α : Type) := ReadOr Fault α

/-- A step of reading as one that may also fail for other reasons. -/
def Read.orFault {ε α : Type} (fault : Fault → ε) (step : Read α) : ReadOr ε α :=
  fun input => (step input).mapError fault

/-- The blanks between the parts of a value. -/
def isBlank (c : Char) : Bool :=
  c == ' ' || c == '\t' || c == '\n' || c == '\r'

/-- The input after leading blanks. -/
def skipBlanks (input : List Char) : List Char :=
  input.dropWhile isBlank

/-- Reads the given characters. -/
def readWord : List Char → List Char → Except Fault (List Char)
  | [], input => .ok input
  | _ :: _, [] => .error .ended
  | w :: word, c :: input => if w = c then readWord word input else .error .malformed

/-! ### Texts -/

/-- The value of a hexadecimal digit. -/
def hexValue? (c : Char) : Option Nat :=
  if c.isDigit then some (c.toNat - '0'.toNat)
  else if 'a' ≤ c ∧ c ≤ 'f' then some (c.toNat - 'a'.toNat + 10)
  else if 'A' ≤ c ∧ c ≤ 'F' then some (c.toNat - 'A'.toNat + 10)
  else none

/-- The number of bytes of an input, counted up to four. -/
def bytesUpToFour (input : List Char) : Nat :=
  (String.ofList (input.take 4)).utf8ByteSize

/-- Reads four hexadecimal digits. An input of fewer than four bytes has ended, whatever they
are. -/
def readHex : Read Nat := fun input =>
  if bytesUpToFour input < 4 then .error .ended
  else match input with
    | a :: b :: c :: d :: rest =>
      match hexValue? a, hexValue? b, hexValue? c, hexValue? d with
      | some x, some y, some z, some w => .ok (((x * 16 + y) * 16 + z) * 16 + w, rest)
      | _, _, _, _ => .error .malformed
    | _ => .error .malformed

/-- Reads the code point after `\u`: one unit, or two that form a surrogate pair. -/
def readCodePoint : Read Char := fun input => do
  let (high, rest) ← readHex input
  if 0xDC00 ≤ high ∧ high ≤ 0xDFFF then .error .malformed
  else if high < 0xD800 ∨ 0xDBFF < high then .ok (Char.ofNat high, rest)
  else
    let rest ← readWord ['\\', 'u'] rest
    let (low, rest) ← readHex rest
    if low < 0xDC00 ∨ 0xDFFF < low then .error .malformed
    else .ok (Char.ofNat (0x10000 + (high - 0xD800) * 0x400 + (low - 0xDC00)), rest)

/-- Reads the character that an escape stands for, after its backslash. -/
def readEscape : Read Char
  | [] => .error .ended
  | '"' :: rest => .ok ('"', rest)
  | '\\' :: rest => .ok ('\\', rest)
  | '/' :: rest => .ok ('/', rest)
  | 'b' :: rest => .ok (Char.ofNat 8, rest)
  | 'f' :: rest => .ok (Char.ofNat 12, rest)
  | 'n' :: rest => .ok ('\n', rest)
  | 'r' :: rest => .ok ('\r', rest)
  | 't' :: rest => .ok ('\t', rest)
  | 'u' :: rest => readCodePoint rest
  | _ :: _ => .error .malformed

/-- Reads a text up to its closing quote, with at most `fuel` characters. -/
def readTextFrom : (fuel : Nat) → Read (List Char)
  | _, [] => .error .ended
  | 0, _ :: _ => .error .malformed
  | fuel + 1, c :: rest =>
    if c = '"' then .ok ([], rest)
    else if c = '\\' then do
      let (x, rest) ← readEscape rest
      let (xs, rest) ← readTextFrom fuel rest
      .ok (x :: xs, rest)
    else if c.toNat < 32 then .error .malformed
    else do
      let (xs, rest) ← readTextFrom fuel rest
      .ok (c :: xs, rest)

/-- Reads a text after its opening quote. -/
def readText : Read String := fun input => do
  let (chars, rest) ← readTextFrom (input.length + 1) input
  .ok (String.ofList chars, rest)

/-! ### Numbers -/

/-- Appends digits to a significand as long as it stays below `2 ^ 64`. Returns the significand
and how many digits were left out. -/
def gather (significand : Nat) : List Char → Nat × Nat
  | [] => (significand, 0)
  | d :: digits =>
    let next := 10 * significand + (d.toNat - '0'.toNat)
    if next < Nat.pow 2 64 then gather next digits else (significand, digits.length + 1)

/-- The double nearest to a power of ten. -/
def powerOfTen (n : Nat) : Float :=
  Decimal.toFloat ⟨1, n⟩

/-- Scales by a power of ten, in steps of `10 ^ 308` where the exponent is below the range of
doubles. A result above that range is malformed. -/
def scale (x : Float) (exponent : Int) : Except Fault Float :=
  if exponent.natAbs ≤ 308 then
    if 0 ≤ exponent then
      let y := x * powerOfTen exponent.natAbs
      if (Double.nonFinite? y).isSome then .error .malformed else .ok y
    else .ok (x / powerOfTen exponent.natAbs)
  else if x == 0 then .ok x
  else if 0 < exponent then .error .malformed
  else scale (x / powerOfTen 308) (exponent + 308)
termination_by (-exponent).toNat
decreasing_by omega

/-- The double written by a sign, a significand and an exponent. -/
def floatOf (negative : Bool) (significand : Nat) (exponent : Int) : Except Fault Number := do
  let x ← scale (Float.ofNat significand) exponent
  .ok (.float (if negative then -x else x))

/-- Reads the digits of a written exponent, which is added to `exponent`. One that does not fit
32 bits gives zero, unless the value would be large. -/
def readExponentDigits (negative : Bool) (significand : Nat) (exponent : Int) (down : Bool) :
    Read Number := fun input =>
  match input with
  | [] => .error .ended
  | c :: _ =>
    if !c.isDigit then .error .malformed
    else
      let value := Decimal.ofDigits (input.takeWhile Char.isDigit)
      let rest := input.dropWhile Char.isDigit
      if value < Nat.pow 2 31 then do
        let x ← floatOf negative significand (if down then exponent - value else exponent + value)
        .ok (x, rest)
      else if significand ≠ 0 && !down then .error .malformed
      else .ok (.float (if negative then -0.0 else 0.0), rest)

/-- Reads a written exponent after its mark. -/
def readExponent (negative : Bool) (significand : Nat) (exponent : Int) : Read Number
  | '+' :: rest => readExponentDigits negative significand exponent false rest
  | '-' :: rest => readExponentDigits negative significand exponent true rest
  | rest => readExponentDigits negative significand exponent false rest

/-- Reads what may follow the digits of a number with a fraction. -/
def readAfterFraction (negative : Bool) (significand : Nat) (exponent : Int) : Read Number
  | 'e' :: rest => readExponent negative significand exponent rest
  | 'E' :: rest => readExponent negative significand exponent rest
  | rest => do
    let x ← floatOf negative significand exponent
    .ok (x, rest)

/-- Reads the digits after the point. Those that no longer fit the significand have no effect. -/
def readFraction (negative : Bool) (significand : Nat) (exponent : Int) : Read Number
  | [] => .error .ended
  | input =>
    let digits := input.takeWhile Char.isDigit
    let (more, dropped) := gather significand digits
    if digits.isEmpty then .error .malformed
    else
      readAfterFraction negative more (exponent - ((digits.length - dropped : Nat) : Int))
        (input.dropWhile Char.isDigit)

/-- An integer of 64 bits, or the nearest double where it does not fit. A negative zero is a
double. -/
def integerOf (negative : Bool) (significand : Nat) : Number :=
  if negative then
    if 0 < significand ∧ significand ≤ Nat.pow 2 63 then .int (-(significand : Int))
    else .float (-(Float.ofNat significand))
  else .int significand

/-- Reads what may follow the integer digits of a number. -/
def readAfterInteger (negative : Bool) (significand : Nat) (dropped : Nat) : Read Number
  | '.' :: rest => readFraction negative significand dropped rest
  | 'e' :: rest => readExponent negative significand dropped rest
  | 'E' :: rest => readExponent negative significand dropped rest
  | rest =>
    if dropped = 0 then .ok (integerOf negative significand, rest)
    else do
      let x ← floatOf negative significand dropped
      .ok (x, rest)

/-- Reads a number after its sign. A zero is not followed by another digit. -/
def readUnsigned (negative : Bool) : Read Number := fun input =>
  let digits := input.takeWhile Char.isDigit
  let rest := input.dropWhile Char.isDigit
  match digits with
  | [] => .error (if input.isEmpty then .ended else .malformed)
  | '0' :: _ :: _ => .error .malformed
  | digits =>
    let (significand, dropped) := gather 0 digits
    readAfterInteger negative significand dropped rest

/-! ### Values -/

variable {ε σ : Type}

/-- Reads the items of a list after its opening bracket, or after an item. Each of them changes the
state. -/
def foldItems (fault : Fault → ε) (item : σ → ReadOr ε σ) :
    (fuel : Nat) → (first : Bool) → σ → ReadOr ε σ
  | 0, _, _, _ => .error (fault .ended)
  | fuel + 1, first, state, input =>
    match skipBlanks input with
    | [] => .error (fault .ended)
    | c :: rest =>
      if c = ']' then .ok (state, rest)
      else if c = ',' && !first then
        match skipBlanks rest with
        | [] => .error (fault .ended)
        | ']' :: _ => .error (fault .malformed)
        | next => do
          let (state, rest) ← item state next
          foldItems fault item fuel false state rest
      else if first then do
        let (state, rest) ← item state (c :: rest)
        foldItems fault item fuel false state rest
      else .error (fault .malformed)

/-- Reads the name of a member. -/
def readName : Read String
  | [] => .error .ended
  | c :: rest => if c = '"' then readText rest else .error .malformed

/-- Reads the colon between a name and its value. -/
def readColon (input : List Char) : Except Fault (List Char) :=
  match skipBlanks input with
  | [] => .error .ended
  | c :: rest => if c = ':' then .ok rest else .error .malformed

/-- Reads the members of an object after its opening bracket, or after a member. Each of them
changes the state: `member` is given the name, and reads on from there, colon and value. -/
def foldMembers (fault : Fault → ε) (member : σ → String → ReadOr ε σ) :
    (fuel : Nat) → (first : Bool) → σ → ReadOr ε σ
  | 0, _, _, _ => .error (fault .ended)
  | fuel + 1, first, state, input =>
    match skipBlanks input with
    | [] => .error (fault .ended)
    | c :: rest =>
      if c = '\x7d' then .ok (state, rest)
      else if c = ',' && !first then do
        let (name, rest) ← Read.orFault fault readName (skipBlanks rest)
        let (state, rest) ← member state name rest
        foldMembers fault member fuel false state rest
      else if first then do
        let (name, rest) ← Read.orFault fault readName (c :: rest)
        let (state, rest) ← member state name rest
        foldMembers fault member fuel false state rest
      else .error (fault .malformed)

/-- Puts the next item in front of those read before. -/
def collectItem (item : Read Written) (items : List Written) : Read (List Written) :=
  fun input => do
  let (v, rest) ← item input
  .ok (v :: items, rest)

/-- Reads the items of a list after its opening bracket. -/
def readItems (item : Read Written) : Read (List Written) := fun input => do
  let (items, rest) ← foldItems id (collectItem item) (input.length + 1) true [] input
  .ok (items.reverse, rest)

/-- Puts the next member in front of those read before. -/
def collectMember (item : Read Written) (members : List (String × Written)) (name : String) :
    Read (List (String × Written)) := fun input => do
  let (v, rest) ← item (← readColon input)
  .ok ((name, v) :: members, rest)

/-- Reads the members of an object after its opening bracket. -/
def readMembers (item : Read Written) : Read (List (String × Written)) := fun input => do
  let (members, rest) ← foldMembers id (collectMember item) (input.length + 1) true [] input
  .ok (members.reverse, rest)

/-- Reads a value whose parts, if it has any, are read by `part`. -/
def readWith (part : Option (Read Written)) : Read Written := fun input =>
  match skipBlanks input with
  | [] => .error .ended
  | 'n' :: rest => do .ok (.null, ← readWord ['u', 'l', 'l'] rest)
  | 't' :: rest => do .ok (.bool true, ← readWord ['r', 'u', 'e'] rest)
  | 'f' :: rest => do .ok (.bool false, ← readWord ['a', 'l', 's', 'e'] rest)
  | '"' :: rest => do
    let (s, rest) ← readText rest
    .ok (.text s, rest)
  | '-' :: rest => do
    let (n, rest) ← readUnsigned true rest
    .ok (.number n, rest)
  | c :: rest =>
    if c.isDigit then do
      let (n, rest) ← readUnsigned false (c :: rest)
      .ok (.number n, rest)
    else match part with
      | none => .error .malformed
      | some part =>
        if c = '[' then do
          let (vs, rest) ← readItems part rest
          .ok (.list vs, rest)
        else if c = '\x7b' then do
          let (ms, rest) ← readMembers part rest
          .ok (.object ms, rest)
        else .error .malformed

/-- Reads a value that nests at most `levels` lists and objects. -/
def readNested : (levels : Nat) → Read Written
  | 0 => readWith none
  | levels + 1 => readWith (some (readNested levels))

/-- The number of lists and objects that may be nested in a text. -/
def nestingLimit : Nat := 127

/-- Reads a whole text as one value. -/
def readWritten (text : String) : Except Fault Written := do
  let (v, rest) ← readNested nestingLimit text.toList
  if (skipBlanks rest).isEmpty then .ok v else .error .malformed

mutual

/-- The value with its fields sorted, the last of each name kept. -/
def Written.toJson : Written → Json
  | .null => .null
  | .bool b => .bool b
  | .number n => .number n
  | .text s => .text s
  | .list items => .list (Written.listToJson items)
  | .object members => .object (Written.membersToJson members [])

/-- The values of a list. -/
def Written.listToJson : List Written → List Json
  | [] => []
  | v :: rest => v.toJson :: Written.listToJson rest

/-- Members put one after the other into the given fields. -/
def Written.membersToJson : List (String × Written) → Fields → Fields
  | [], fields => fields
  | (name, v) :: rest, fields => Written.membersToJson rest (fields.put name v.toJson)

end

/-- Reads a whole text as one JSON value. -/
def read (text : String) : Except Fault Json :=
  (readWritten text).map Written.toJson

end Json

end SheetRules
