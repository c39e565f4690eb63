import SheetRules.Json.Reader

/-!
# Passing over values

Where a value has no effect, it only has to be well formed: it is passed over without being read.
Its numbers may be of any size, an escaped surrogate may stand alone, and its parts may be nested
to any depth. The parts that are open are therefore kept in a list, the innermost first.
-/

namespace SheetRules

namespace Json

/-- The places inside a text. -/
inductive InText where
  | plain
  /-- After a backslash. -/
  | escape
  /-- In an escape of which `left` hexadecimal digits are still to come. -/
  | digits (left : Nat)

/-- Passes over a text up to its closing quote. -/
def skipText : InText → List Char → Except Fault (List Char)
  | _, [] => .error .ended
  | .plain, c :: rest =>
    if c = '"' then .ok rest
    else if c = '\\' then skipText .escape rest
    else if c.toNat < 32 then .error .malformed
    else skipText .plain rest
  | .escape, c :: rest =>
    if c = 'u' then skipText (.digits 4) rest
    else if c ∈ ['"', '\\', '/', 'b', 'f', 'n', 'r', 't'] then skipText .plain rest
    else .error .malformed
  | .digits left, c :: rest =>
    if (hexValue? c).isNone then .error .malformed
    else if left ≤ 1 then skipText .plain rest
    else skipText (.digits (left - 1)) rest

/-- Passes over digits, of which there is at least one. -/
def skipDigits : List Char → Except Fault (List Char)
  | [] => .error .ended
  | c :: rest => if c.isDigit then .ok (rest.dropWhile Char.isDigit) else .error .malformed

/-- Passes over a written exponent after its mark. -/
def skipExponent : List Char → Except Fault (List Char)
  | '+' :: rest => skipDigits rest
  | '-' :: rest => skipDigits rest
  | rest => skipDigits rest

/-- Passes over what may follow the digits of a number with a fraction. -/
def skipAfterFraction : List Char → Except Fault (List Char)
  | 'e' :: rest => skipExponent rest
  | 'E' :: rest => skipExponent rest
  | rest => .ok rest

/-- Passes over what may follow the integer digits of a number. -/
def skipAfterInteger : List Char → Except Fault (List Char)
  | '.' :: rest => do skipAfterFraction (← skipDigits rest)
  | rest => skipAfterFraction rest

/-- Passes over a number after its sign. A zero is not followed by another digit. -/
def skipUnsigned (input : List Char) : Except Fault (List Char) :=
  match input with
  | '0' :: d :: rest =>
    if d.isDigit then .error .malformed else skipAfterInteger (d :: rest)
  | _ => do skipAfterInteger (← skipDigits input)

/-- Passes over a value without parts. -/
def skipScalar : List Char → Except Fault (List Char)
  | [] => .error .ended
  | 'n' :: rest => readWord ['u', 'l', 'l'] rest
  | 't' :: rest => readWord ['r', 'u', 'e'] rest
  | 'f' :: rest => readWord ['a', 'l', 's', 'e'] rest
  | '"' :: rest => skipText .plain rest
  | '-' :: rest => skipUnsigned rest
  | c :: rest => if c.isDigit then skipUnsigned (c :: rest) else .error .malformed

/-- The values that have parts. -/
inductive Compound where
  | list
  | object
deriving DecidableEq, Repr

/-- The bracket that closes a compound value. -/
def Compound.closing : Compound → Char
  | .list => ']'
  | .object => '\x7d'

/-- What comes next on the way through a value. -/
inductive Turn where
  /-- A value. -/
  | value
  /-- The name of a member. -/
  | name
  /-- What follows an opening bracket. -/
  | opened
  /-- What follows a value. -/
  | ended
deriving DecidableEq, Repr

/-- What each part of a compound value begins with. -/
def Compound.part : Compound → Turn
  | .list => .value
  | .object => .name

/-- Passes over the rest of a value of which the given compound values are open. -/
def skipFrom : (fuel : Nat) → Turn → List Compound → List Char → Except Fault (List Char)
  | 0, _, _, _ => .error .ended
  | fuel + 1, .value, within, input =>
    match skipBlanks input with
    | '[' :: rest => skipFrom fuel .opened (.list :: within) rest
    | '\x7b' :: rest => skipFrom fuel .opened (.object :: within) rest
    | rest => do skipFrom fuel .ended within (← skipScalar rest)
  | fuel + 1, .name, within, input =>
    match skipBlanks input with
    | [] => .error .ended
    | '"' :: rest => do
      let rest ← skipText .plain rest
      skipFrom fuel .value within (← readColon rest)
    | _ => .error .malformed
  | _ + 1, .opened, [], _ => .error .malformed
  | fuel + 1, .opened, inner :: within, input =>
    match skipBlanks input with
    | [] => .error .ended
    | c :: rest =>
      if c = inner.closing then skipFrom fuel .ended within rest
      else skipFrom fuel inner.part (inner :: within) (c :: rest)
  | _ + 1, .ended, [], input => .ok input
  | fuel + 1, .ended, inner :: within, input =>
    match skipBlanks input with
    | [] => .error .ended
    | c :: rest =>
      if c = inner.closing then skipFrom fuel .ended within rest
      else if c = ',' then skipFrom fuel inner.part (inner :: within) rest
      else .error .malformed

/-- Passes over a value. Every turn passes a character, except the one after an opening bracket and
the last, so twice the length is enough as fuel. -/
def skipValue (input : List Char) : Except Fault (List Char) :=
  skipFrom (2 * input.length + 2) .value [] input

end Json

end SheetRules
