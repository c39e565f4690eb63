/-!
# Doubles as exact numbers

A finite double is `± mantissa * 2 ^ exponent`. This module reads those parts off the
bit pattern, so that integrality, floors, the order of doubles and their text are all
computed in exact integer arithmetic.
-/

namespace SheetRules

/-- The values of a double that are no numbers. -/
inductive NonFinite where
  | nan
  | posInf
  | negInf
deriving DecidableEq, Repr

/-- The word printed for a value that is no number. -/
def NonFinite.text : NonFinite → String
  | nan => "NaN"
  | posInf => "inf"
  | negInf => "-inf"

/-- A finite double taken apart: its value is `mantissa * 2 ^ exponent`, negated if
`negative` is set. The sign is kept for zero as well. -/
structure Dyad where
  negative : Bool
  mantissa : Nat
  exponent : Int
deriving DecidableEq, Repr

namespace Dyad

/-- The mantissa with its sign. -/
def signed (d : Dyad) : Int :=
  if d.negative then -(d.mantissa : Int) else d.mantissa

/-- The denominator of the exact value: a power of two, `1` for large values. -/
def denominator (d : Dyad) : Nat :=
  Nat.pow 2 (-d.exponent).toNat

/-- The numerator of the exact value over `denominator`. -/
def numerator (d : Dyad) : Int :=
  d.signed * Nat.pow 2 d.exponent.toNat

/-- The exact value is an integer. -/
def isInteger (d : Dyad) : Bool :=
  d.numerator % d.denominator == 0

/-- The largest integer that is not above the exact value. -/
def floor (d : Dyad) : Int :=
  d.numerator / d.denominator

end Dyad

namespace Double

/-- The parts of a double, or the reason why it is no number. -/
def exact (x : Float) : Except NonFinite Dyad :=
  let bits : Nat := x.toBits.toNat
  let negative := decide (Nat.pow 2 63 ≤ bits)
  let biased : Nat := bits / Nat.pow 2 52 % Nat.pow 2 11
  let fraction : Nat := bits % Nat.pow 2 52
  if biased = 2047 then
    .error (if fraction ≠ 0 then .nan else if negative then .negInf else .posInf)
  else if biased = 0 then
    .ok ⟨negative, fraction, -1074⟩
  else
    .ok ⟨negative, Nat.pow 2 52 + fraction, (biased : Int) - 1075⟩

/-- The reason why a double is no number, if it is none. -/
def nonFinite? (x : Float) : Option NonFinite :=
  match exact x with
  | .error reason => some reason
  | .ok _ => none

/-- The largest integral double that is not above `x`. A value that is integral already,
negative zero among them, and a value that is no number stay as they are. -/
def floor (x : Float) : Float :=
  match exact x with
  | .error _ => x
  | .ok d => if d.isInteger then x else Float.ofInt d.floor

/-- The integer a double stands for, if it is integral and less than `limit` in size. -/
def integerBelow? (limit : Nat) (x : Float) : Option Int :=
  match exact x with
  | .error _ => none
  | .ok d => if d.isInteger && d.floor.natAbs < limit then some d.floor else none

/-- The rank of a double in the total order of bit patterns: negative zero comes before
zero, and every negative value before every positive one. What is no number has one pattern only. -/
def rank (x : Float) : Int :=
  let bits := x.toBits.toNat
  if bits < Nat.pow 2 63 then bits else (Nat.pow 2 63 : Int) - 1 - bits

end Double

end SheetRules
