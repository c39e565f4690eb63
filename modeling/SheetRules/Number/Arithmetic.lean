import SheetRules.Number.Double

/-!
# The arithmetic of rules

Trees are compiled and evaluated over any kind of number with the operations below. Doubles are
what runs; rationals give the same definitions their exact reading, without rounding and overflow.
-/

namespace SheetRules

/-- The number operations that rules are made of. -/
class Arithmetic (α : Type) where
  /-- The number that a double stands for. -/
  ofFloat : Float → α
  neg : α → α
  add : α → α → α
  sub : α → α → α
  mul : α → α → α
  div : α → α → α
  floor : α → α
  /-- The first number is strictly below the second. -/
  below : α → α → Bool
  /-- The two numbers are equal in value. -/
  same : α → α → Bool
  /-- The reason why a result is no number, if it is none. -/
  nonFinite? : α → Option NonFinite

namespace Arithmetic

variable {α : Type} [Arithmetic α]

/-- The smaller of two numbers, the first of two equal ones. -/
def least (a b : α) : α :=
  if below b a then b else a

/-- The larger of two numbers, the first of two equal ones. -/
def greatest (a b : α) : α :=
  if below a b then b else a

/-- Zero, the empty sum. -/
def zero : α := ofFloat 0

/-- One, the empty product. -/
def one : α := ofFloat 1

/-- The factor that changes a sign. -/
def minusOne : α := ofFloat (-1)

end Arithmetic

/-- Double arithmetic: every result is rounded, and may overflow. -/
instance : Arithmetic Float where
  ofFloat x := x
  neg x := -x
  add x y := x + y
  sub x y := x - y
  mul x y := x * y
  div x y := x / y
  floor := Double.floor
  below x y := decide (x < y)
  same x y := x == y
  nonFinite? := Double.nonFinite?

/-- The exact value of a finite double. -/
def Dyad.toRat (d : Dyad) : Rat :=
  (d.numerator : Rat) / (d.denominator : Rat)

/-- The exact value of a double; a value that is no number counts as zero. -/
def Double.toRat (x : Float) : Rat :=
  match Double.exact x with
  | .error _ => 0
  | .ok d => d.toRat

/-- Exact arithmetic: nothing is rounded and nothing overflows. -/
instance : Arithmetic Rat where
  ofFloat := Double.toRat
  neg x := -x
  add x y := x + y
  sub x y := x - y
  mul x y := x * y
  div x y := x / y
  floor x := (x.floor : Rat)
  below x y := decide (x < y)
  same x y := decide (x = y)
  nonFinite? _ := none

end SheetRules
