import SheetRules.Number.Double

/-!
# Decimals and doubles

A decimal is `digits * 10 ^ exponent`. Reading takes the double nearest to it; writing takes
the decimal with the fewest digits among those that read back as the double, and of these the
nearest one. Both directions work on exact integers.
-/

namespace SheetRules

/-- A non-negative decimal: `digits * 10 ^ exponent`. -/
structure Decimal where
  digits : Nat
  exponent : Int
deriving DecidableEq, Repr

/-- Which of two equally near decimals is taken: the larger, or the even one. -/
inductive Tie where
  | up
  | even
deriving DecidableEq, Repr

namespace Decimal

/-- The number written by a run of digits, most significant first. -/
def ofDigits (digits : List Char) : Nat :=
  digits.foldl (fun n c => 10 * n + (c.toNat - '0'.toNat)) 0

/-- The decimal written as `whole` and `fraction`, the digits around the point. -/
def ofPoint (whole fraction : List Char) : Decimal :=
  ⟨ofDigits (whole ++ fraction), -(fraction.length : Int)⟩

/-- The double nearest to a decimal; infinity if the decimal is too large for one. The size
of the decimal is looked at first, so that no power of ten grows without bound. -/
def toFloat (d : Decimal) : Float :=
  let size := ((Nat.toDigits 10 d.digits).length : Int) + d.exponent
  if d.digits = 0 ∨ size < -400 then 0.0
  else if size > 400 then 1.0 / 0.0
  else Float.ofScientific d.digits (decide (d.exponent < 0)) d.exponent.natAbs

/-- The decimal exponent of the leading digit of `mantissa * 2 ^ exponent`, for a positive
mantissa. No positive double is below `10 ^ -330`, so the scaled value has a leading digit. -/
def leading (mantissa : Nat) (exponent : Int) : Int :=
  let scaled := mantissa * Nat.pow 2 exponent.toNat * Nat.pow 10 330 / Nat.pow 2 (-exponent).toNat
  ((Nat.toDigits 10 scaled).length : Int) - 331

/-- The multiple of `10 ^ unit` that is written for `mantissa * 2 ^ exponent`, if one of its
two neighbours on that grid reads back. The reals that read back form the interval between the
midpoints to the neighbouring doubles, its ends included for an even mantissa; everything is
compared in quarters of the last place, where those midpoints are whole. -/
def onGrid? (tie : Tie) (mantissa : Nat) (exponent unit : Int) : Option Nat :=
  let below := if mantissa = Nat.pow 2 52 ∧ exponent > -1074 then 1 else 2
  let quarter := exponent - 2
  let scale := Nat.pow 2 quarter.toNat * Nat.pow 10 (-unit).toNat
  let grid := Nat.pow 2 (-quarter).toNat * Nat.pow 10 unit.toNat
  let value := 4 * mantissa * scale
  let low := (4 * mantissa - below) * scale
  let high := (4 * mantissa + 2) * scale
  let under := value / grid
  let above := under + 1
  let closed := mantissa % 2 = 0
  let underFits := low < under * grid ∨ (closed ∧ low = under * grid)
  let aboveFits := above * grid < high ∨ (closed ∧ above * grid = high)
  let toUnder := value - under * grid
  let toAbove := above * grid - value
  if underFits ∧ aboveFits then
    if toUnder < toAbove then some under
    else if toAbove < toUnder then some above
    else match tie with
      | .up => some above
      | .even => some (if under % 2 = 0 then under else above)
  else if underFits then some under
  else if aboveFits then some above
  else none

/-- The decimal with the fewest digits that reads back as `mantissa * 2 ^ exponent`, for a
positive mantissa: grids of 1, 2, … 17 digits are tried in turn. -/
def shortest (tie : Tie) (mantissa : Nat) (exponent : Int) : Decimal :=
  let top := leading mantissa exponent
  let found := (List.range 17).findSome? fun (i : Nat) =>
    (onGrid? tie mantissa exponent (top - i)).map fun n => (⟨n, top - i⟩ : Decimal)
  match found with
  | some ⟨10, e⟩ => ⟨1, e + 1⟩
  | some d => d
  | none => ⟨mantissa * Nat.pow 2 exponent.toNat, 0⟩

end Decimal

end SheetRules
