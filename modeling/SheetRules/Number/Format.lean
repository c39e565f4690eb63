import SheetRules.Number.Decimal

/-!
# The text of a double

Every written form of a double shows its shortest decimal. The forms differ in where positional
notation ends, in whether an integral value keeps its point, and in how a tie is broken: those
decisions are the fields of `NumberFormat`, and each output format is one value of it.
-/

namespace SheetRules

/-- The decisions of one written form of doubles. -/
structure NumberFormat where
  tie : Tie
  /-- An integral value is written with a point and one zero. -/
  keepPoint : Bool
  /-- The exponents of the leading digit that are written positionally; all, if absent. -/
  positional : Option (Int × Int)

namespace NumberFormat

/-- The form of numbers in messages, tokens and scripts: always positional, and an integral
value has no point. -/
def plain : NumberFormat := ⟨.up, false, none⟩

/-- The form of doubles in JSON text: positional while the leading digit stands between
`10 ^ -5` and `10 ^ 15`, with at least one digit after the point, and with an exponent
beyond that. -/
def json : NumberFormat := ⟨.even, true, some (-5, 15)⟩

/-- Digits laid out around a point; `top` is the exponent of the first digit. -/
def layPositional (keepPoint : Bool) (digits : List Char) (top : Int) : List Char :=
  let whole := (top + 1).toNat
  if top < 0 then
    '0' :: '.' :: List.replicate (-top - 1).toNat '0' ++ digits
  else if digits.length ≤ whole then
    digits ++ List.replicate (whole - digits.length) '0' ++ (if keepPoint then ['.', '0'] else [])
  else
    digits.take whole ++ '.' :: digits.drop whole

/-- Digits laid out with an exponent, whose sign is always written. -/
def layExponent (digits : List Char) (top : Int) : List Char :=
  let point := if digits.length ≤ 1 then [] else '.' :: digits.drop 1
  let sign := if top < 0 then '-' else '+'
  digits.take 1 ++ point ++ 'e' :: sign :: Nat.toDigits 10 top.natAbs

/-- The text of a decimal in a given form. -/
def layout (format : NumberFormat) (d : Decimal) : List Char :=
  let digits := Nat.toDigits 10 d.digits
  let top := d.exponent + digits.length - 1
  match format.positional with
  | none => layPositional format.keepPoint digits top
  | some (low, high) =>
    if low ≤ top ∧ top ≤ high then layPositional format.keepPoint digits top
    else layExponent digits top

/-- The text of a double in a given form. -/
def text (format : NumberFormat) (x : Float) : String :=
  match Double.exact x with
  | .error reason => reason.text
  | .ok d =>
    let digits :=
      if d.mantissa = 0 then layPositional format.keepPoint ['0'] 0
      else format.layout (Decimal.shortest format.tie d.mantissa d.exponent)
    String.ofList (if d.negative then '-' :: digits else digits)

end NumberFormat

/-- The text of a double in messages, tokens and scripts. -/
def Double.text (x : Float) : String :=
  NumberFormat.plain.text x

end SheetRules
