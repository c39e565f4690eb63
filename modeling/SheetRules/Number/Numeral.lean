import SheetRules.Number.Decimal

/-!
# Numerals

A numeral is a decimal with an optional sign, point and exponent, or one of the words for infinity
and for a value that is no number. It is read as the nearest double.
-/

namespace SheetRules

namespace Numeral

/-- The signed integer written after the mark of an exponent. -/
def exponent? (input : List Char) : Option Int :=
  let (negative, digits) := match input with
    | '-' :: rest => (true, rest)
    | '+' :: rest => (false, rest)
    | rest => (false, rest)
  if digits.isEmpty || !digits.all Char.isDigit then none
  else
    let n : Int := Decimal.ofDigits digits
    some (if negative then -n else n)

/-- The decimal written without a sign. -/
def decimal? (input : List Char) : Option Decimal :=
  let whole := input.takeWhile Char.isDigit
  let afterWhole := input.dropWhile Char.isDigit
  let (fraction, rest) := match afterWhole with
    | '.' :: rest => (rest.takeWhile Char.isDigit, rest.dropWhile Char.isDigit)
    | rest => ([], rest)
  let d := Decimal.ofPoint whole fraction
  if whole.isEmpty && fraction.isEmpty then none
  else match rest with
    | [] => some d
    | mark :: rest =>
      if mark = 'e' || mark = 'E' then
        (exponent? rest).map fun e => { d with exponent := d.exponent + e }
      else none

/-- The double written without a sign: a decimal, or a word in letters of either case. -/
def unsigned? (input : List Char) : Option Float :=
  let word := String.ofList (input.map Char.toLower)
  if word = "inf" || word = "infinity" then some (1.0 / 0.0)
  else if word = "nan" then some (0.0 / 0.0)
  else (decimal? input).map Decimal.toFloat

/-- The double that a numeral stands for. -/
def read? (text : String) : Option Float :=
  match text.toList with
  | '-' :: rest => (unsigned? rest).map fun x => -x
  | '+' :: rest => unsigned? rest
  | input => unsigned? input

end Numeral

end SheetRules
