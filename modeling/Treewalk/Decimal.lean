/-!
# Decimal numerals

A `Decimal` is a whole number of units in some decimal place.  This is the form in which numerals stand in a
source text and in which numbers are shown.

* `Decimal.ofDigits`: the decimal that a numeral `whole.fraction` denotes.
* `Decimal.toFloat`: the double nearest to it.
* `Decimal.text`: its positional text, which `Decimal.ofDigits` reads back.
-/

namespace Treewalk

/-- The number `coefficient / 10 ^ places`. -/
structure Decimal where
  coefficient : Nat
  places : Nat
deriving DecidableEq

namespace Decimal

/-- The decimal written as `whole`, a point, and `fraction`; without a fraction there is no point. -/
def ofDigits (whole fraction : List Char) : Decimal where
  coefficient := Nat.ofDigitChars 10 (whole ++ fraction) 0
  places := fraction.length

/-- The double nearest to a decimal.  A tie goes to the even mantissa, and what is beyond the largest double
becomes infinite. -/
def toFloat (d : Decimal) : Float :=
  Float.ofModel (Float.Model.ofScientific d.coefficient (-(d.places : Int)))

/-- The digits of the coefficient, with zeros in front so that at least one digit stands before the point. -/
def paddedDigits (d : Decimal) : List Char :=
  let digits := Nat.toDigits 10 d.coefficient
  List.replicate (d.places + 1 - digits.length) '0' ++ digits

/-- The digits before the point. -/
def wholeDigits (d : Decimal) : List Char :=
  d.paddedDigits.take (d.paddedDigits.length - d.places)

/-- The digits after the point, one for each place. -/
def fractionDigits (d : Decimal) : List Char :=
  d.paddedDigits.drop (d.paddedDigits.length - d.places)

/-- The positional text: digits, and a point with more digits if there are decimal places.  It never has an
exponent, and no point without digits on both sides. -/
def text (d : Decimal) : String :=
  String.ofList (if d.places = 0 then d.wholeDigits else d.wholeDigits ++ '.' :: d.fractionDigits)

theorem wholeDigits_append_fractionDigits (d : Decimal) :
    d.wholeDigits ++ d.fractionDigits = d.paddedDigits :=
  List.take_append_drop _ _

theorem length_fractionDigits (d : Decimal) : d.fractionDigits.length = d.places := by
  have h : d.places + 1 ≤ d.paddedDigits.length := by
    simp [paddedDigits]
    omega
  simp [fractionDigits]
  omega

end Decimal

end Treewalk
