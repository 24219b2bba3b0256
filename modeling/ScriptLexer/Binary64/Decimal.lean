import ScriptLexer.Binary64.Rounding

/-!
# Decimal text of binary64 numbers

A number is written with at most six decimal places.  Its exact value is rounded half to even to a whole number of
millionths and written with all six places; then the zeros that end the fraction are dropped, and the point as well if
no digit is left after it.  The sign bit shows as a minus sign on finite numbers, zero included, and on infinity.
-/

namespace ScriptLexer.Binary64

/-- The absolute value of a finite number in millionths, rounded half to even. -/
def millionths (x : Binary64) : Nat :=
  roundHalfEven (x.units * Nat.pow 10 6) (Nat.pow 2 1074)

/-- A number of millionths with all six decimal places. -/
def sixPlaces (m : Nat) : List Char :=
  Nat.toDigits 10 (m / Nat.pow 10 6) ++ '.' :: List.leftpad 6 '0' (Nat.toDigits 10 (m % Nat.pow 10 6))

/-- Drops the zeros at the end of a fraction, and the point if nothing is left after it. -/
def trimFraction (text : List Char) : List Char :=
  ((text.reverse.dropWhile (· == '0')).dropWhile (· == '.')).reverse

/-- The decimal text of a number. -/
def render (x : Binary64) : String :=
  if x.isNaN then "NaN"
  else
    let sign := if x.isNegative then "-" else ""
    sign ++ if x.isFinite then String.ofList (trimFraction (sixPlaces x.millionths)) else "inf"

end ScriptLexer.Binary64
