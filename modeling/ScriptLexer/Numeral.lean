import ScriptLexer.Binary64.Rounding
import ScriptLexer.Byte

/-!
# Decimal numerals

A numeral is a run of digits, or two such runs with a point between them.  There is no sign, no exponent, and no limit
to the number of digits.  `Numeral.toBinary64` is the binary64 number nearest to the exact value.
-/

namespace ScriptLexer

/-- The digits of a numeral before and after its point; without a point the fraction is empty. -/
structure Numeral where
  whole : List UInt8
  fraction : List UInt8
deriving DecidableEq, Repr

namespace Numeral

/-- The numeral spelled by the bytes, or `none` if they spell none. -/
def ofBytes? (bs : List UInt8) : Option Numeral :=
  let whole := bs.takeWhile Byte.isDigit
  if whole.isEmpty then none
  else
    match bs.dropWhile Byte.isDigit with
    | [] => some ⟨whole, []⟩
    | b :: fraction =>
      if b == Byte.dot && !fraction.isEmpty && fraction.all Byte.isDigit then some ⟨whole, fraction⟩ else none

/-- The value of a run of digits. -/
def digitsValue (ds : List UInt8) : Nat :=
  ds.foldl (fun n d => 10 * n + Byte.digitValue d) 0

/-- The value of all the digits, the point left out. -/
def numerator (n : Numeral) : Nat :=
  digitsValue (n.whole ++ n.fraction)

/-- The power of ten that puts the point in its place. -/
def denominator (n : Numeral) : Nat :=
  Nat.pow 10 n.fraction.length

theorem denominator_pos (n : Numeral) : 0 < n.denominator :=
  Nat.pow_pos (by decide)

/-- The binary64 number nearest to the numeral's value. -/
def toBinary64 (n : Numeral) : Binary64 :=
  .nearest n.numerator n.denominator

end Numeral

end ScriptLexer
