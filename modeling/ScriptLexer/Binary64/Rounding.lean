import ScriptLexer.Binary64.Basic

/-!
# Rounding to nearest, ties to even

`roundHalfEven` rounds a quotient of natural numbers to a natural number, and `Binary64.nearest` rounds it to a
binary64 number.  The second is the first at the right scale: with `u` the quotient in units of `2 ^ -1074` and `s` the
number of binary digits of `u` beyond 53, the significand is `u / 2 ^ s`, rounded.  A number with the significand `c`
at this scale has the magnitude `s * 2 ^ 52 + c`, since the leading digit of `c` adds one to the exponent field.  This
covers the subnormal numbers (`s = 0` and no leading digit) and a significand that rounds up to `2 ^ 53`, which is the
least one at the next scale.
-/

namespace ScriptLexer

/-- The natural number nearest to `num / den`; of two equally near ones the even one. -/
def roundHalfEven (num den : Nat) : Nat :=
  let q := num / den
  let r := num % den
  if 2 * r < den then q else if den < 2 * r then q + 1 else q + q % 2

/-- The binary64 number nearest to `num / den`; of two equally near ones the one with the even significand.  Quotients
that round beyond the largest finite number give infinity. -/
def Binary64.nearest (num den : Nat) : Binary64 :=
  let u := num * Nat.pow 2 1074
  let s := (u / den).log2 - 52
  .ofMagnitude (min (s * Nat.pow 2 52 + roundHalfEven u (den * Nat.pow 2 s)) infinityMagnitude)

end ScriptLexer
