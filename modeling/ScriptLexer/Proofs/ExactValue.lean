import Mathlib.Algebra.Order.Field.Rat
import Mathlib.Data.Nat.Cast.Order.Field
import ScriptLexer.Binary64.Decimal
import ScriptLexer.Numeral
import ScriptLexer.Proofs.Rounding

/-!
# Exact values

The exact values of numerals and of finite binary64 numbers are rational numbers.  The key fact: `roundHalfEven` finds
the only natural number that a rational number is rounded to, half to even (`isHalfEven_iff`).
-/

namespace ScriptLexer

/-- The natural number is at most one half away from the rational one, and it is even if it is one half away. -/
def IsHalfEven (q : ℚ) (m : ℕ) : Prop :=
  |q - m| ≤ 1 / 2 ∧ (|q - m| = 1 / 2 → m % 2 = 0)

private theorem cast_dist (a b : ℕ) : (Nat.dist a b : ℚ) = |(a : ℚ) - b| := by
  rcases Nat.le_total a b with h | h
  · rw [Nat.dist_eq_sub_of_le h, Nat.cast_sub h, abs_sub_comm, abs_of_nonneg]
    exact sub_nonneg.2 (Nat.cast_le.2 h)
  · rw [Nat.dist_eq_sub_of_le_right h, Nat.cast_sub h, abs_of_nonneg]
    exact sub_nonneg.2 (Nat.cast_le.2 h)

/-- The distance of a quotient from a natural number. -/
theorem abs_div_sub {num den m : ℕ} (hd : 0 < den) :
    |(num / den : ℚ) - m| = (Nat.dist num (m * den) : ℚ) / den := by
  have hd' : (0 : ℚ) < den := Nat.cast_pos.2 hd
  have e : (num / den : ℚ) - m = (num - m * den) / den := by
    rw [sub_div, mul_div_cancel_right₀ _ hd'.ne']
  rw [e, abs_div, abs_of_pos hd', cast_dist, Nat.cast_mul]

theorem isHalfEven_iff {num den m : ℕ} (hd : 0 < den) : IsHalfEven (num / den) m ↔ roundHalfEven num den = m := by
  have hd' : (0 : ℚ) < den := Nat.cast_pos.2 hd
  have hle : (Nat.dist num (m * den) : ℚ) / den ≤ 1 / 2 ↔ 2 * Nat.dist num (m * den) ≤ den := by
    rw [div_le_div_iff₀ hd' two_pos, one_mul, mul_comm]
    exact_mod_cast Iff.rfl
  have heq : (Nat.dist num (m * den) : ℚ) / den = 1 / 2 ↔ 2 * Nat.dist num (m * den) = den := by
    rw [div_eq_div_iff hd'.ne' two_ne_zero, one_mul, mul_comm]
    exact_mod_cast Iff.rfl
  rw [roundHalfEven_eq_iff hd, IsHalfEven, abs_div_sub hd, hle, heq]

namespace Numeral

/-- The exact value of a numeral. -/
def value (n : Numeral) : ℚ :=
  n.numerator / n.denominator

private theorem cast_denominator_ne_zero (n : Numeral) : (n.denominator : ℚ) ≠ 0 :=
  Nat.cast_ne_zero.2 (Nat.ne_of_gt n.denominator_pos)

theorem value_eq_iff {n n' : Numeral} :
    n.value = n'.value ↔ n.numerator * n'.denominator = n'.numerator * n.denominator := by
  rw [value, value, div_eq_div_iff n.cast_denominator_ne_zero n'.cast_denominator_ne_zero]
  exact_mod_cast Iff.rfl

theorem value_mul_eq_iff {n : Numeral} {P M : ℕ} : n.value * P = M ↔ n.numerator * P = M * n.denominator := by
  rw [value, div_mul_eq_mul_div, div_eq_iff n.cast_denominator_ne_zero]
  exact_mod_cast Iff.rfl

end Numeral

namespace Binary64

/-- The exact absolute value of a finite number. -/
def absValue (x : Binary64) : ℚ :=
  x.units / 2 ^ 1074

private theorem isHalfEven_places {u den k m : ℕ} {d : ℚ} (hd : (den : ℚ) = d) (hpos : 0 < den) :
    IsHalfEven (u / d * 10 ^ k) m ↔ roundHalfEven (u * Nat.pow 10 k) den = m := by
  have e : (u / d * 10 ^ k : ℚ) = ((u * Nat.pow 10 k : ℕ) : ℚ) / den := by
    simp [div_mul_eq_mul_div, hd]
  rw [e, isHalfEven_iff hpos]

/-- The millionths of a finite number are its exact absolute value, rounded half to even. -/
theorem isHalfEven_iff_millionths_eq {x : Binary64} {m : ℕ} :
    IsHalfEven (x.absValue * 10 ^ 6) m ↔ x.millionths = m := by
  have hd : ((Nat.pow 2 1074 : ℕ) : ℚ) = 2 ^ 1074 := by
    simp only [Nat.pow_eq, Nat.cast_pow, Nat.cast_ofNat]
  exact isHalfEven_places hd (by decide +kernel)

end Binary64

end ScriptLexer
