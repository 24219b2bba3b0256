import Mathlib.Tactic.Linarith
import ScriptLexer.Proofs.TypedDecimal

/-!
# Numbers nearest to a rational number

A non-negative rational number is rounded to the finite number nearest to it, to the one with the even significand if
two are equally near, and to infinity from half a step beyond the largest finite number on (`Binary64.RoundsTo`).  There
is only one such number (`Binary64.RoundsTo.unique`), and it is the one that `Binary64.nearest` finds
(`Binary64.roundsTo_nearest`).  So a number token holds the number that the exact value of its lexeme is rounded to
(`tokenize_nearest`).
-/

namespace ScriptLexer

namespace Binary64

/-- Infinity without a sign bit. -/
def infinity : Binary64 :=
  ⟨0x7FF0000000000000⟩

/-- Zero without a sign bit. -/
def zero : Binary64 :=
  ⟨0⟩

/-- The exact value of a finite number. -/
def value (x : Binary64) : ℚ :=
  if x.isNegative then -x.absValue else x.absValue

/-- The number is the one that a non-negative rational number is rounded to. -/
structure RoundsTo (v : ℚ) (x : Binary64) : Prop where
  isNegative : x.isNegative = false
  isNaN : x.isNaN = false
  eq_infinity_iff : x = infinity ↔ 2 ^ 1024 - 2 ^ 970 ≤ v
  isFinite_iff : x.isFinite ↔ v < 2 ^ 1024 - 2 ^ 970
  /-- No finite number is nearer. -/
  nearest : x.isFinite → ∀ y : Binary64, y.isFinite → |v - x.value| ≤ |v - y.value|
  /-- Of two equally near numbers it is the one with the even significand. -/
  even : x.isFinite → ∀ y : Binary64, y.isFinite → y.value ≠ x.value → |v - y.value| = |v - x.value| →
    x.significand % 2 = 0 ∧ y.significand % 2 = 1

/-! ### Values and magnitudes -/

private theorem value_eq {x : Binary64} (h : x.isNegative = false) : x.value = x.absValue := by
  simp [value, h]

private theorem absValue_nonneg (x : Binary64) : 0 ≤ x.absValue :=
  div_nonneg (Nat.cast_nonneg _) (pow_nonneg zero_le_two _)

private theorem absValue_eq_iff {x y : Binary64} : x.absValue = y.absValue ↔ x.magnitude = y.magnitude := by
  have h2 : (2 ^ 1074 : ℚ) ≠ 0 := pow_ne_zero _ two_ne_zero
  rw [absValue, absValue, div_left_inj' h2, Nat.cast_inj, units_eq, units_eq, strictMono_unitsAt.injective.eq_iff]

private theorem value_zero : zero.value = 0 := by
  have hu : zero.units = 0 := by decide
  rw [value_eq (by decide), absValue, hu, Nat.cast_zero, zero_div]

/-- A number without the sign is as near to a non-negative rational number as with it. -/
private theorem abs_sub_absValue_le {v : ℚ} (hv : 0 ≤ v) (y : Binary64) : |v - y.absValue| ≤ |v - y.value| := by
  have hy := y.absValue_nonneg
  unfold value
  split
  · rw [sub_neg_eq_add, abs_of_nonneg (add_nonneg hv hy), abs_le]
    constructor <;> linarith
  · exact le_rfl

private theorem quotient_nonneg (num den : ℕ) : (0 : ℚ) ≤ num / den :=
  div_nonneg (Nat.cast_nonneg _) (Nat.cast_nonneg _)

private theorem significand_mod_two (x : Binary64) : x.significand % 2 = x.magnitude % 2 := by
  have hp : Nat.pow 2 52 = 2 ^ 52 := rfl
  unfold significand
  rw [hp]
  split <;> omega

section Quotient

variable {num den : ℕ} (hd : 0 < den)
include hd

private theorem abs_div_sub_div {u S : ℕ} (hS : 0 < S) :
    |(num / den : ℚ) - u / S| = (Nat.dist (num * S) (u * den) : ℚ) / (den * S) := by
  have hS' : (0 : ℚ) < S := Nat.cast_pos.2 hS
  have e : (num / den : ℚ) - u / S = (((num * S : ℕ) : ℚ) / den - u) / S := by
    rw [sub_div, Nat.cast_mul, div_right_comm, mul_div_cancel_right₀ _ hS'.ne']
  rw [e, abs_div, abs_of_pos hS', abs_div_sub hd, div_div]

/-- The distance of a quotient from a number without its sign is that of their units. -/
private theorem abs_sub_absValue (x : Binary64) :
    |(num / den : ℚ) - x.absValue| = (Nat.dist (num * Nat.pow 2 1074) (x.units * den) : ℚ) / (den * 2 ^ 1074) := by
  have hS : ((Nat.pow 2 1074 : ℕ) : ℚ) = 2 ^ 1074 := by
    simp only [Nat.pow_eq, Nat.cast_pow, Nat.cast_ofNat]
  rw [absValue, ← hS, abs_div_sub_div hd (by decide +kernel)]

private theorem abs_sub_absValue_le_iff {x y : Binary64} :
    |(num / den : ℚ) - x.absValue| ≤ |(num / den : ℚ) - y.absValue| ↔
      Nat.dist (num * Nat.pow 2 1074) (x.units * den) ≤ Nat.dist (num * Nat.pow 2 1074) (y.units * den) := by
  have h : (0 : ℚ) < den * 2 ^ 1074 := mul_pos (Nat.cast_pos.2 hd) (pow_pos two_pos _)
  rw [abs_sub_absValue hd, abs_sub_absValue hd, div_le_div_iff_of_pos_right h, Nat.cast_le]

end Quotient

/-! ### The thresholds of infinity and of zero -/

/-- The last magnitude of a scale and the first one of the next. -/
private theorem unitsAt_add_unitsAt_succ (s : ℕ) :
    unitsAt (s * 2 ^ 52 + (2 ^ 53 - 1)) + unitsAt (s * 2 ^ 52 + (2 ^ 53 - 1) + 1) = (2 ^ 54 - 1) * 2 ^ s := by
  have h : 2 ^ 53 - 1 + (2 ^ 53 - 1 + 1) = 2 ^ 54 - 1 := by decide
  rw [Nat.add_assoc _ (2 ^ 53 - 1), unitsAt_add (by decide) (Or.inr (by decide)),
    unitsAt_add (by decide) (Or.inr (by decide)), ← Nat.add_mul, h]

private theorem two_pow_sub_two_pow (k : ℕ) : (2 ^ (54 + k) - 2 ^ k : ℚ) = ((2 ^ 54 - 1 : ℕ) : ℚ) * 2 ^ k := by
  rw [pow_add, Nat.cast_sub (by decide), sub_mul, Nat.cast_one, one_mul, Nat.cast_pow, Nat.cast_ofNat]

private theorem two_mul_mul_pow (a k : ℕ) : 2 * (a * 2 ^ k) = a * 2 ^ (k + 1) := by
  rw [Nat.pow_succ', Nat.mul_left_comm]

section Thresholds

variable {num den : ℕ} (hd : 0 < den)
include hd

private theorem mul_pow_le_div_iff {c k j s : ℕ} (hs : k + j = s) :
    (c * 2 ^ k : ℚ) ≤ num / den ↔ c * 2 ^ s * den ≤ num * 2 ^ j := by
  rw [← hs, le_div_iff₀ (Nat.cast_pos.2 hd), Nat.pow_add, ← Nat.mul_assoc, Nat.mul_right_comm,
    Nat.mul_le_mul_right_iff (Nat.two_pow_pos j)]
  exact_mod_cast Iff.rfl

private theorem div_le_one_div_pow_iff {k : ℕ} : (num / den : ℚ) ≤ 1 / 2 ^ k ↔ num * 2 ^ k ≤ den := by
  rw [div_le_div_iff₀ (Nat.cast_pos.2 hd) (pow_pos two_pos _), one_mul]
  exact_mod_cast Iff.rfl

/-- Quotients from half a step beyond the largest finite number on have no finite magnitude.  In the middle this holds
since the largest finite magnitude is odd. -/
private theorem infinityMagnitude_le_nearestMagnitude_iff :
    infinityMagnitude ≤ nearestMagnitude (num * Nat.pow 2 1074) den ↔ (2 ^ 1024 - 2 ^ 970 : ℚ) ≤ num / den := by
  have hi : infinityMagnitude = 2045 * 2 ^ 52 + (2 ^ 53 - 1) + 1 := by decide
  have hodd : (2045 * 2 ^ 52 + (2 ^ 53 - 1)) % 2 = 1 := by decide
  have h : (2 ^ 1024 - 2 ^ 970 : ℚ) = ((2 ^ 54 - 1 : ℕ) : ℚ) * 2 ^ 970 := two_pow_sub_two_pow 970
  rw [hi, Nat.succ_le_iff, lt_nearestMagnitude_iff hd, unitsAt_add_unitsAt_succ, unitsOfOne_eq, two_mul_mul_pow, h,
    mul_pow_le_div_iff hd (by decide : 970 + 1075 = 2045), Nat.le_iff_lt_or_eq, and_iff_left hodd]

/-- Quotients up to half the least number above zero have the magnitude zero.  In the middle this holds since zero is
even. -/
private theorem nearestMagnitude_eq_zero (h : (num / den : ℚ) ≤ 1 / 2 ^ 1075) :
    nearestMagnitude (num * Nat.pow 2 1074) den = 0 := by
  have h01 : (unitsAt 0 + unitsAt (0 + 1)) * den = den := by
    have e : unitsAt 0 + unitsAt (0 + 1) = 1 := by decide
    rw [e, Nat.one_mul]
  have e : 2 * (num * Nat.pow 2 1074) = num * 2 ^ 1075 := by rw [unitsOfOne_eq, two_mul_mul_pow]
  have hu := (div_le_one_div_pow_iff hd).1 h
  refine Nat.eq_zero_of_not_pos fun hpos => ?_
  rcases (lt_nearestMagnitude_iff hd).1 hpos with hlt | ⟨-, h0⟩
  · rw [h01, e] at hlt
    exact absurd hu (Nat.not_le.2 hlt)
  · exact absurd h0 (by decide)

end Thresholds

/-! ### The nearest number -/

private theorem magnitude_infinity : infinity.magnitude = infinityMagnitude := by decide

section Nearest

variable {num den : ℕ} (hd : 0 < den)
include hd

theorem nearest_eq_infinity_iff : nearest num den = infinity ↔ (2 ^ 1024 - 2 ^ 970 : ℚ) ≤ num / den := by
  rw [← infinityMagnitude_le_nearestMagnitude_iff hd]
  constructor
  · intro h
    have hm := magnitude_nearest num den
    rw [h, magnitude_infinity] at hm
    exact hm ▸ Nat.min_le_left _ _
  · intro h
    refine eq_of_magnitude_eq (isNegative_nearest _ _) (by decide) ?_
    rw [magnitude_nearest, Nat.min_eq_right h, magnitude_infinity]

theorem isFinite_nearest_iff : (nearest num den).isFinite ↔ (num / den : ℚ) < 2 ^ 1024 - 2 ^ 970 := by
  rw [← not_le, ← infinityMagnitude_le_nearestMagnitude_iff hd, isFinite, decide_eq_true_eq, magnitude_nearest]
  omega

theorem nearest_eq_zero (h : (num / den : ℚ) ≤ 1 / 2 ^ 1075) : nearest num den = zero := by
  refine eq_of_magnitude_eq (isNegative_nearest _ _) (by decide) ?_
  rw [magnitude_nearest, nearestMagnitude_eq_zero hd h]
  decide

section Finite

variable (hf : (nearest num den).isFinite)
include hf

private theorem abs_sub_absValue_nearest_le (y : Binary64) :
    |(num / den : ℚ) - (nearest num den).absValue| ≤ |(num / den : ℚ) - y.absValue| := by
  rw [abs_sub_absValue_le_iff hd, units_nearest hf, units_eq]
  exact dist_nearestMagnitude_le hd _

theorem abs_sub_value_nearest_le (y : Binary64) :
    |(num / den : ℚ) - (nearest num den).value| ≤ |(num / den : ℚ) - y.value| := by
  rw [value_eq (isNegative_nearest _ _)]
  exact (abs_sub_absValue_nearest_le hd hf y).trans (abs_sub_absValue_le (quotient_nonneg num den) y)

/-- A number that is as near as the nearest one and not equal to it has another magnitude: it is not the nearest one
with the sign bit set. -/
private theorem magnitude_ne_of_abs_eq {y : Binary64} (hne : y.value ≠ (nearest num den).value)
    (h : |(num / den : ℚ) - y.value| = |(num / den : ℚ) - (nearest num den).value|) :
    y.magnitude ≠ (nearest num den).magnitude := by
  intro hm
  have ha := absValue_eq_iff.2 hm
  rw [value_eq (isNegative_nearest _ _)] at hne
  by_cases hy : y.isNegative
  · -- with the sign bit set it is no nearer than zero only if it is zero
    have h0 := abs_sub_value_nearest_le hd hf zero
    rw [value_zero, sub_zero, abs_of_nonneg (quotient_nonneg num den), ← h, value, if_pos hy, sub_neg_eq_add,
      abs_of_nonneg (add_nonneg (quotient_nonneg num den) y.absValue_nonneg)] at h0
    have := y.absValue_nonneg
    rw [value, if_pos hy] at hne
    exact hne (by linarith)
  · rw [value, if_neg hy] at hne
    exact hne ha

private theorem parity_of_abs_eq {y : Binary64} (hne : y.value ≠ (nearest num den).value)
    (h : |(num / den : ℚ) - y.value| = |(num / den : ℚ) - (nearest num den).value|) :
    (nearest num den).significand % 2 = 0 ∧ y.significand % 2 = 1 := by
  have hm : (nearest num den).magnitude = _ := strictMono_unitsAt.injective (units_nearest hf)
  have hy := magnitude_ne_of_abs_eq hd hf hne h
  have hle : |(num / den : ℚ) - y.absValue| ≤ |(num / den : ℚ) - (nearest num den).absValue| := by
    rw [← value_eq (isNegative_nearest num den), ← h]
    exact abs_sub_absValue_le (quotient_nonneg num den) y
  rw [abs_sub_absValue_le_iff hd, units_nearest hf, units_eq] at hle
  rw [hm] at hy
  rw [significand_mod_two, significand_mod_two, hm]
  exact parity_of_dist_eq hd hy (Nat.le_antisymm hle (dist_nearestMagnitude_le hd _))

end Finite

/-- The number that a quotient is rounded to. -/
theorem roundsTo_nearest : (nearest num den).RoundsTo (num / den) where
  isNegative := isNegative_nearest num den
  isNaN := by
    rw [isNaN, decide_eq_false_iff_not, Nat.not_lt]
    exact magnitude_nearest_le num den
  eq_infinity_iff := nearest_eq_infinity_iff hd
  isFinite_iff := isFinite_nearest_iff hd
  nearest hf y _ := abs_sub_value_nearest_le hd hf y
  even hf _ _ hne h := parity_of_abs_eq hd hf hne h

end Nearest

namespace RoundsTo

variable {v : ℚ} {x y : Binary64}

private theorem value_eq_value (hx : x.RoundsTo v) (hy : y.RoundsTo v) (hxf : x.isFinite) (hyf : y.isFinite) :
    x.value = y.value := by
  by_contra hne
  have h : |v - x.value| = |v - y.value| := le_antisymm (hx.nearest hxf y hyf) (hy.nearest hyf x hxf)
  have he := (hx.even hxf y hyf (Ne.symm hne) h.symm).1
  have ho := (hy.even hyf x hxf hne h).2
  omega

/-- A rational number is rounded to one number only. -/
theorem unique (hx : x.RoundsTo v) (hy : y.RoundsTo v) : x = y := by
  by_cases hv : 2 ^ 1024 - 2 ^ 970 ≤ v
  · rw [hx.eq_infinity_iff.2 hv, hy.eq_infinity_iff.2 hv]
  · have hxf := hx.isFinite_iff.2 (not_le.1 hv)
    have hyf := hy.isFinite_iff.2 (not_le.1 hv)
    have h := hx.value_eq_value hy hxf hyf
    rw [value_eq hx.isNegative, value_eq hy.isNegative, absValue_eq_iff] at h
    exact eq_of_magnitude_eq hx.isNegative hy.isNegative h

end RoundsTo

end Binary64

/-- Every number token of every script holds the number, and no other, that the exact value of its lexeme is rounded to:
the nearest finite number, the one with the even significand if two are equally near, and infinity from half a step
beyond the largest finite number on.  Values up to half the least number above zero give zero. -/
theorem tokenize_nearest {σ : Type} [Sink σ LexicalError] (source : String) (sink : σ) {t : Token}
    (ht : t ∈ (tokenize source sink).1.toList) (hk : t.kind = .number) :
    ∃ (n : Numeral) (x : Binary64), n.Spelled (Text.bytes t.lexeme) ∧ t.literal = some (.number x) ∧
      x.RoundsTo n.value ∧ (n.value ≤ 1 / 2 ^ 1075 → x = .zero) ∧ ∀ y : Binary64, y.RoundsTo n.value → y = x := by
  obtain ⟨n, hn, hx⟩ := (scanned_of_mem ht).exists_numeral hk
  have hr : n.toBinary64.RoundsTo n.value := Binary64.roundsTo_nearest n.denominator_pos
  exact ⟨n, n.toBinary64, hn, hx, hr, Binary64.nearest_eq_zero n.denominator_pos, fun y hy => hy.unique hr⟩

/-- The least whole number that is not a binary64 number lies in the middle between two, and is read as the even one. -/
theorem tokenize_nearest_tie :
    (⟨.number, "9007199254740993", some (.number ⟨0x4340000000000000⟩), 1⟩ : Token) ∈
      (tokenize "9007199254740993" ({} : Storage LexicalError)).1.toList ∧
    (⟨0x4340000000000000⟩ : Binary64).RoundsTo 9007199254740993 ∧
    ∀ y : Binary64, y.RoundsTo 9007199254740993 → y = ⟨0x4340000000000000⟩ := by
  have hs : (⟨Text.bytes "9007199254740993", []⟩ : Numeral).Spelled (Text.bytes "9007199254740993") :=
    Numeral.ofBytes?_eq_some_iff.1 (by decide +kernel)
  have hx : (⟨Text.bytes "9007199254740993", []⟩ : Numeral).toBinary64 = ⟨0x4340000000000000⟩ := by decide +kernel
  have hn : (⟨Text.bytes "9007199254740993", []⟩ : Numeral).numerator = 9007199254740993 := by decide +kernel
  have hd : (⟨Text.bytes "9007199254740993", []⟩ : Numeral).denominator = 1 := by decide +kernel
  have ht : (⟨.number, "9007199254740993", some (.number ⟨0x4340000000000000⟩), 1⟩ : Token) ∈
      (tokenize "9007199254740993" ({} : Storage LexicalError)).1.toList := by
    rw [(tokenize_of_spelled _ hs).1, hx]
    exact List.mem_cons_self
  obtain ⟨n, x, hn', hl, hr, -, hu⟩ := tokenize_nearest _ _ ht rfl
  have hv : n.value = 9007199254740993 := by
    rw [hn'.unique hs, Numeral.value, hn, hd]
    norm_num
  have e : (⟨0x4340000000000000⟩ : Binary64) = x := by
    simpa using hl
  rw [hv, ← e] at hr hu
  exact ⟨ht, hr, hu⟩

end ScriptLexer
