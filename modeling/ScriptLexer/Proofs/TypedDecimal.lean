import Mathlib.Tactic.NormNum
import Mathlib.Tactic.Ring
import ScriptLexer.Proofs.Listing
import ScriptLexer.Proofs.NormalForm
import ScriptLexer.Proofs.Rereading

/-!
# Typed decimals

A numeral with at most six places that is less than `2 ^ 33`, or a whole one up to `2 ^ 53`, is displayed as it was
typed, without superfluous zeros (`tokenize_decimal`).  The key facts: the nearest number to the first kind is off by at
most `2 ^ -21`, less than half a millionth, so its millionths are those of the numeral
(`Binary64.roundHalfEven_nearestMagnitude`), and the second kind is exact
(`Binary64.roundHalfEven_nearestMagnitude_mul`).
-/

namespace ScriptLexer

namespace Binary64

/-! ### The millionths of the nearest number -/

/-- The units of one, as a power. -/
theorem unitsOfOne_eq : Nat.pow 2 1074 = 2 ^ 1074 := by decide +kernel

theorem units_nearest {num den : Nat} (hf : (nearest num den).isFinite) :
    (nearest num den).units = unitsAt (nearestMagnitude (num * Nat.pow 2 1074) den) := by
  rw [isFinite, decide_eq_true_eq, magnitude_nearest] at hf
  rw [units_eq, magnitude_nearest, Nat.min_eq_left]
  omega

section Nearest

variable {num den : Nat} (hd : 0 < den)
include hd

/-- A quotient that is a whole number of steps, `P` of which are as long as `T` units, is rounded to a magnitude that
is rounded back to it, if the quotient is small enough for its error to be less than half a step. -/
theorem roundHalfEven_nearestMagnitude {M P T s : Nat} (hT : T = 2 ^ 20 * 2 ^ s) (hP : P < 2 ^ 20)
    (hM : num * P = M * den) (hn : num ≤ 2 ^ 33 * den) :
    roundHalfEven (unitsAt (nearestMagnitude (num * T) den) * P) T = M := by
  have hs : 0 < 2 ^ s := Nat.two_pow_pos s
  have hu : num * T ≤ 2 ^ 53 * (den * 2 ^ s) :=
    calc num * T ≤ 2 ^ 33 * den * T := Nat.mul_le_mul_right T hn
      _ = 2 ^ 53 * (den * 2 ^ s) := by rw [hT]; ring
  have herr := two_mul_dist_nearestMagnitude_le hd hu
  generalize unitsAt (nearestMagnitude (num * T) den) = a at herr ⊢
  -- both distances are scaled to the same denominator
  have hdist : Nat.dist (a * P) (M * T) * den = Nat.dist (num * T) (a * den) * P := by
    rw [← Nat.dist_mul_right, ← Nat.dist_mul_right, Nat.dist_comm, Nat.mul_right_comm M, ← hM, Nat.mul_right_comm num,
      Nat.mul_right_comm a]
  have hlt : 2 * Nat.dist (a * P) (M * T) * den < T * den :=
    calc 2 * Nat.dist (a * P) (M * T) * den = 2 * Nat.dist (num * T) (a * den) * P := by
          rw [Nat.mul_assoc, hdist, Nat.mul_assoc]
      _ ≤ den * 2 ^ s * P := Nat.mul_le_mul_right P herr
      _ < den * 2 ^ s * 2 ^ 20 := Nat.mul_lt_mul_of_pos_left hP (Nat.mul_pos hd hs)
      _ = T * den := by rw [hT]; ring
  have hhalf := Nat.lt_of_mul_lt_mul_right hlt
  rw [roundHalfEven_eq_iff (by rw [hT]; exact Nat.mul_pos (by decide) hs)]
  exact ⟨Nat.le_of_lt hhalf, fun he => absurd he (Nat.ne_of_lt hhalf)⟩

/-- A whole number with at most 53 binary digits is exact. -/
theorem roundHalfEven_nearestMagnitude_mul {k P T s : Nat} (hT : T = 2 ^ s) (hk : k ≤ 2 ^ 53) :
    roundHalfEven (unitsAt (nearestMagnitude (k * den * T) den) * P) T = k * P := by
  obtain ⟨z, hz⟩ := exists_unitsAt_eq hk s
  rw [← hT] at hz
  rw [Nat.mul_right_comm, ← hz, nearestMagnitude_unitsAt hd, hz, Nat.mul_right_comm,
    roundHalfEven_mul_self (hT ▸ Nat.two_pow_pos s)]

private theorem nearestMagnitude_pow_le {T s : Nat} (hT : T = 2 ^ s) (hn : num ≤ 2 ^ 53 * den) :
    nearestMagnitude (num * T) den ≤ s * 2 ^ 52 + 2 ^ 53 := by
  apply nearestMagnitude_le hd
  rw [unitsAt_add (Nat.le_refl _) (Or.inr (by decide)), Nat.mul_right_comm, hT]
  exact Nat.mul_le_mul_right _ hn

private theorem isFinite_nearest (hn : num ≤ 2 ^ 53 * den) : (nearest num den).isFinite := by
  have hle := nearestMagnitude_pow_le hd unitsOfOne_eq hn
  rw [isFinite, decide_eq_true_eq, magnitude_nearest]
  exact Nat.lt_of_le_of_lt (Nat.min_le_left _ _) (Nat.lt_of_le_of_lt hle (by decide))

end Nearest

end Binary64

/-! ### Numerals with an exact text -/

namespace Numeral

/-- The value is a number of millionths and less than `2 ^ 33`, or it is a natural number up to `2 ^ 53`. -/
def IsShort (n : Numeral) : Prop :=
  (∃ k : ℕ, n.value * 10 ^ 6 = k ∧ n.value < 2 ^ 33) ∨ ∃ k : ℕ, n.value = k ∧ k ≤ 2 ^ 53

section Short

variable {n : Numeral}

private theorem numerator_eq_iff {k : ℕ} : n.value = k ↔ n.numerator = k * n.denominator := by
  have h := value_mul_eq_iff (n := n) (P := 1) (M := k)
  rwa [Nat.cast_one, mul_one, Nat.mul_one] at h

private theorem value_lt_iff {k : ℕ} : n.value < k ↔ n.numerator < k * n.denominator := by
  have hd : (0 : ℚ) < n.denominator := Nat.cast_pos.2 n.denominator_pos
  rw [value, div_lt_iff₀ hd]
  exact_mod_cast Iff.rfl

private theorem IsShort.numerator_le (h : n.IsShort) : n.numerator ≤ 2 ^ 53 * n.denominator := by
  rcases h with ⟨k, -, hlt⟩ | ⟨k, hk, hle⟩
  · have hn : n.numerator < 2 ^ 33 * n.denominator := value_lt_iff.1 (by exact_mod_cast hlt)
    omega
  · rw [numerator_eq_iff.1 hk]
    exact Nat.mul_le_mul_right _ hle

private theorem IsShort.isFinite_toBinary64 (h : n.IsShort) : n.toBinary64.isFinite :=
  Binary64.isFinite_nearest n.denominator_pos h.numerator_le

/-- The number that a short numeral is read as has the millionths of the numeral. -/
private theorem IsShort.value_eq_millionths (h : n.IsShort) : n.value * 10 ^ 6 = n.toBinary64.millionths := by
  rw [Binary64.millionths, toBinary64, Binary64.units_nearest h.isFinite_toBinary64]
  rcases h with ⟨k, hk, hlt⟩ | ⟨k, hk, hle⟩
  · have hM : n.numerator * Nat.pow 10 6 = k * n.denominator := value_mul_eq_iff.1 (by exact_mod_cast hk)
    have hn : n.numerator < 2 ^ 33 * n.denominator := value_lt_iff.1 (by exact_mod_cast hlt)
    have hT : Nat.pow 2 1074 = 2 ^ 20 * 2 ^ 1054 := by decide +kernel
    rw [hk, Binary64.roundHalfEven_nearestMagnitude n.denominator_pos hT (by decide) hM (Nat.le_of_lt hn)]
  · rw [numerator_eq_iff.1 hk,
      Binary64.roundHalfEven_nearestMagnitude_mul n.denominator_pos Binary64.unitsOfOne_eq hle, hk]
    exact_mod_cast rfl

/-- The text of the number that a short numeral is read as spells the normal form of the numeral. -/
private theorem IsShort.spelled_render {p : List UInt8} (hn : n.Spelled p) (h : n.IsShort) :
    n.normalize.Spelled (Text.bytes (Literal.number n.toBinary64).render) := by
  have hneg : n.toBinary64.isNegative = false := Binary64.isNegative_nearest _ _
  rw [Literal.render, Binary64.render_eq h.isFinite_toBinary64 hneg, Text.bytes_ofList_eq_encode]
  exact Binary64.spelled_normalize hn h.value_eq_millionths

end Short

end Numeral

/-! ### Number tokens -/

/-- A number token of a script holds the number that its lexeme is read as. -/
theorem Token.Scanned.exists_numeral {t : Token} (h : t.Scanned) (hk : t.kind = .number) :
    ∃ n : Numeral, n.Spelled (Text.bytes t.lexeme) ∧ t.literal = some (.number n.toBinary64) := by
  rcases h with h | ⟨p, -, hr⟩
  · rw [h] at hk
    cases hk
  · cases hr with
    | number line hn => exact ⟨_, hn, rfl⟩
    | _ => cases hk

private theorem display_number {t : Token} {x : Binary64} (hk : t.kind = .number) (hx : t.literal = some (.number x)) :
    t.display = toString t.line ++ " NUMBER " ++ t.lexeme ++ " " ++ (Literal.number x).render := by
  rw [Token.display, hk, hx]
  simp only [Token.Kind.name, String.append_assoc]
  rfl

/-- A numeral with a value of at most six places less than `2 ^ 33`, or a whole value up to `2 ^ 53`, is one number
token whose value is displayed as the numeral in normal form.  So is every number token of every script with such a
lexeme. -/
theorem tokenize_decimal {σ : Type} [Sink σ LexicalError] (sink : σ) :
    (∀ (w : String) (n : Numeral), n.Spelled (Text.bytes w) → n.IsShort →
      ∃ x : Binary64, (tokenize w sink).1.toList = [⟨.number, w, some (.number x), 1⟩, .eof 1] ∧
        n.normalize.Spelled (Text.bytes (Literal.number x).render)) ∧
    ∀ source : String, ∀ t ∈ (tokenize source sink).1.toList, t.kind = .number →
      ∃ x : Binary64, t.literal = some (.number x) ∧
        t.display = toString t.line ++ " NUMBER " ++ t.lexeme ++ " " ++ (Literal.number x).render ∧
        (∃ n : Numeral, n.Spelled (Text.bytes t.lexeme)) ∧
        ∀ n : Numeral, n.Spelled (Text.bytes t.lexeme) → n.IsShort →
          n.normalize.Spelled (Text.bytes (Literal.number x).render) := by
  constructor
  · intro w n hn h
    exact ⟨n.toBinary64, (tokenize_of_spelled sink hn).1, h.spelled_render hn⟩
  · intro source t ht hk
    obtain ⟨n, hn, hx⟩ := (scanned_of_mem ht).exists_numeral hk
    refine ⟨n.toBinary64, hx, display_number hk hx, ⟨n, hn⟩, ?_⟩
    intro n' hn' h
    rw [hn.unique hn']
    exact h.spelled_render hn'

/-- The last number of millionths below `2 ^ 33`, with a zero more at both ends. -/
theorem tokenize_decimal_below_two_pow :
    (⟨Text.bytes "08589934591", Text.bytes "9999990"⟩ : Numeral).Spelled (Text.bytes "08589934591.9999990") ∧
    (⟨Text.bytes "08589934591", Text.bytes "9999990"⟩ : Numeral).IsShort ∧
    ∃ x : Binary64, (tokenize "08589934591.9999990" ({} : Storage LexicalError)).1.toList =
        [⟨.number, "08589934591.9999990", some (.number x), 1⟩, .eof 1] ∧
      (⟨Text.bytes "8589934591", Text.bytes "999999"⟩ : Numeral).Spelled (Text.bytes (Literal.number x).render) := by
  have hs : (⟨Text.bytes "08589934591", Text.bytes "9999990"⟩ : Numeral).Spelled (Text.bytes "08589934591.9999990") :=
    Numeral.ofBytes?_eq_some_iff.1 (by decide +kernel)
  have hn : (⟨Text.bytes "08589934591", Text.bytes "9999990"⟩ : Numeral).numerator = 85899345919999990 := by
    decide +kernel
  have hd : (⟨Text.bytes "08589934591", Text.bytes "9999990"⟩ : Numeral).denominator = 10 ^ 7 := by
    decide +kernel
  have h : (⟨Text.bytes "08589934591", Text.bytes "9999990"⟩ : Numeral).IsShort := by
    left
    refine ⟨8589934591999999, ?_, ?_⟩
    all_goals
      rw [Numeral.value, hn, hd]
      norm_num
  have e : (⟨Text.bytes "08589934591", Text.bytes "9999990"⟩ : Numeral).normalize =
      ⟨Text.bytes "8589934591", Text.bytes "999999"⟩ := by decide +kernel
  obtain ⟨x, ht, hx⟩ := (tokenize_decimal ({} : Storage LexicalError)).1 _ _ hs h
  exact ⟨hs, h, x, ht, e ▸ hx⟩

end ScriptLexer
