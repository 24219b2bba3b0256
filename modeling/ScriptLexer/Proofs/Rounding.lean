import Mathlib.Data.Nat.Dist
import Mathlib.Order.Monotone.Basic
import ScriptLexer.Binary64.Rounding

/-!
# Nearest numbers

The key facts about natural numbers: `roundHalfEven num den` is the natural number at most one half away from
`num / den`, and the even one if two are (`roundHalfEven_eq_iff`).

The key facts about binary64 numbers, all on magnitudes: a magnitude is `s * 2 ^ 52 + c` for a scale `s` and a
coefficient `c`, and stands for `c * 2 ^ s` units (`unitsAt_add`), so units grow with magnitudes
(`strictMono_unitsAt`).  All units are multiples of `2 ^ s` from `2 ^ 52 * 2 ^ s` on (`unitsAt_grid`).  No magnitude is
nearer to a quotient than the one that `Binary64.nearest` finds (`dist_nearestMagnitude_le`), which is even if another
is as near (`even_nearestMagnitude`), and which is at most half a step of a grid away
(`two_mul_dist_nearestMagnitude_le`).  It is beyond a magnitude exactly if the quotient is beyond the middle between
that one and the next (`lt_nearestMagnitude_iff`).  So a magnitude that is rounded to a number of steps and back is
rounded to the same number again (`roundHalfEven_restep`), and it comes back itself where magnitudes are farther apart
than the steps are long (`restep_eq`).
-/

namespace ScriptLexer

/-! ### Natural numbers -/

private theorem eq_of_dvd_of_dist_lt {a b d : Nat} (ha : d ∣ a) (hb : d ∣ b) (h : Nat.dist a b < d) : a = b :=
  Nat.eq_of_dist_eq_zero (Nat.eq_zero_of_dvd_of_lt (Nat.dvd_add (Nat.dvd_sub ha hb) (Nat.dvd_sub hb ha)) h)

private theorem dist_lt_of_between {n a b c : Nat} (hab : a < b) (hbc : b < c) (h : Nat.dist n a = Nat.dist n c) :
    Nat.dist n b < Nat.dist n a := by
  simp only [Nat.dist] at h ⊢
  omega

private theorem roundHalfEven_cases (num den : Nat) :
    (roundHalfEven num den = num / den ∧ 2 * (num % den) ≤ den) ∨
      (roundHalfEven num den = num / den + 1 ∧ den ≤ 2 * (num % den)) := by
  simp only [roundHalfEven]
  split
  · left
    omega
  · split
    · right
      omega
    · have : num / den % 2 < 2 := Nat.mod_lt _ (by decide)
      by_cases h : num / den % 2 = 0
      · left
        omega
      · right
        omega

theorem even_roundHalfEven {num den : Nat} (h : 2 * (num % den) = den) : roundHalfEven num den % 2 = 0 := by
  simp only [roundHalfEven]
  rw [if_neg (by omega), if_neg (by omega)]
  omega

private theorem dist_roundHalfEven (num den : Nat) (hd : 0 < den) :
    2 * Nat.dist num (roundHalfEven num den * den) ≤ den ∧
      (2 * Nat.dist num (roundHalfEven num den * den) = den → roundHalfEven num den % 2 = 0) := by
  have hn : num / den * den + num % den = num := Nat.div_add_mod' num den
  have hr : num % den < den := Nat.mod_lt num hd
  have hs : (num / den + 1) * den = num / den * den + den := Nat.succ_mul _ _
  have he := @even_roundHalfEven num den
  simp only [Nat.dist]
  rcases roundHalfEven_cases num den with ⟨e, h⟩ | ⟨e, h⟩
  · rw [e] at he ⊢
    exact ⟨by omega, fun ht => he (by omega)⟩
  · rw [e] at he ⊢
    exact ⟨by omega, fun ht => he (by omega)⟩

private theorem not_lt_of_nearest {num den m m' : Nat} (hd : 0 < den) (h : 2 * Nat.dist num (m * den) ≤ den)
    (he : 2 * Nat.dist num (m * den) = den → m % 2 = 0) (h' : 2 * Nat.dist num (m' * den) ≤ den)
    (he' : 2 * Nat.dist num (m' * den) = den → m' % 2 = 0) : ¬ m < m' := by
  intro hlt
  obtain ⟨k, rfl⟩ := Nat.exists_eq_add_of_lt hlt
  have e : (m + k + 1) * den = m * den + k * den + den := by rw [Nat.add_mul, Nat.add_mul, Nat.one_mul]
  simp only [Nat.dist, e] at h he h' he'
  -- both are one half away, so they are neighbours
  have hk : k * den = 0 := by omega
  have hk0 : k = 0 := (Nat.mul_eq_zero.1 hk).resolve_right (by omega)
  have hm := he (by omega)
  have hm' := he' (by omega)
  omega

theorem roundHalfEven_eq_iff {num den m : Nat} (hd : 0 < den) :
    roundHalfEven num den = m ↔
      2 * Nat.dist num (m * den) ≤ den ∧ (2 * Nat.dist num (m * den) = den → m % 2 = 0) := by
  have h := dist_roundHalfEven num den hd
  constructor
  · rintro rfl
    exact h
  · intro h'
    exact Nat.le_antisymm (Nat.not_lt.1 (not_lt_of_nearest hd h'.1 h'.2 h.1 h.2))
      (Nat.not_lt.1 (not_lt_of_nearest hd h.1 h.2 h'.1 h'.2))

theorem roundHalfEven_mul_self {k den : Nat} (hd : 0 < den) : roundHalfEven (k * den) den = k := by
  rw [roundHalfEven_eq_iff hd, Nat.dist_self]
  exact ⟨Nat.zero_le _, fun h => absurd h (Nat.ne_of_lt hd)⟩

/-- No multiple of `den` is nearer to `num`. -/
theorem dist_roundHalfEven_le {num den : Nat} (hd : 0 < den) (k : Nat) :
    Nat.dist num (roundHalfEven num den * den) ≤ Nat.dist num (k * den) := by
  have h := (dist_roundHalfEven num den hd).1
  rcases Nat.lt_trichotomy k (roundHalfEven num den) with hk | rfl | hk
  · have hm := Nat.mul_le_mul_right den (Nat.succ_le_of_lt hk)
    rw [Nat.succ_mul] at hm
    simp only [Nat.dist] at h ⊢
    omega
  · exact Nat.le_refl _
  · have hm := Nat.mul_le_mul_right den (Nat.succ_le_of_lt hk)
    rw [Nat.succ_mul] at hm
    simp only [Nat.dist] at h ⊢
    omega

theorem roundHalfEven_le {num den k : Nat} (hd : 0 < den) (h : num ≤ k * den) : roundHalfEven num den ≤ k := by
  have hn := Nat.div_add_mod' num den
  rcases roundHalfEven_cases num den with ⟨e, hr⟩ | ⟨e, hr⟩
  · rw [e]
    exact Nat.le_of_mul_le_mul_right (by omega) hd
  · rw [e]
    exact Nat.lt_of_mul_lt_mul_right (a := den) (by omega)

theorem le_roundHalfEven {num den k : Nat} (hd : 0 < den) (h : k * den ≤ num) : k ≤ roundHalfEven num den := by
  have hk : k ≤ num / den := (Nat.le_div_iff_mul_le hd).2 h
  have := roundHalfEven_cases num den
  omega

theorem roundHalfEven_mul_right (num den : Nat) {c : Nat} (hc : 0 < c) :
    roundHalfEven (num * c) (den * c) = roundHalfEven num den := by
  have e : 2 * (num % den * c) = 2 * (num % den) * c := (Nat.mul_assoc _ _ _).symm
  simp only [roundHalfEven, Nat.mul_div_mul_right _ _ hc, Nat.mul_mod_mul_right, e, Nat.mul_lt_mul_right hc]

namespace Binary64

/-! ### Magnitudes -/

/-- What a magnitude stands for, in units of `2 ^ -1074`.  Magnitudes from that of infinity on are counted as if they
were finite. -/
def unitsAt (m : Nat) : Nat :=
  (if m / Nat.pow 2 52 = 0 then m % Nat.pow 2 52 else Nat.pow 2 52 + m % Nat.pow 2 52) *
    Nat.pow 2 (m / Nat.pow 2 52 - 1)

theorem units_eq (x : Binary64) : x.units = unitsAt x.magnitude := rfl

theorem unitsAt_add {s c : Nat} (hc : c ≤ 2 ^ 53) (hs : s = 0 ∨ 2 ^ 52 ≤ c) : unitsAt (s * 2 ^ 52 + c) = c * 2 ^ s := by
  have hp : Nat.pow 2 52 = 2 ^ 52 := rfl
  rw [unitsAt, hp, Nat.pow_eq]
  rcases Nat.lt_or_ge c (2 ^ 52) with h | h
  · -- without a leading digit there is no scale
    have hd : (s * 2 ^ 52 + c) / 2 ^ 52 = 0 := by omega
    have hm : (s * 2 ^ 52 + c) % 2 ^ 52 = c := by omega
    have h0 : s = 0 := by omega
    rw [hd, hm, if_pos rfl, h0]
  rcases Nat.lt_or_ge c (2 ^ 53) with h' | h'
  · have hd : (s * 2 ^ 52 + c) / 2 ^ 52 = s + 1 := by omega
    have hm : 2 ^ 52 + (s * 2 ^ 52 + c) % 2 ^ 52 = c := by omega
    rw [hd, hm, if_neg (Nat.succ_ne_zero s), Nat.add_sub_cancel]
  · -- the coefficient of the next scale is half as large
    have hd : (s * 2 ^ 52 + c) / 2 ^ 52 = s + 1 + 1 := by omega
    have hm : (s * 2 ^ 52 + c) % 2 ^ 52 = 0 := by omega
    have h2 : c = 2 ^ 52 * 2 := by omega
    rw [hd, hm, if_neg (Nat.succ_ne_zero _), Nat.add_sub_cancel, Nat.add_zero, h2, Nat.mul_assoc, ← Nat.pow_succ']

/-- Coefficients of a scale need no leading digit to stand for the units of a magnitude. -/
theorem exists_unitsAt_eq {c : Nat} (hc : c ≤ 2 ^ 53) (s : Nat) : ∃ z, unitsAt z = c * 2 ^ s := by
  induction s generalizing c with
  | zero => exact ⟨_, unitsAt_add hc (Or.inl rfl)⟩
  | succ s ih =>
    rcases Nat.lt_or_ge c (2 ^ 52) with h | h
    · -- the coefficient of the scale below is twice as large
      obtain ⟨z, hz⟩ := ih (c := c * 2) (by omega)
      exact ⟨z, by rw [hz, Nat.pow_succ', Nat.mul_assoc]⟩
    · exact ⟨_, unitsAt_add hc (Or.inr h)⟩

/-- Every magnitude has a scale and a coefficient. -/
private theorem exists_scale (m : Nat) : ∃ s c, m = s * 2 ^ 52 + c ∧ c < 2 ^ 53 ∧ (s = 0 ∨ 2 ^ 52 ≤ c) := by
  refine ⟨m / 2 ^ 52 - 1, m - (m / 2 ^ 52 - 1) * 2 ^ 52, ?_, ?_, ?_⟩ <;> omega

theorem strictMono_unitsAt : StrictMono unitsAt := by
  refine strictMono_nat_of_lt_succ fun m => ?_
  obtain ⟨s, c, rfl, hc, hs⟩ := exists_scale m
  rw [Nat.add_assoc, unitsAt_add (Nat.le_of_lt hc) hs, unitsAt_add hc (by omega), Nat.succ_mul]
  exact Nat.lt_add_of_pos_right (Nat.two_pow_pos s)

/-- The units of a magnitude are on the grid of a scale, or below its first coefficient with a leading digit. -/
theorem unitsAt_grid (m s : Nat) : 2 ^ s ∣ unitsAt m ∨ 0 < s ∧ unitsAt m < 2 ^ 52 * 2 ^ s := by
  obtain ⟨t, c, rfl, hc, ht⟩ := exists_scale m
  rw [unitsAt_add (Nat.le_of_lt hc) ht]
  by_cases hst : s ≤ t
  · exact Or.inl (Nat.dvd_mul_left_of_dvd (Nat.pow_dvd_pow 2 hst) c)
  · right
    refine ⟨by omega, ?_⟩
    calc c * 2 ^ t < 2 ^ 53 * 2 ^ t := Nat.mul_lt_mul_of_pos_right hc (Nat.two_pow_pos t)
      _ = 2 ^ 52 * 2 ^ (t + 1) := by rw [← Nat.pow_add, ← Nat.pow_add]; congr 1; omega
      _ ≤ 2 ^ 52 * 2 ^ s := Nat.mul_le_mul_left _ (Nat.pow_le_pow_right (by decide) (by omega))

/-! ### The nearest magnitude -/

/-- The magnitude that stands for the units nearest to `u / den`, with no limit to it. -/
def nearestMagnitude (u den : Nat) : Nat :=
  ((u / den).log2 - 52) * Nat.pow 2 52 + roundHalfEven u (den * Nat.pow 2 ((u / den).log2 - 52))

private theorem nearest_eq (num den : Nat) :
    nearest num den = ofMagnitude (min (nearestMagnitude (num * Nat.pow 2 1074) den) infinityMagnitude) := rfl

theorem magnitude_nearest (num den : Nat) :
    (nearest num den).magnitude = min (nearestMagnitude (num * Nat.pow 2 1074) den) infinityMagnitude := by
  rw [nearest_eq, magnitude_ofMagnitude]
  exact Nat.lt_of_le_of_lt (Nat.min_le_right _ _) (by decide)

theorem magnitude_nearest_le (num den : Nat) : (nearest num den).magnitude ≤ infinityMagnitude := by
  rw [magnitude_nearest]
  exact Nat.min_le_right _ _

theorem isNegative_nearest (num den : Nat) : (nearest num den).isNegative = false := by
  rw [nearest_eq, isNegative_ofMagnitude]
  exact Nat.lt_of_le_of_lt (Nat.min_le_right _ _) (by decide)

private theorem nearestMagnitude_mul_right (u den : Nat) {c : Nat} (hc : 0 < c) :
    nearestMagnitude (u * c) (den * c) = nearestMagnitude u den := by
  rw [nearestMagnitude, nearestMagnitude, Nat.mul_div_mul_right _ _ hc, Nat.mul_right_comm den c,
    roundHalfEven_mul_right _ _ hc]

theorem nearest_mul_right (num den : Nat) {c : Nat} (hc : 0 < c) : nearest (num * c) (den * c) = nearest num den := by
  rw [nearest_eq, nearest_eq, Nat.mul_right_comm, nearestMagnitude_mul_right _ _ hc]

/-- The nearest magnitude is found at a scale whose grid has all the coefficients a quotient can be rounded to. -/
private theorem nearestMagnitude_scale {u den : Nat} (hd : 0 < den) :
    ∃ s, nearestMagnitude u den = s * 2 ^ 52 + roundHalfEven u (den * 2 ^ s) ∧ roundHalfEven u (den * 2 ^ s) ≤ 2 ^ 53 ∧
      (s = 0 ∨ 2 ^ 52 * (den * 2 ^ s) ≤ u) := by
  refine ⟨(u / den).log2 - 52, rfl, ?_, ?_⟩
  · have hq : u / den < 2 ^ 53 * 2 ^ ((u / den).log2 - 52) :=
      calc u / den < 2 ^ ((u / den).log2 + 1) := Nat.lt_log2_self
        _ ≤ 2 ^ (53 + ((u / den).log2 - 52)) := Nat.pow_le_pow_right (by decide) (by omega)
        _ = 2 ^ 53 * 2 ^ ((u / den).log2 - 52) := Nat.pow_add _ _ _
    apply roundHalfEven_le (Nat.mul_pos hd (Nat.two_pow_pos _))
    rw [Nat.mul_left_comm, Nat.mul_comm]
    exact Nat.le_of_lt ((Nat.div_lt_iff_lt_mul hd).1 hq)
  · rcases Nat.eq_zero_or_pos ((u / den).log2 - 52) with h | h
    · exact Or.inl h
    · right
      have hne : u / den ≠ 0 := by
        intro h0
        rw [h0, Nat.log2_zero] at h
        omega
      have hq : 2 ^ 52 * 2 ^ ((u / den).log2 - 52) ≤ u / den :=
        calc 2 ^ 52 * 2 ^ ((u / den).log2 - 52) = 2 ^ (52 + ((u / den).log2 - 52)) := (Nat.pow_add _ _ _).symm
          _ = 2 ^ (u / den).log2 := by congr 1; omega
          _ ≤ u / den := Nat.log2_self_le hne
      rw [Nat.mul_left_comm, Nat.mul_comm]
      exact (Nat.le_div_iff_mul_le hd).1 hq

private theorem unitsAt_nearestMagnitude {u den : Nat} (hd : 0 < den) :
    ∃ s, nearestMagnitude u den % 2 = roundHalfEven u (den * 2 ^ s) % 2 ∧
      unitsAt (nearestMagnitude u den) * den = roundHalfEven u (den * 2 ^ s) * (den * 2 ^ s) ∧
      (s = 0 ∨ 2 ^ 52 * (den * 2 ^ s) ≤ u) := by
  obtain ⟨s, hm, hc, hs⟩ := @nearestMagnitude_scale u den hd
  refine ⟨s, by omega, ?_, hs⟩
  rw [hm, unitsAt_add hc (hs.imp_right (le_roundHalfEven (Nat.mul_pos hd (Nat.two_pow_pos s)))), Nat.mul_assoc,
    Nat.mul_comm (2 ^ s)]

/-- Where a quotient is rounded on the grid of a scale, a magnitude is on the grid or farther from the quotient than
one that is. -/
private theorem unitsAt_grid_or_farther {u den s : Nat} (hd : 0 < den) (hs : s = 0 ∨ 2 ^ 52 * (den * 2 ^ s) ≤ u)
    (z : Nat) :
    (∃ k, unitsAt z * den = k * (den * 2 ^ s)) ∨
      Nat.dist u (2 ^ 52 * (den * 2 ^ s)) < Nat.dist u (unitsAt z * den) := by
  rcases unitsAt_grid z s with ⟨k, hk⟩ | ⟨h0, hz⟩
  · exact Or.inl ⟨k, by rw [hk, Nat.mul_comm (2 ^ s), Nat.mul_assoc, Nat.mul_comm (2 ^ s)]⟩
  · right
    have hu := hs.resolve_left (Nat.ne_of_gt h0)
    have hlt : unitsAt z * den < 2 ^ 52 * (den * 2 ^ s) := by
      rw [Nat.mul_left_comm, Nat.mul_comm]
      exact Nat.mul_lt_mul_of_pos_left hz hd
    rw [Nat.dist_eq_sub_of_le_right hu, Nat.dist_eq_sub_of_le_right (Nat.le_trans (Nat.le_of_lt hlt) hu)]
    exact Nat.sub_lt_sub_left (Nat.lt_of_lt_of_le hlt hu) hlt

/-- No magnitude stands for units that are nearer to the quotient. -/
theorem dist_nearestMagnitude_le {u den : Nat} (hd : 0 < den) (z : Nat) :
    Nat.dist u (unitsAt (nearestMagnitude u den) * den) ≤ Nat.dist u (unitsAt z * den) := by
  obtain ⟨s, -, e, hs⟩ := @unitsAt_nearestMagnitude u den hd
  have hpos : 0 < den * 2 ^ s := Nat.mul_pos hd (Nat.two_pow_pos s)
  rw [e]
  rcases unitsAt_grid_or_farther hd hs z with ⟨k, hk⟩ | hz
  · rw [hk]
    exact dist_roundHalfEven_le hpos k
  · exact Nat.le_trans (dist_roundHalfEven_le hpos (2 ^ 52)) (Nat.le_of_lt hz)

/-- If another magnitude stands for units as near to the quotient, then the one that is found is even. -/
theorem even_nearestMagnitude {u den z : Nat} (hd : 0 < den) (hne : z ≠ nearestMagnitude u den)
    (h : Nat.dist u (unitsAt z * den) ≤ Nat.dist u (unitsAt (nearestMagnitude u den) * den)) :
    nearestMagnitude u den % 2 = 0 := by
  obtain ⟨s, hm, e, hs⟩ := @unitsAt_nearestMagnitude u den hd
  have hpos : 0 < den * 2 ^ s := Nat.mul_pos hd (Nat.two_pow_pos s)
  have hle : Nat.dist u (roundHalfEven u (den * 2 ^ s) * (den * 2 ^ s)) ≤ _ := dist_roundHalfEven_le hpos (2 ^ 52)
  rw [e] at h
  rcases unitsAt_grid_or_farther hd hs z with ⟨k, hk⟩ | hz
  · have hk' : k ≠ roundHalfEven u (den * 2 ^ s) := by
      rintro rfl
      rw [← e] at hk
      exact hne (strictMono_unitsAt.injective (Nat.eq_of_mul_eq_mul_right hd hk))
    -- the other multiple is at least one half of a step away, or the quotient would be rounded to it
    have hge : den * 2 ^ s ≤ 2 * Nat.dist u (k * (den * 2 ^ s)) :=
      Nat.not_lt.1 fun hlt => hk' ((roundHalfEven_eq_iff hpos).2 ⟨by omega, by omega⟩).symm
    obtain ⟨hr, he⟩ := (roundHalfEven_eq_iff hpos).1 (rfl : roundHalfEven u (den * 2 ^ s) = _)
    rw [hk] at h
    rw [hm]
    exact he (by omega)
  · omega

section Middle

variable {u den z : Nat} (hd : 0 < den)
include hd

private theorem unitsAt_mul_lt {w : Nat} (h : z < w) : unitsAt z * den < unitsAt w * den :=
  Nat.mul_lt_mul_of_pos_right (strictMono_unitsAt h) hd

private theorem lt_nearestMagnitude_of_lt (h : (unitsAt z + unitsAt (z + 1)) * den < 2 * u) :
    z < nearestMagnitude u den := by
  refine Nat.not_le.1 fun hm => ?_
  have hle := Nat.mul_le_mul_right den (strictMono_unitsAt.monotone hm)
  have hlt := unitsAt_mul_lt hd (Nat.lt_add_one z)
  have hn := dist_nearestMagnitude_le (u := u) hd (z + 1)
  rw [Nat.add_mul] at h
  simp only [Nat.dist] at hn
  omega

private theorem nearestMagnitude_le_of_lt (h : 2 * u < (unitsAt z + unitsAt (z + 1)) * den) :
    nearestMagnitude u den ≤ z := by
  refine Nat.not_lt.1 fun hm => ?_
  have hle := Nat.mul_le_mul_right den (strictMono_unitsAt.monotone (Nat.add_one_le_of_lt hm))
  have hlt := unitsAt_mul_lt hd (Nat.lt_add_one z)
  have hn := dist_nearestMagnitude_le (u := u) hd z
  rw [Nat.add_mul] at h
  simp only [Nat.dist] at hn
  omega

private theorem lt_nearestMagnitude_iff_of_eq (h : (unitsAt z + unitsAt (z + 1)) * den = 2 * u) :
    z < nearestMagnitude u den ↔ z % 2 = 1 := by
  have hlt := unitsAt_mul_lt hd (Nat.lt_add_one z)
  rw [Nat.add_mul] at h
  -- all magnitudes but these two are farther from the middle
  have hm : nearestMagnitude u den = z ∨ nearestMagnitude u den = z + 1 := by
    have hn := dist_nearestMagnitude_le (u := u) hd z
    rcases Nat.lt_trichotomy (nearestMagnitude u den) z with hb | hb | hb
    · have := unitsAt_mul_lt hd hb
      simp only [Nat.dist] at hn
      omega
    · exact Or.inl hb
    · refine Or.inr (Nat.le_antisymm (Nat.not_lt.1 fun ha => ?_) hb)
      have := unitsAt_mul_lt hd ha
      simp only [Nat.dist] at hn
      omega
  have he : Nat.dist u (unitsAt z * den) = Nat.dist u (unitsAt (z + 1) * den) := by
    simp only [Nat.dist]
    omega
  rcases hm with hm | hm
  · have := even_nearestMagnitude (u := u) (z := z + 1) hd (by omega) (by rw [hm, he])
    omega
  · have := even_nearestMagnitude (u := u) (z := z) hd (by omega) (by rw [hm, he])
    omega

/-- The nearest magnitude is beyond a given one if the quotient lies beyond the middle between that one and the next,
or in the middle if the next one is even. -/
theorem lt_nearestMagnitude_iff :
    z < nearestMagnitude u den ↔
      (unitsAt z + unitsAt (z + 1)) * den < 2 * u ∨ ((unitsAt z + unitsAt (z + 1)) * den = 2 * u ∧ z % 2 = 1) := by
  rcases Nat.lt_trichotomy ((unitsAt z + unitsAt (z + 1)) * den) (2 * u) with h | h | h
  · exact iff_of_true (lt_nearestMagnitude_of_lt hd h) (Or.inl h)
  · rw [lt_nearestMagnitude_iff_of_eq hd h]
    omega
  · exact iff_of_false (Nat.not_lt.2 (nearestMagnitude_le_of_lt hd h)) (by omega)

/-- If another magnitude stands for units as near to the quotient, then the one that is found is even and the other one
odd. -/
theorem parity_of_dist_eq (hne : z ≠ nearestMagnitude u den)
    (h : Nat.dist u (unitsAt z * den) = Nat.dist u (unitsAt (nearestMagnitude u den) * den)) :
    nearestMagnitude u den % 2 = 0 ∧ z % 2 = 1 := by
  have he := even_nearestMagnitude hd hne (Nat.le_of_eq h)
  refine ⟨he, ?_⟩
  -- a magnitude between the two would be nearer, so they are neighbours
  rcases Nat.lt_or_gt_of_ne hne with hlt | hgt
  · have : ¬ z + 1 < nearestMagnitude u den := fun hb => by
      have hd' := dist_lt_of_between (unitsAt_mul_lt hd (Nat.lt_add_one z)) (unitsAt_mul_lt hd hb) h
      rw [h] at hd'
      exact absurd (dist_nearestMagnitude_le hd (z + 1)) (Nat.not_le.2 hd')
    omega
  · have : ¬ nearestMagnitude u den + 1 < z := fun hb => by
      have hd' := dist_lt_of_between (unitsAt_mul_lt hd (Nat.lt_add_one _)) (unitsAt_mul_lt hd hb) h.symm
      exact absurd (dist_nearestMagnitude_le hd (nearestMagnitude u den + 1)) (Nat.not_le.2 hd')
    omega

end Middle

/-- A magnitude is the nearest one to the units that it stands for. -/
theorem nearestMagnitude_unitsAt {den : Nat} (hd : 0 < den) (z : Nat) : nearestMagnitude (unitsAt z * den) den = z := by
  have h := dist_nearestMagnitude_le (u := unitsAt z * den) hd z
  rw [Nat.dist_self, Nat.le_zero] at h
  exact (strictMono_unitsAt.injective (Nat.eq_of_mul_eq_mul_right hd (Nat.eq_of_dist_eq_zero h))).symm

theorem nearestMagnitude_le {u den z : Nat} (hd : 0 < den) (h : u ≤ unitsAt z * den) : nearestMagnitude u den ≤ z := by
  refine Nat.not_lt.1 fun hlt => ?_
  have hz := Nat.mul_lt_mul_of_pos_right (strictMono_unitsAt hlt) hd
  have hn := dist_nearestMagnitude_le (u := u) hd z
  rw [Nat.dist_eq_sub_of_le h, Nat.dist_eq_sub_of_le (Nat.le_trans h (Nat.le_of_lt hz))] at hn
  omega

/-- The error of the nearest magnitude is at most half a step of any grid that reaches to the quotient. -/
theorem two_mul_dist_nearestMagnitude_le {u den s : Nat} (hd : 0 < den) (hu : u ≤ 2 ^ 53 * (den * 2 ^ s)) :
    2 * Nat.dist u (unitsAt (nearestMagnitude u den) * den) ≤ den * 2 ^ s := by
  have hpos : 0 < den * 2 ^ s := Nat.mul_pos hd (Nat.two_pow_pos s)
  obtain ⟨z, hz⟩ := exists_unitsAt_eq (roundHalfEven_le hpos hu) s
  have hn := dist_nearestMagnitude_le (u := u) hd z
  rw [hz, Nat.mul_assoc, Nat.mul_comm (2 ^ s)] at hn
  have hr := ((roundHalfEven_eq_iff hpos).1 (rfl : roundHalfEven u (den * 2 ^ s) = _)).1
  omega

/-! ### Rounding to steps and back -/

/-- The units of a magnitude are rounded to a whole number of steps, `P` of which are as long as `T` units, and that
number of steps is rounded to a magnitude. -/
def restep (T P z : Nat) : Nat :=
  nearestMagnitude (roundHalfEven (unitsAt z * P) T * T) P

/-- Steps of which `P` are as long as `T` units are shorter than `2 ^ s` units, and `2 ^ 52` times as many units are a
whole number of steps. -/
structure ShortSteps (T P s : Nat) : Prop where
  pos : 0 < T
  lt : T < P * 2 ^ s
  dvd : T ∣ 2 ^ 52 * 2 ^ s

private theorem ShortSteps.count_pos {T P s : Nat} (h : ShortSteps T P s) : 0 < P :=
  Nat.pos_of_mul_pos_right (Nat.lt_trans h.pos h.lt)

section

variable {T P s : Nat} (h : ShortSteps T P s) (z : Nat)
include h

/-- The second magnitude is rounded to the same number of steps as the first. -/
theorem roundHalfEven_restep :
    roundHalfEven (unitsAt (restep T P z) * P) T = roundHalfEven (unitsAt z * P) T := by
  obtain ⟨hz, he⟩ := (roundHalfEven_eq_iff h.pos).1 (rfl : roundHalfEven (unitsAt z * P) T = _)
  have hd : Nat.dist _ (unitsAt (restep T P z) * P) ≤ _ := dist_nearestMagnitude_le h.count_pos z
  rw [Nat.dist_comm, Nat.dist_comm _ (unitsAt z * P)] at hd
  rw [roundHalfEven_eq_iff h.pos]
  exact ⟨by omega, fun ht => he (by omega)⟩

private theorem dist_restep_lt : Nat.dist (unitsAt (restep T P z)) (unitsAt z) < 2 ^ s := by
  have hs := h.lt
  have hz := ((roundHalfEven_eq_iff h.pos).1 (rfl : roundHalfEven (unitsAt z * P) T = _)).1
  have hd : Nat.dist _ (unitsAt (restep T P z) * P) ≤ _ := dist_nearestMagnitude_le h.count_pos z
  have ht := Nat.dist.triangle_inequality (unitsAt (restep T P z) * P) (roundHalfEven (unitsAt z * P) T * T)
    (unitsAt z * P)
  rw [Nat.dist_comm, Nat.dist_comm _ (unitsAt z * P)] at hd
  rw [Nat.dist_mul_right, Nat.dist_comm _ (unitsAt z * P)] at ht
  refine Nat.lt_of_mul_lt_mul_right (a := P) ?_
  rw [Nat.mul_comm (2 ^ s)]
  omega

/-- The two magnitudes are the same where magnitudes are farther apart than the steps are long. -/
theorem restep_eq (hz : 2 ^ 52 * 2 ^ s ≤ unitsAt z) : restep T P z = z := by
  apply strictMono_unitsAt.injective
  rcases Nat.eq_or_lt_of_le hz with hz' | hz'
  · -- below the first number of the grid they are nearer, but that number is a whole number of steps
    obtain ⟨k, hk⟩ := Nat.dvd_mul_right_of_dvd (hz' ▸ h.dvd) P
    rw [Nat.mul_comm T] at hk
    have hd := dist_nearestMagnitude_le (u := k * T) h.count_pos z
    rw [hk, Nat.dist_self, Nat.le_zero, ← hk] at hd
    rw [restep, hk, roundHalfEven_mul_self h.pos, ← hk]
    exact (Nat.eq_of_mul_eq_mul_right h.count_pos (Nat.eq_of_dist_eq_zero hd)).symm
  · have hd := dist_restep_lt h z
    have hg : 2 ^ s ∣ unitsAt z := (unitsAt_grid z s).resolve_right fun hlt => absurd hlt.2 (Nat.not_lt.2 hz)
    have hnext : 2 ^ 52 * 2 ^ s + 2 ^ s ≤ unitsAt z := by
      refine Nat.not_lt.1 fun hlt => absurd (eq_of_dvd_of_dist_lt (Nat.dvd_mul_left _ _) hg ?_) (Nat.ne_of_lt hz')
      rw [Nat.dist_eq_sub_of_le hz]
      omega
    have hg' : 2 ^ s ∣ unitsAt (restep T P z) := by
      refine (unitsAt_grid _ s).resolve_right fun hlt => absurd hlt.2 (Nat.not_lt.2 ?_)
      simp only [Nat.dist] at hd
      omega
    exact eq_of_dvd_of_dist_lt hg' hg hd

/-- The second magnitude is finite if the first is. -/
theorem restep_lt (hs : s < 2046) (hz : z < infinityMagnitude) : restep T P z < infinityMagnitude := by
  rcases Nat.lt_or_ge (unitsAt z) (2 ^ 52 * 2 ^ s) with hz' | hz'
  · have hd := dist_restep_lt h z
    obtain ⟨t, hm, ht⟩ : ∃ t, infinityMagnitude = t * 2 ^ 52 + 2 ^ 52 ∧ s < t := ⟨2046, by decide, hs⟩
    have hp : 2 ^ (s + 1) ≤ 2 ^ t := Nat.pow_le_pow_right (by decide) ht
    refine strictMono_unitsAt.lt_iff_lt.1 ?_
    rw [hm, unitsAt_add (by decide) (Or.inr (Nat.le_refl _))]
    refine Nat.lt_of_lt_of_le ?_ (Nat.mul_le_mul_left (2 ^ 52) hp)
    rw [Nat.pow_succ]
    simp only [Nat.dist] at hd
    omega
  · rwa [restep_eq h z hz']

end

end Binary64

end ScriptLexer
