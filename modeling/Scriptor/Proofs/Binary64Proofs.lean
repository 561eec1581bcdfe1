import Scriptor.Binary64
import Mathlib.Algebra.Order.Field.Power
import Mathlib.Tactic.FieldSimp
import Mathlib.Tactic.Linarith
import Mathlib.Tactic.NormNum
import Mathlib.Tactic.Positivity
import Mathlib.Tactic.Ring

/-!
# Rounding to a 53-bit significand: the general facts

Which integer `roundToInt` gives is decided by a bracket around the number (`roundToInt_of_lt`,
`roundToInt_half`), and so is which multiple of a power of two `round` gives, once the binade is
known (`round_eq`). A multiple of a power of two with a short enough factor is left as it is
(`round_of_short`).
-/

namespace Binary64

variable {x : ℚ} {n e j : ℤ}

/-! ## To an integer -/

theorem roundToInt_of_lt (hlo : n - 1 / 2 < x) (hhi : x < n + 1 / 2) : roundToInt x = n := by
  rcases le_or_gt (n : ℚ) x with hx | hx
  · have hfloor : ⌊x⌋ = n := Int.floor_eq_iff.mpr ⟨hx, by linarith⟩
    have hfrac : x - n < 1 / 2 := by linarith
    simp only [roundToInt, hfloor, if_pos hfrac]
  · have hfloor : ⌊x⌋ = n - 1 := by
      refine Int.floor_eq_iff.mpr ⟨?_, ?_⟩
      · push_cast
        linarith
      · push_cast
        linarith
    have hfrac : 1 / 2 < x - ((n - 1 : ℤ) : ℚ) := by
      push_cast
      linarith
    simp only [roundToInt, hfloor, if_neg (not_lt.mpr hfrac.le), if_pos hfrac]
    omega

theorem roundToInt_half (n : ℤ) : roundToInt (n + 1 / 2) = if n % 2 = 0 then n else n + 1 := by
  have hfloor : ⌊(n + 1 / 2 : ℚ)⌋ = n := by
    refine Int.floor_eq_iff.mpr ⟨?_, ?_⟩
    · linarith
    · linarith
  have hfrac : (n + 1 / 2 : ℚ) - n = 1 / 2 := by ring
  simp only [roundToInt, hfloor, hfrac, lt_irrefl, if_false]

theorem roundToInt_intCast (n : ℤ) : roundToInt n = n :=
  roundToInt_of_lt (by linarith) (by linarith)

/-- Rounding changes a number by at most one half. -/
theorem roundToInt_near (x : ℚ) : x - 1 / 2 ≤ roundToInt x ∧ (roundToInt x : ℚ) ≤ x + 1 / 2 := by
  have hlo := Int.floor_le x
  have hhi := Int.lt_floor_add_one x
  simp only [roundToInt]
  split_ifs
  all_goals
    push_cast
    constructor
    all_goals linarith

/-! ## To a 53-bit significand -/

theorem log_eq (hlo : 2 ^ e ≤ x) (hhi : x < 2 ^ (e + 1)) : Int.log 2 x = e := by
  have hx : 0 < x := lt_of_lt_of_le (by positivity) hlo
  have hle : e ≤ Int.log 2 x := (Int.zpow_le_iff_le_log one_lt_two hx).mp (by exact_mod_cast hlo)
  have hlt : Int.log 2 x < e + 1 :=
    (Int.lt_zpow_iff_log_lt one_lt_two hx).mp (by exact_mod_cast hhi)
  omega

/-- In the binade of `2 ^ e`, rounding is rounding to a multiple of `2 ^ (e - 52)`. -/
theorem round_eq (hlo : 2 ^ e ≤ x) (hhi : x < 2 ^ (e + 1)) :
    round x = roundToInt (x / 2 ^ (e - 52)) * 2 ^ (e - 52) := by
  have hx : 0 < x := lt_of_lt_of_le (by positivity) hlo
  rw [round, if_neg hx.ne', ulp, abs_of_pos hx, log_eq hlo hhi]

/-- The binade of a number does not matter for how its significand is rounded. -/
theorem round_scaled (hlo : 2 ^ 52 ≤ x) (hhi : x < 2 ^ 53) (j : ℤ) :
    round (x * 2 ^ j) = roundToInt x * 2 ^ j := by
  have hpow : (0 : ℚ) < 2 ^ j := by positivity
  have hlo' : 2 ^ (52 + j) ≤ x * 2 ^ j := by
    rw [zpow_add₀ two_ne_zero]
    exact mul_le_mul_of_nonneg_right (by exact_mod_cast hlo) hpow.le
  have hhi' : x * 2 ^ j < 2 ^ (52 + j + 1) := by
    rw [add_right_comm, zpow_add₀ two_ne_zero]
    exact mul_lt_mul_of_pos_right (by exact_mod_cast hhi) hpow
  rw [round_eq hlo' hhi', add_sub_cancel_left, mul_div_cancel_right₀ _ hpow.ne']

theorem round_zero : round 0 = 0 := if_pos rfl

/-- An integer of less than 53 bits, scaled by a power of two, is a double. -/
theorem round_of_short (hn : |n| < 2 ^ 53) : round (n * 2 ^ j) = n * 2 ^ j := by
  by_cases hzero : n = 0
  · rw [hzero, Int.cast_zero, zero_mul, round_zero]
  · have hpow : (0 : ℚ) < 2 ^ j := by positivity
    have hx : (n * 2 ^ j : ℚ) ≠ 0 := mul_ne_zero (by exact_mod_cast hzero) hpow.ne'
    have habs : |(n * 2 ^ j : ℚ)| < 2 ^ (53 + j) := by
      have hn' : |(n : ℚ)| < 2 ^ (53 : ℤ) := by exact_mod_cast hn
      rw [abs_mul, abs_of_pos hpow, zpow_add₀ two_ne_zero]
      exact mul_lt_mul_of_pos_right hn' hpow
    have hlog : Int.log 2 |(n * 2 ^ j : ℚ)| < 53 + j :=
      (Int.lt_zpow_iff_log_lt one_lt_two (abs_pos.mpr hx)).mp (by exact_mod_cast habs)
    obtain ⟨d, hd⟩ : ∃ d : ℕ, j - (Int.log 2 |(n * 2 ^ j : ℚ)| - 52) = d :=
      Int.eq_ofNat_of_zero_le (by omega)
    have hulp : ulp (n * 2 ^ j) * 2 ^ d = 2 ^ j := by
      rw [ulp, ← zpow_natCast, ← zpow_add₀ two_ne_zero, ← hd]
      congr 1
      omega
    have hpos : (0 : ℚ) < ulp (n * 2 ^ j) := by
      rw [ulp]
      positivity
    have hquot : (n * 2 ^ j : ℚ) / ulp (n * 2 ^ j) = ((n * 2 ^ d : ℤ) : ℚ) := by
      rw [div_eq_iff hpos.ne']
      push_cast
      rw [mul_assoc, mul_comm (2 ^ d : ℚ), hulp]
    rw [round, if_neg hx, hquot, roundToInt_intCast, ← hquot, div_mul_cancel₀ _ hpos.ne']

theorem round_intCast (hn : |n| < 2 ^ 53) : round n = n := by
  have hshort := round_of_short (j := 0) hn
  rwa [zpow_zero, mul_one] at hshort

/-- Rounding changes a number by at most half of the weight of its last significant bit. -/
theorem round_near (hx : x ≠ 0) : |round x - x| ≤ ulp x / 2 := by
  have hulp : 0 < ulp x := by
    rw [ulp]
    positivity
  obtain ⟨hlo, hhi⟩ := roundToInt_near (x / ulp x)
  have hx' : x / ulp x * ulp x = x := div_mul_cancel₀ _ hulp.ne'
  have hlo' := mul_le_mul_of_nonneg_right hlo hulp.le
  have hhi' := mul_le_mul_of_nonneg_right hhi hulp.le
  rw [sub_mul, hx'] at hlo'
  rw [add_mul, hx'] at hhi'
  rw [round, if_neg hx, abs_le]
  constructor
  · linarith
  · linarith

theorem ulp_le (hx : x ≠ 0) (h : |x| < 2 ^ (j + 53)) : ulp x ≤ 2 ^ j := by
  have hlog : Int.log 2 |x| < j + 53 :=
    (Int.lt_zpow_iff_log_lt one_lt_two (abs_pos.mpr hx)).mp (by exact_mod_cast h)
  exact zpow_le_zpow_right₀ one_le_two (by omega)

/-! ## To an integer, towards zero -/

theorem truncate_intCast (n : ℤ) : truncate n = n := by
  rw [truncate, Int.floor_intCast, Int.ceil_intCast, ite_self]

theorem truncate_of_nonneg (hx : 0 ≤ x) : truncate x = ⌊x⌋ := if_pos hx

end Binary64
