import Scriptor.Proofs.TimeProofs

/-!
# Microseconds through a double

A log gives its time as `N / 10^6` seconds. The parser rounds this to a double, the product with
10^6 is rounded again, and the cast to an integer cuts it. Scaled by a power of two, both roundings
depend only on the 53-bit significand of `N` (`roundTrip_low`, `roundTrip_high`): in the lower part
of a binade they always lead back to `N`, in the upper part they may end one unit in the last place
beside it, and if that is below `N` the cast loses a microsecond (`micros_kept_iff`).
-/

namespace Scriptor

open Binary64 (roundToInt)

/-! ## Dividing a double by 10^6 and multiplying again -/

/-- The division by 10^6 and the product with it, each rounded. -/
def roundTrip (x : ℚ) : ℚ := Binary64.round (Binary64.round (x / 1000000) * 1000000)

variable {n j : ℤ}

/-- With the quotient scaled by `2 ^ s` into the range of the significands. -/
theorem roundTrip_eq {s : ℕ} (hlo : 2 ^ 52 * 1000000 ≤ n * 2 ^ s)
    (hhi : n * 2 ^ s < 2 ^ 53 * 1000000) (j : ℤ) :
    roundTrip (n * 2 ^ j) =
      Binary64.round (roundToInt (n * 2 ^ s / 1000000) * 1000000 / 2 ^ s * 2 ^ j) := by
  have hlo' : (2 ^ 52 : ℚ) ≤ n * 2 ^ s / 1000000 := by
    rw [le_div_iff₀ (by norm_num)]
    exact_mod_cast hlo
  have hhi' : (n * 2 ^ s / 1000000 : ℚ) < 2 ^ 53 := by
    rw [div_lt_iff₀ (by norm_num)]
    exact_mod_cast hhi
  have hpow : (2 ^ (j - s) : ℚ) = 2 ^ j / 2 ^ s := by
    rw [zpow_sub₀ two_ne_zero, zpow_natCast]
  have hquot : (n * 2 ^ j / 1000000 : ℚ) = n * 2 ^ s / 1000000 * 2 ^ (j - s) := by
    rw [hpow]
    field_simp
  rw [roundTrip, hquot, Binary64.round_scaled hlo' hhi', hpow]
  congr 1
  ring

/-- In the lower part of a binade the error of the quotient is too small to matter. -/
theorem roundTrip_low (hlo : 2 ^ 52 ≤ n) (hhi : n < 1000000 * 2 ^ 33) (j : ℤ) :
    roundTrip (n * 2 ^ j) = n * 2 ^ j := by
  rw [roundTrip_eq (n := n) (s := 20) (by omega) (by omega)]
  obtain ⟨hnear, hnear'⟩ := Binary64.roundToInt_near (n * 2 ^ 20 / 1000000)
  rcases eq_or_lt_of_le hlo with rfl | hlt
  · -- the product may fall into the binade below
    have hround : roundToInt (((2 ^ 52 : ℤ) : ℚ) * 2 ^ 20 / 1000000) = 4722366482869645 := by
      apply Binary64.roundToInt_of_lt
      all_goals norm_num
    have hround' : roundToInt (4722366482869645 * 1000000 / 2 ^ 19) = 2 ^ 53 := by
      apply Binary64.roundToInt_of_lt
      all_goals norm_num
    have hpow : (2 ^ j : ℚ) = 2 * 2 ^ (j - 1) := by
      rw [zpow_sub_one₀ two_ne_zero]
      ring
    have hscale : (4722366482869645 * 1000000 / 2 ^ 20 * 2 ^ j : ℚ) =
        4722366482869645 * 1000000 / 2 ^ 19 * 2 ^ (j - 1) := by
      rw [hpow]
      ring
    rw [hround]
    push_cast
    rw [hscale, Binary64.round_scaled (by norm_num) (by norm_num), hround', hpow]
    push_cast
    ring
  · generalize roundToInt (n * 2 ^ 20 / 1000000) = a at hnear hnear'
    have hn : (2 ^ 52 + 1 : ℚ) ≤ n := by exact_mod_cast hlt
    have hn' : (n : ℚ) ≤ 2 ^ 53 - 1 := by
      have hn' : n ≤ 2 ^ 53 - 1 := by omega
      exact_mod_cast hn'
    have hlo' : (2 ^ 52 : ℚ) ≤ a * 1000000 / 2 ^ 20 := by linarith
    have hhi' : (a * 1000000 / 2 ^ 20 : ℚ) < 2 ^ 53 := by linarith
    rw [Binary64.round_scaled hlo' hhi', Binary64.roundToInt_of_lt]
    · linarith
    · linarith

/-- The remainder of `n * 2 ^ 19` by 10^6, between -500000 and 499999: the error of the rounded
quotient in the upper part of a binade, in units of `2 ^ -19` in the last place of `n`. -/
def offset (n : ℤ) : ℤ := (n * 2 ^ 19).bmod 1000000

theorem offset_eq (n : ℤ) :
    ∃ m, n * 2 ^ 19 = m * 1000000 + offset n ∧ -500000 < offset n ∧ offset n < 500000 := by
  refine ⟨(n * 2 ^ 19 - offset n) / 1000000, ?_⟩
  rw [offset, Int.bmod_def]
  omega

theorem roundTrip_high (hlo : 1000000 * 2 ^ 33 ≤ n) (hhi : n < 2 ^ 53) (j : ℤ) :
    roundTrip (n * 2 ^ j) = roundToInt (n - offset n / 2 ^ 19) * 2 ^ j := by
  obtain ⟨m, hm, hoffset, hoffset'⟩ := offset_eq n
  generalize offset n = c at hm hoffset hoffset'
  have hm' : (n * 2 ^ 19 : ℚ) = m * 1000000 + c := by exact_mod_cast hm
  have hc : (-500000 : ℚ) < c := by exact_mod_cast hoffset
  have hc' : (c : ℚ) < 500000 := by exact_mod_cast hoffset'
  have hn : (1000000 * 2 ^ 33 : ℚ) ≤ n := by exact_mod_cast hlo
  have hn' : (n : ℚ) ≤ 2 ^ 53 - 1 := by
    have hn' : n ≤ 2 ^ 53 - 1 := by omega
    exact_mod_cast hn'
  have hround : roundToInt (n * 2 ^ 19 / 1000000) = m := by
    apply Binary64.roundToInt_of_lt
    · linarith
    · linarith
  have hproduct : (m * 1000000 / 2 ^ 19 : ℚ) = n - c / 2 ^ 19 := by linarith
  rw [roundTrip_eq (n := n) (s := 19) (by omega) (by omega), hround, hproduct,
    Binary64.round_scaled (by linarith) (by linarith)]

/-! ## Which significand comes back -/

/-- The significand after both roundings, in the upper part of a binade. -/
def returned (n : ℤ) : ℤ :=
  if 2 ^ 18 < offset n ∨ offset n = 2 ^ 18 ∧ n % 2 = 1 then n - 1
  else if offset n < -2 ^ 18 ∨ offset n = -2 ^ 18 ∧ n % 2 = 1 then n + 1
  else n

theorem roundToInt_offset (n : ℤ) : roundToInt (n - offset n / 2 ^ 19) = returned n := by
  obtain ⟨-, -, hoffset, hoffset'⟩ := offset_eq n
  rw [returned]
  generalize offset n = c at hoffset hoffset'
  have hc : (-500000 : ℚ) < c := by exact_mod_cast hoffset
  have hc' : (c : ℚ) < 500000 := by exact_mod_cast hoffset'
  rcases lt_trichotomy c (-2 ^ 18) with hlt | rfl | hgt
  · have hlt' : (c : ℚ) < -2 ^ 18 := by exact_mod_cast hlt
    rw [if_neg (by omega), if_pos (by omega)]
    apply Binary64.roundToInt_of_lt
    · push_cast
      linarith
    · push_cast
      linarith
  · -- halfway between `n` and `n + 1`
    have hhalf : (n - ((-2 ^ 18 : ℤ) : ℚ) / 2 ^ 19) = n + 1 / 2 := by
      push_cast
      ring
    rw [hhalf, Binary64.roundToInt_half]
    split_ifs <;> omega
  · have hgt' : (-2 ^ 18 : ℚ) < c := by exact_mod_cast hgt
    rcases lt_trichotomy c (2 ^ 18) with hlt | rfl | hgt
    · have hlt' : (c : ℚ) < 2 ^ 18 := by exact_mod_cast hlt
      rw [if_neg (by omega), if_neg (by omega)]
      apply Binary64.roundToInt_of_lt
      · linarith
      · linarith
    · -- halfway between `n - 1` and `n`
      have hhalf : (n - ((2 ^ 18 : ℤ) : ℚ) / 2 ^ 19) = ((n - 1 : ℤ) : ℚ) + 1 / 2 := by
        push_cast
        ring
      rw [hhalf, Binary64.roundToInt_half]
      split_ifs <;> omega
    · have hgt' : (2 ^ 18 : ℚ) < c := by exact_mod_cast hgt
      rw [if_pos (.inl hgt)]
      apply Binary64.roundToInt_of_lt
      · push_cast
        linarith
      · push_cast
        linarith

/-- The significand of the quotient of `n` by a power of two: what the cast to an integer keeps. -/
theorem returned_ediv {d : ℕ} (N : ℤ) (hd : 0 < d) :
    returned (N * 2 ^ d) / 2 ^ d = if 2 ^ 18 < offset (N * 2 ^ d) then N - 1 else N := by
  have hpow : (2 : ℤ) ≤ 2 ^ d := by
    calc (2 : ℤ) = 2 ^ 1 := (pow_one 2).symm
      _ ≤ 2 ^ d := pow_le_pow_right₀ one_le_two hd
  have hpos : (2 ^ d : ℤ) ≠ 0 := by positivity
  have heven : N * 2 ^ d % 2 = 0 := by
    obtain ⟨d, rfl⟩ := Nat.exists_eq_succ_of_ne_zero hd.ne'
    rw [pow_succ, ← mul_assoc]
    exact Int.mul_emod_left _ _
  have hdown : (N * 2 ^ d - 1) / 2 ^ d = N - 1 := by
    have hneg : (-1 : ℤ) / 2 ^ d = -1 := Int.ediv_eq_neg_one_of_neg_of_le (by omega) (by omega)
    rw [sub_eq_neg_add, Int.add_mul_ediv_right _ _ hpos, hneg]
    omega
  have hup : (N * 2 ^ d + 1) / 2 ^ d = N := by
    have hone : (1 : ℤ) / 2 ^ d = 0 := Int.ediv_eq_zero_of_lt (by omega) (by omega)
    rw [add_comm, Int.add_mul_ediv_right _ _ hpos, hone]
    omega
  rw [returned]
  split_ifs
  · exact hdown
  · omega
  · omega
  · exact hup
  · omega
  · exact Int.mul_ediv_cancel _ hpos

/-! ## Microseconds -/

variable {N : ℕ}

theorem microsOf_eq (N : ℕ) : microsOf (N / 1000000) = Binary64.truncate (roundTrip N) := rfl

/-- The 53-bit significand of a number below `2 ^ 53`. -/
def significand (N : ℕ) : ℤ := N * 2 ^ (52 - Nat.log 2 N)

theorem significand_range (hpos : 0 < N) (hN : N < 2 ^ 53) :
    2 ^ 52 ≤ significand N ∧ significand N < 2 ^ 53 := by
  have hlog : Nat.log 2 N ≤ 52 := by
    have hlt : Nat.log 2 N < 53 := (Nat.log_lt_iff_lt_pow one_lt_two hpos.ne').mpr hN
    omega
  have hlo : 2 ^ Nat.log 2 N ≤ N := Nat.pow_log_le_self 2 hpos.ne'
  have hhi : N < 2 ^ (Nat.log 2 N + 1) := Nat.lt_pow_succ_log_self one_lt_two N
  have hsplit : 2 ^ 52 = 2 ^ Nat.log 2 N * 2 ^ (52 - Nat.log 2 N) := by
    rw [← pow_add]
    congr 1
    omega
  have hscale : 0 < 2 ^ (52 - Nat.log 2 N) := by positivity
  have hlo' : 2 ^ 52 ≤ N * 2 ^ (52 - Nat.log 2 N) := by
    rw [hsplit]
    exact Nat.mul_le_mul_right _ hlo
  have hhi' : N * 2 ^ (52 - Nat.log 2 N) < 2 ^ 53 := by
    calc N * 2 ^ (52 - Nat.log 2 N) < 2 ^ (Nat.log 2 N + 1) * 2 ^ (52 - Nat.log 2 N) :=
          Nat.mul_lt_mul_of_pos_right hhi hscale
      _ = 2 * 2 ^ 52 := by rw [hsplit, pow_succ]; ring
      _ = 2 ^ 53 := by norm_num
  rw [significand]
  exact ⟨by exact_mod_cast hlo', by exact_mod_cast hhi'⟩

theorem eq_significand (N : ℕ) :
    (N : ℚ) = significand N * 2 ^ (-((52 - Nat.log 2 N : ℕ) : ℤ)) := by
  rw [significand, zpow_neg, zpow_natCast]
  push_cast
  rw [mul_assoc, mul_inv_cancel₀ (by positivity), mul_one]

/-- In the upper part of a binade the returned significand decides. -/
theorem microsOf_high (hpos : 0 < N) (hN : N < 2 ^ 53) (hhigh : 1000000 * 2 ^ 33 ≤ significand N) :
    microsOf (N / 1000000) = returned (significand N) / 2 ^ (52 - Nat.log 2 N) := by
  obtain ⟨hlo, hhi⟩ := significand_range hpos hN
  have hreturned : 0 ≤ returned (significand N) := by
    rw [returned]
    split_ifs <;> omega
  have hreturned' : (0 : ℚ) ≤ returned (significand N) := by exact_mod_cast hreturned
  have hquot : (returned (significand N) * 2 ^ (-((52 - Nat.log 2 N : ℕ) : ℤ)) : ℚ) =
      returned (significand N) / ((2 ^ (52 - Nat.log 2 N) : ℕ) : ℚ) := by
    rw [zpow_neg, zpow_natCast, ← div_eq_mul_inv]
    push_cast
    rfl
  have hnonneg := div_nonneg hreturned' (Nat.cast_nonneg (2 ^ (52 - Nat.log 2 N)))
  rw [microsOf_eq, eq_significand N, roundTrip_high hhigh hhi, roundToInt_offset, hquot,
    Binary64.truncate_of_nonneg hnonneg, Rat.floor_intCast_div_natCast]
  push_cast
  rfl

theorem microsOf_low (hN : N < 2 ^ 53) (hlow : significand N < 1000000 * 2 ^ 33) :
    microsOf (N / 1000000) = N := by
  rcases Nat.eq_zero_or_pos N with rfl | hpos
  · rw [microsOf, Nat.cast_zero, zero_div, Binary64.round_zero, zero_mul, Binary64.round_zero]
    exact Binary64.truncate_intCast 0
  · obtain ⟨hlo, -⟩ := significand_range hpos hN
    rw [microsOf_eq, eq_significand N, roundTrip_low hlo hlow, ← eq_significand N]
    exact Binary64.truncate_intCast N

/-- From `2 ^ 53` on, an even number of microseconds is a double. -/
theorem microsOf_even (hlo : 2 ^ 53 ≤ N) (hN : N * 1000 < 2 ^ 63) (heven : N % 2 = 0) :
    microsOf (N / 1000000) = N := by
  obtain ⟨m, rfl⟩ : ∃ m, N = m * 2 := ⟨N / 2, by omega⟩
  have hcast : ((m * 2 : ℕ) : ℚ) = (m : ℤ) * 2 ^ (1 : ℤ) := by
    push_cast
    ring
  have hlo' : (2 ^ 52 : ℤ) ≤ m := by omega
  have hhi' : (m : ℤ) < 1000000 * 2 ^ 33 := by omega
  rw [microsOf_eq, hcast, roundTrip_low hlo' hhi', ← hcast]
  exact Binary64.truncate_intCast (m * 2 : ℕ)

/-- And an odd one is not: the product is rounded to an even number beside it. -/
theorem microsOf_odd (hlo : 2 ^ 53 ≤ N) (hN : N * 1000 < 2 ^ 63) (hodd : N % 2 = 1) :
    ∃ m : ℤ, microsOf (N / 1000000) = m * 2 ∧ N - 2 ≤ m * 2 ∧ m * 2 ≤ N + 2 := by
  obtain ⟨hnear, hnear'⟩ := Binary64.roundToInt_near ((N : ℤ) * 2 ^ 19 / 1000000)
  have htrip := roundTrip_eq (n := N) (s := 19) (by omega) (by omega) 0
  generalize roundToInt (((N : ℤ) : ℚ) * 2 ^ 19 / 1000000) = a at hnear hnear' htrip
  have hlo' : (2 ^ 53 + 1 : ℚ) ≤ (N : ℤ) := by
    have hlo' : (2 ^ 53 + 1 : ℤ) ≤ N := by omega
    exact_mod_cast hlo'
  have hhi' : ((N : ℤ) : ℚ) ≤ 2 ^ 54 - 2 := by
    have hhi' : (N : ℤ) ≤ 2 ^ 54 - 2 := by omega
    exact_mod_cast hhi'
  have hhalf : (a * 1000000 / 2 ^ 19 * 2 ^ (0 : ℤ) : ℚ) = a * 1000000 / 2 ^ 20 * 2 ^ (1 : ℤ) := by
    rw [zpow_zero, zpow_one]
    ring
  have hscale : ((N : ℤ) * 2 ^ (0 : ℤ) : ℚ) = N := by
    rw [zpow_zero, mul_one, Int.cast_natCast]
  rw [hscale, hhalf, Binary64.round_scaled (by linarith) (by linarith)] at htrip
  obtain ⟨hbelow, habove⟩ := Binary64.roundToInt_near (a * 1000000 / 2 ^ 20)
  generalize roundToInt (a * 1000000 / 2 ^ 20) = m at hbelow habove htrip
  have hlower : ((N : ℤ) - 2 : ℚ) ≤ m * 2 := by linarith
  have hupper : (m * 2 : ℚ) ≤ (N : ℤ) + 2 := by linarith
  refine ⟨m, ?_, by exact_mod_cast hlower, by exact_mod_cast hupper⟩
  have hround : roundTrip N = ((m * 2 : ℤ) : ℚ) := by
    rw [htrip, zpow_one]
    push_cast
    rfl
  rw [microsOf_eq, hround, Binary64.truncate_intCast]

/-! ## Which microseconds survive -/

/-- The numbers of microseconds that come back, in terms of the significand `n` of the number and of
the remainder of `n * 2 ^ 19` by 10^6. -/
def Survives (N : ℕ) : Prop :=
  if 2 ^ 53 ≤ N then N % 2 = 0
  else significand N < 1000000 * 2 ^ 33 ∨
    if 2 ^ 52 ≤ N then
      |offset (significand N)| < 2 ^ 18 ∨ |offset (significand N)| = 2 ^ 18 ∧ N % 2 = 0
    else offset (significand N) ≤ 2 ^ 18

instance (N : ℕ) : Decidable (Survives N) :=
  inferInstanceAs (Decidable (if 2 ^ 53 ≤ N then _ else _ ∨ if 2 ^ 52 ≤ N then _ ∨ _ ∧ _ else _))

/-- Below `2 ^ 53`, in the upper part of a binade: beside it or not is up to the significand. -/
theorem microsOf_high_iff (hpos : 0 < N) (hN : N < 2 ^ 53)
    (hhigh : 1000000 * 2 ^ 33 ≤ significand N) :
    (N - 1 ≤ microsOf (N / 1000000) ∧ microsOf (N / 1000000) ≤ N + 1) ∧
      (microsOf (N / 1000000) = N ↔
        if 2 ^ 52 ≤ N then
          |offset (significand N)| < 2 ^ 18 ∨ |offset (significand N)| = 2 ^ 18 ∧ N % 2 = 0
        else offset (significand N) ≤ 2 ^ 18) := by
  rw [microsOf_high hpos hN hhigh]
  by_cases hbig : 2 ^ 52 ≤ N
  · have hlog : 52 ≤ Nat.log 2 N := (Nat.le_log_iff_pow_le one_lt_two hpos.ne').mpr hbig
    have hzero : 52 - Nat.log 2 N = 0 := by omega
    have hsignificand : significand N = N := by rw [significand, hzero, pow_zero, mul_one]
    rw [if_pos hbig, hsignificand, hzero, pow_zero, Int.ediv_one, returned]
    generalize offset N = c
    rcases abs_cases c with ⟨habs, hsign⟩ | ⟨habs, hsign⟩
    · rw [habs]
      split_ifs <;> omega
    · rw [habs]
      split_ifs <;> omega
  · have hlog : Nat.log 2 N < 52 := (Nat.log_lt_iff_lt_pow one_lt_two hpos.ne').mpr (by omega)
    rw [if_neg hbig, significand, returned_ediv N (by omega)]
    generalize offset (N * 2 ^ (52 - Nat.log 2 N)) = c
    split_ifs <;> omega

/-- The number that comes back is close to the one sent, and it is that one if it survives. -/
theorem microsOf_spec (hN : N * 1000 < 2 ^ 63) :
    (N - 2 ≤ microsOf (N / 1000000) ∧ microsOf (N / 1000000) ≤ N + 2) ∧
      (microsOf (N / 1000000) = N ↔ Survives N) := by
  rw [Survives]
  by_cases hbig : 2 ^ 53 ≤ N
  · rw [if_pos hbig]
    rcases Nat.mod_two_eq_zero_or_one N with heven | hodd
    · rw [microsOf_even hbig hN heven]
      omega
    · obtain ⟨m, hm, hlo, hhi⟩ := microsOf_odd hbig hN hodd
      rw [hm]
      omega
  · rw [if_neg hbig]
    have hsmall : N < 2 ^ 53 := by omega
    by_cases hlow : significand N < 1000000 * 2 ^ 33
    · rw [microsOf_low hsmall hlow]
      exact ⟨by omega, iff_of_true rfl (.inl hlow)⟩
    · have hpos : 0 < N := by
        by_contra hzero
        obtain rfl : N = 0 := by omega
        simp [significand] at hlow
      obtain ⟨⟨hlo, hhi⟩, hiff⟩ := microsOf_high_iff hpos hsmall (by omega)
      exact ⟨⟨by omega, by omega⟩, by rw [hiff, or_iff_right hlow]⟩

/-- Ticks that fit are exact only if the microseconds are. -/
theorem ticks_exact_iff {m n : ℤ} (hlo : n - 2 ≤ m) (hhi : m ≤ n + 2) (hn : 0 ≤ n)
    (hn' : n * 1000 < 2 ^ 63) : (m * 1000).bmod (2 ^ 64) = n * 1000 ↔ m = n := by
  constructor
  · intro h
    rw [Int.bmod_def] at h
    omega
  · rintro rfl
    exact Int.bmod_eq_of_le (by omega) (by omega)

/-- A log that gives its time as `N / 10^6` seconds is stored at exactly `N` microseconds if and
only if `N` survives the two roundings. -/
theorem micros_kept_iff {P : Platform} {x : Element} (hN : N * 1000 < 2 ^ 63)
    (hx : DecodedAt P (N / 1000000) x) : x.time.IsAt (N * 1000) ↔ Survives N := by
  obtain ⟨⟨hlo, hhi⟩, hiff⟩ := microsOf_spec hN
  have hrange : -2 ^ 63 ≤ microsOf (N / 1000000) ∧ microsOf (N / 1000000) < 2 ^ 63 := by omega
  rw [isAt_iff hx hrange, ← hiff]
  exact ticks_exact_iff hlo hhi (by omega) (by omega)

/-- The time of the README. -/
theorem micros_kept_iff_readme :
    ∃ x : Element, DecodedAt referencePlatform ((1675153178487972 : ℕ) / 1000000) x ∧
      x.time.IsAt ((1675153178487972 : ℕ) * 1000) := by
  have hx : DecodedAt referencePlatform ((1675153178487972 : ℕ) / 1000000)
      ⟨.given 1675153178487972000, .trace, ascii "[] [:] [::] "⟩ :=
    ⟨ascii "\x7b\"s\":1675153178.487972\x7d",
      .object [(ascii "s", .number_float (Binary64.round ((1675153178487972 : ℕ) / 1000000)))], _,
      fun _ => 0, by decide +kernel, rfl, .float, by decide +kernel⟩
  exact ⟨_, hx, (micros_kept_iff (by decide) hx).mpr (by decide +kernel)⟩

/-- The time 1.001 is stored as 1000999 microseconds. -/
theorem micros_lost :
    ¬ ∀ (P : Platform) (N : ℕ) (x : Element), N * 1000 < 2 ^ 63 →
      DecodedAt P (N / 1000000) x → x.time.IsAt (N * 1000) := by
  intro h
  have hx : DecodedAt referencePlatform ((1001000 : ℕ) / 1000000)
      ⟨.given 1000999000, .trace, ascii "[] [:] [::] "⟩ :=
    ⟨ascii "\x7b\"s\":1.001\x7d",
      .object [(ascii "s", .number_float (Binary64.round ((1001000 : ℕ) / 1000000)))], _,
      fun _ => 0, by decide +kernel, rfl, .float, by decide +kernel⟩
  have hticks := (h referencePlatform _ _ (by decide) hx).ticks
  exact absurd hticks (by decide)

end Scriptor
