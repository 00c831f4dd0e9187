import Mathlib.Algebra.Order.Floor.Ring
import Mathlib.Data.Int.Log
import Mathlib.Data.Rat.Floor

/-!
# Numbers with 53 binary digits

Rounding to a `float64`, to nearest and to even at a tie. Numbers are rational here, and there is
neither a least nor a greatest exponent.

What a rounded number is compared with is mostly a number with 53 binary digits itself, and such a
number is not crossed (`le_round`, `round_le`).
-/

namespace Float64

/-- The nearest integer, the even one of two. -/
def roundEven (x : ℚ) : ℤ :=
  if x - ⌊x⌋ < 1 / 2 then ⌊x⌋
  else if 1 / 2 < x - ⌊x⌋ then ⌊x⌋ + 1
  else if ⌊x⌋ % 2 = 0 then ⌊x⌋
  else ⌊x⌋ + 1

/-- The exponent of the last of 53 digits. -/
def exponent (x : ℚ) : ℤ := Int.log 2 |x| - 52

/-- The nearest number with 53 binary digits. -/
def round (x : ℚ) : ℚ :=
  if x = 0 then 0 else roundEven (x / 2 ^ exponent x) * 2 ^ exponent x

/-! ## Integers -/

variable {x : ℚ} {n : ℤ}

theorem floor_le_roundEven (x : ℚ) : ⌊x⌋ ≤ roundEven x := by
  rw [roundEven]
  split_ifs <;> omega

theorem roundEven_le_floor_add_one (x : ℚ) : roundEven x ≤ ⌊x⌋ + 1 := by
  rw [roundEven]
  split_ifs <;> omega

theorem roundEven_intCast (n : ℤ) : roundEven n = n := by
  rw [roundEven, Int.floor_intCast, sub_self, if_pos (by norm_num)]

theorem le_roundEven (h : n ≤ x) : n ≤ roundEven x :=
  (Int.le_floor.mpr h).trans (floor_le_roundEven x)

theorem roundEven_le (h : x ≤ n) : roundEven x ≤ n := by
  rcases h.eq_or_lt with rfl | hlt
  · rw [roundEven_intCast]
  · exact (roundEven_le_floor_add_one x).trans (Int.floor_lt.mpr hlt)

/-! ## Multiples of the last digit -/

theorem two_zpow_pos (e : ℤ) : (0 : ℚ) < 2 ^ e := zpow_pos two_pos e

theorem mul_le_round (hx : x ≠ 0) (h : n * 2 ^ exponent x ≤ x) : n * 2 ^ exponent x ≤ round x := by
  rw [round, if_neg hx]
  have hpos := two_zpow_pos (exponent x)
  refine mul_le_mul_of_nonneg_right ?_ hpos.le
  exact_mod_cast le_roundEven ((le_div_iff₀ hpos).mpr h)

theorem round_le_mul (hx : x ≠ 0) (h : x ≤ n * 2 ^ exponent x) : round x ≤ n * 2 ^ exponent x := by
  rw [round, if_neg hx]
  have hpos := two_zpow_pos (exponent x)
  refine mul_le_mul_of_nonneg_right ?_ hpos.le
  exact_mod_cast roundEven_le ((div_le_iff₀ hpos).mpr h)

/-! ## Numbers with 53 digits -/

/-- A fraction over a power of two is a multiple of every smaller power of two. -/
theorem exists_mul_of_le {m : ℤ} {k : ℕ} {e : ℤ} (h : e ≤ -k) :
    ∃ n : ℤ, (m : ℚ) / 2 ^ k = n * 2 ^ e := by
  obtain ⟨j, hj⟩ := Int.eq_ofNat_of_zero_le (sub_nonneg.mpr h)
  refine ⟨m * 2 ^ j, ?_⟩
  have hk : (k : ℤ) = -e - j := by omega
  rw [← zpow_natCast (2 : ℚ) k, hk, zpow_sub₀ two_ne_zero, zpow_neg, zpow_natCast]
  have hpos := (two_zpow_pos e).ne'
  field_simp
  push_cast
  ring

/-- A number whose last digit is above that of `m / 2 ^ k` is greater than it. -/
theorem lt_of_lt_exponent {m : ℤ} {k : ℕ} (hm : m < 2 ^ 53) (h : -k < exponent x) :
    (m : ℚ) / 2 ^ k < 2 ^ (exponent x + 52) := by
  have hpow : (2 : ℚ) ^ (53 : ℤ) ≤ 2 ^ (exponent x + 52 + k) :=
    zpow_le_zpow_right₀ one_le_two (by omega)
  rw [div_lt_iff₀ (by positivity), ← zpow_natCast, ← zpow_add₀ two_ne_zero]
  refine lt_of_lt_of_le ?_ hpow
  exact_mod_cast hm

theorem zpow_exponent_le (hx : 0 < x) : (2 : ℚ) ^ (exponent x + 52) ≤ x := by
  have hlog := Int.zpow_log_le_self (b := 2) (r := |x|) one_lt_two (abs_pos.mpr hx.ne')
  rw [exponent, sub_add_cancel]
  rwa [abs_of_pos hx] at hlog ⊢

/-- The power of two below a number is not crossed. -/
theorem zpow_exponent_le_round (hx : 0 < x) : (2 : ℚ) ^ (exponent x + 52) ≤ round x := by
  have hpower : (2 : ℚ) ^ (exponent x + 52) = ((2 ^ 52 : ℤ) : ℚ) * 2 ^ exponent x := by
    rw [zpow_add₀ two_ne_zero, mul_comm]
    norm_num
  have hbelow := zpow_exponent_le hx
  rw [hpower] at hbelow ⊢
  exact mul_le_round hx.ne' hbelow

theorem round_pos (hx : 0 < x) : 0 < round x :=
  (two_zpow_pos _).trans_le (zpow_exponent_le_round hx)

theorem round_nonpos (hx : x ≤ 0) : round x ≤ 0 := by
  rcases hx.eq_or_lt with rfl | hlt
  · rw [round, if_pos rfl]
  · simpa using round_le_mul (n := 0) hlt.ne (by simpa using hx)

/-- Rounding does not go below a number with 53 digits. -/
theorem le_round {m : ℤ} {k : ℕ} (hx : 0 < x) (hm : m < 2 ^ 53) (h : (m : ℚ) / 2 ^ k ≤ x) :
    (m : ℚ) / 2 ^ k ≤ round x := by
  rcases le_or_gt (exponent x) (-k) with hle | hlt
  · obtain ⟨n, hn⟩ := exists_mul_of_le (m := m) hle
    rw [hn] at h ⊢
    exact mul_le_round hx.ne' h
  · -- the power of two below `x` is in between
    exact (lt_of_lt_exponent hm hlt).le.trans (zpow_exponent_le_round hx)

/-- Rounding does not go above a number with 53 digits. -/
theorem round_le {m : ℤ} {k : ℕ} (hx : 0 < x) (hm : m < 2 ^ 53) (h : x ≤ (m : ℚ) / 2 ^ k) :
    round x ≤ (m : ℚ) / 2 ^ k := by
  rcases le_or_gt (exponent x) (-k) with hle | hlt
  · obtain ⟨n, hn⟩ := exists_mul_of_le (m := m) hle
    rw [hn] at h ⊢
    exact round_le_mul hx.ne' h
  · have hbelow := (lt_of_lt_exponent hm hlt).trans_le (zpow_exponent_le hx)
    exact absurd h (not_le.mpr hbelow)

end Float64
