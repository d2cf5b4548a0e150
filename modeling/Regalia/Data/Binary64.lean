import Mathlib.Algebra.Order.Floor.Ring
import Mathlib.Data.Int.Log
import Mathlib.Data.Rat.Floor
import Mathlib.Tactic.Linarith

/-!
# Binary64

A double is a rational number whose significand has 53 bits, and an operation
on doubles is the exact one rounded to the nearest double, the even one of two.
The exponent has no bounds here, so nothing overflows and nothing is subnormal.

Two facts are enough to reason about a comparison made in doubles: rounding is
monotone, and it loses no more than one part in 2 ^ 53.

## Main definitions

* `roundEven`: The nearest integer.
* `round64`: The nearest double.

## Theorems

* `round64_mono`: Rounding keeps the order.
* `le_round64`: What rounding may lose.
-/

namespace Regalia

/-- The nearest integer, of two the even one. -/
def roundEven (x : ℚ) : ℤ :=
  if x - ⌊x⌋ < 1 / 2 then ⌊x⌋
  else if 1 / 2 < x - ⌊x⌋ then ⌊x⌋ + 1
  else if ⌊x⌋ % 2 = 0 then ⌊x⌋ else ⌊x⌋ + 1

variable (x : ℚ)

theorem roundEven_cases :
    roundEven x = ⌊x⌋ ∧ x - ⌊x⌋ ≤ 1 / 2 ∨ roundEven x = ⌊x⌋ + 1 ∧ 1 / 2 ≤ x - ⌊x⌋ := by
  unfold roundEven
  split
  · rename_i hlow
    exact .inl ⟨rfl, hlow.le⟩
  · rename_i hlow
    split
    · rename_i hhigh
      exact .inr ⟨rfl, hhigh.le⟩
    · rename_i hhigh
      split
      · exact .inl ⟨rfl, not_lt.mp hhigh⟩
      · exact .inr ⟨rfl, not_lt.mp hlow⟩

theorem sub_half_le_roundEven : x - 1 / 2 ≤ roundEven x := by
  rcases roundEven_cases x with ⟨hround, hfract⟩ | ⟨hround, -⟩
  · rw [hround]
    linarith
  · have hfloor := Int.lt_floor_add_one x
    rw [hround]
    push_cast
    linarith

theorem floor_le_roundEven : ⌊x⌋ ≤ roundEven x := by
  rcases roundEven_cases x with ⟨hround, -⟩ | ⟨hround, -⟩ <;> omega

theorem roundEven_le_floor_add_one : roundEven x ≤ ⌊x⌋ + 1 := by
  rcases roundEven_cases x with ⟨hround, -⟩ | ⟨hround, -⟩ <;> omega

/-- An integer on the near side of a number is on the near side of what the
    number rounds to. -/
theorem le_roundEven {n : ℤ} {x : ℚ} (h : (n : ℚ) ≤ x) : n ≤ roundEven x :=
  (Int.le_floor.mpr h).trans (floor_le_roundEven x)

theorem roundEven_le {n : ℤ} {x : ℚ} (h : x < n) : roundEven x ≤ n := by
  have hfloor : ⌊x⌋ < n := Int.floor_lt.mpr h
  have hround := roundEven_le_floor_add_one x
  omega

theorem roundEven_mono {x y : ℚ} (h : x ≤ y) : roundEven x ≤ roundEven y := by
  rcases (Int.floor_mono h).lt_or_eq with hfloor | hfloor
  · have hx := roundEven_le_floor_add_one x
    have hy := floor_le_roundEven y
    omega
  · -- on one unit the three branches come in order
    unfold roundEven
    rw [← hfloor]
    have hsub : x - ⌊x⌋ ≤ y - ⌊x⌋ := by linarith
    split_ifs <;> first | omega | (exfalso; linarith)

/-- The unit in the last place. -/
def unit64 (x : ℚ) : ℚ := 2 ^ (Int.log 2 x - 52)

/-- The nearest double to a number that is not negative. -/
def roundMagnitude (x : ℚ) : ℚ := if x ≤ 0 then 0 else roundEven (x / unit64 x) * unit64 x

/-- The nearest double. -/
def round64 (x : ℚ) : ℚ := if x < 0 then -roundMagnitude (-x) else roundMagnitude x

theorem unit64_pos : 0 < unit64 x := zpow_pos (by norm_num) _

theorem unit64_mul_pow {x : ℚ} (n : ℤ) : 2 ^ n * unit64 x = 2 ^ (Int.log 2 x - 52 + n) := by
  unfold unit64
  rw [← zpow_add₀ (by norm_num : (2 : ℚ) ≠ 0), add_comm]

theorem pow_mul_unit64_le {x : ℚ} (hx : 0 < x) : 2 ^ (52 : ℤ) * unit64 x ≤ x := by
  rw [unit64_mul_pow, sub_add_cancel]
  exact_mod_cast Int.zpow_log_le_self (by norm_num : 1 < 2) hx

theorem lt_pow_mul_unit64 : x < 2 ^ (53 : ℤ) * unit64 x := by
  have hsum : Int.log 2 x - 52 + 53 = Int.log 2 x + 1 := by ring
  rw [unit64_mul_pow, hsum]
  exact_mod_cast Int.lt_zpow_succ_log_self (by norm_num : 1 < 2) x

theorem roundMagnitude_of_pos {x : ℚ} (hx : 0 < x) :
    roundMagnitude x = roundEven (x / unit64 x) * unit64 x := if_neg (not_le.mpr hx)

theorem roundMagnitude_nonneg : 0 ≤ roundMagnitude x := by
  unfold roundMagnitude
  split
  · exact le_rfl
  · rename_i hx
    have hquot : ((0 : ℤ) : ℚ) ≤ x / unit64 x := by
      rw [Int.cast_zero]
      exact div_nonneg (not_le.mp hx).le (unit64_pos x).le
    have hround : ((0 : ℤ) : ℚ) ≤ roundEven (x / unit64 x) := Int.cast_le.mpr (le_roundEven hquot)
    rw [Int.cast_zero] at hround
    exact mul_nonneg hround (unit64_pos x).le

/-- The powers of two around a number are doubles. -/
theorem roundMagnitude_between {x : ℚ} (hx : 0 < x) :
    2 ^ Int.log 2 x ≤ roundMagnitude x ∧ roundMagnitude x ≤ 2 ^ (Int.log 2 x + 1) := by
  have hunit := unit64_pos x
  rw [roundMagnitude_of_pos hx]
  constructor
  · have hquot : (((2 ^ 52 : ℕ) : ℤ) : ℚ) ≤ x / unit64 x := by
      rw [le_div_iff₀ hunit]
      exact_mod_cast pow_mul_unit64_le hx
    have hround := Int.cast_le (R := ℚ).mpr (le_roundEven hquot)
    calc (2 : ℚ) ^ Int.log 2 x = 2 ^ (52 : ℤ) * unit64 x := by rw [unit64_mul_pow, sub_add_cancel]
      _ ≤ roundEven (x / unit64 x) * unit64 x := by
        refine mul_le_mul_of_nonneg_right ?_ hunit.le
        exact_mod_cast hround
  · have hquot : x / unit64 x < (((2 ^ 53 : ℕ) : ℤ) : ℚ) := by
      rw [div_lt_iff₀ hunit]
      exact_mod_cast lt_pow_mul_unit64 x
    have hround := Int.cast_le (R := ℚ).mpr (roundEven_le hquot)
    have hsum : Int.log 2 x - 52 + 53 = Int.log 2 x + 1 := by ring
    calc (roundEven (x / unit64 x) : ℚ) * unit64 x ≤ 2 ^ (53 : ℤ) * unit64 x := by
          refine mul_le_mul_of_nonneg_right ?_ hunit.le
          exact_mod_cast hround
      _ = 2 ^ (Int.log 2 x + 1) := by rw [unit64_mul_pow, hsum]

theorem roundMagnitude_mono {x y : ℚ} (h : x ≤ y) : roundMagnitude x ≤ roundMagnitude y := by
  rcases le_or_gt x 0 with hx | hx
  · rw [roundMagnitude, if_pos hx]
    exact roundMagnitude_nonneg y
  · have hy : 0 < y := hx.trans_le h
    rcases (Int.log_mono_right (b := 2) hx h).lt_or_eq with hlog | hlog
    · -- a power of two stands between them
      calc roundMagnitude x ≤ 2 ^ (Int.log 2 x + 1) := (roundMagnitude_between hx).2
        _ ≤ 2 ^ Int.log 2 y := zpow_le_zpow_right₀ (by norm_num) hlog
        _ ≤ roundMagnitude y := (roundMagnitude_between hy).1
    · have hunit : unit64 x = unit64 y := by rw [unit64, unit64, hlog]
      rw [roundMagnitude_of_pos hx, roundMagnitude_of_pos hy, hunit]
      have hquot : x / unit64 y ≤ y / unit64 y := div_le_div_of_nonneg_right h (unit64_pos y).le
      exact mul_le_mul_of_nonneg_right (Int.cast_le.mpr (roundEven_mono hquot)) (unit64_pos y).le

theorem round64_mono {x y : ℚ} (h : x ≤ y) : round64 x ≤ round64 y := by
  unfold round64
  split_ifs with hx hy hy
  · exact neg_le_neg (roundMagnitude_mono (neg_le_neg h))
  · exact (neg_nonpos.mpr (roundMagnitude_nonneg _)).trans (roundMagnitude_nonneg _)
  · exact absurd (h.trans_lt hy) hx
  · exact roundMagnitude_mono h

theorem round64_nonneg {x : ℚ} (hx : 0 ≤ x) : 0 ≤ round64 x := by
  rw [round64, if_neg (not_lt.mpr hx)]
  exact roundMagnitude_nonneg x

/-- Rounding loses no more than one part in 2 ^ 53. -/
theorem le_round64 {x : ℚ} (hx : 0 ≤ x) : x - x / 2 ^ 53 ≤ round64 x := by
  rw [round64, if_neg (not_lt.mpr hx)]
  rcases hx.eq_or_lt with rfl | hx
  · simp [roundMagnitude]
  · rw [roundMagnitude_of_pos hx]
    have hunit := unit64_pos x
    have hsmall := pow_mul_unit64_le hx
    have hround := mul_le_mul_of_nonneg_right (sub_half_le_roundEven (x / unit64 x)) hunit.le
    rw [sub_mul, div_mul_cancel₀ x hunit.ne'] at hround
    have hhalf : 1 / 2 * unit64 x ≤ x / 2 ^ 53 := by
      rw [le_div_iff₀ (by norm_num)]
      calc 1 / 2 * unit64 x * 2 ^ 53 = 2 ^ (52 : ℤ) * unit64 x := by norm_num; ring
        _ ≤ x := hsmall
    linarith

end Regalia
