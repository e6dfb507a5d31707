/-
# Rounded decimals and logarithms

Two roundings of exact rational numbers: to a number of decimals, half up, and of the
logarithm to the closest integer. The logarithm is real, but comparing the square of
the number with powers of the base is enough to round it.
-/

import Mathlib.Analysis.SpecialFunctions.Log.Base
import Mathlib.Data.Int.Log

namespace Colata.Math

/-- The magnitude in units of the last of so many decimals, rounded half up. -/
def scaled (decimals : ℕ) (x : ℚ) : ℕ := ⌊|x| * 10 ^ decimals + 1 / 2⌋₊

/-- From half a unit of the last decimal to a whole one, a number is rounded to one unit. -/
theorem scaled_eq_one {decimals : ℕ} {x : ℚ} (hlow : 1 / 10 ^ decimals / 2 ≤ x)
    (hhigh : x ≤ 1 / 10 ^ decimals) : scaled decimals x = 1 := by
  have hpow : (0 : ℚ) < 10 ^ decimals := by positivity
  have hx : 0 ≤ x := le_trans (by positivity) hlow
  have hlow' : 1 / 2 ≤ x * 10 ^ decimals := by
    rwa [div_right_comm, div_le_iff₀ hpow] at hlow
  have hhigh' : x * 10 ^ decimals ≤ 1 := by rwa [le_div_iff₀ hpow] at hhigh
  rw [scaled, abs_of_nonneg hx, Nat.floor_eq_iff (by positivity), Nat.cast_one]
  constructor
  · linarith
  · linarith

/-- The logarithm of a positive number, rounded to the closest integer. -/
def roundedLog (base : ℕ) (x : ℚ) : ℤ := (Int.log base (x ^ 2) + 1) / 2

/-- The integer part of the logarithm is the same over the reals. -/
theorem log_cast {base : ℕ} (hbase : 1 < base) {x : ℚ} (hx : 0 < x) :
    Int.log base (x : ℝ) = Int.log base x := by
  apply eq_of_forall_le_iff
  intro power
  have hreal : (0 : ℝ) < x := Rat.cast_pos.mpr hx
  rw [← Int.zpow_le_iff_le_log hbase hx, ← Int.zpow_le_iff_le_log hbase hreal,
    ← Rat.cast_le (K := ℝ), Rat.cast_zpow, Rat.cast_natCast]

theorem roundedLog_eq {base : ℕ} (hbase : 1 < base) {x : ℚ} (hx : 0 < x) :
    roundedLog base x = round (Real.logb base x) := by
  have hsquare : (0 : ℚ) < x ^ 2 := pow_pos hx 2
  have hdouble : Real.logb base ((x ^ 2 : ℚ) : ℝ) = 2 * Real.logb base x := by
    rw [Rat.cast_pow, Real.logb_pow, Nat.cast_ofNat]
  have hfloor : ⌊Real.logb base ((x ^ 2 : ℚ) : ℝ)⌋ = Int.log base (x ^ 2) := by
    rw [Real.floor_logb_natCast (Rat.cast_nonneg.mpr hsquare.le), log_cast hbase hsquare]
  rw [roundedLog, round_eq_div, ← hdouble, hfloor]

end Colata.Math
