/-
# Formatted output

What `String.format` and `printf` make of a text or a number in a field. A number with
decimals is an exact one, and its last decimal is rounded half up.
-/

import Colata.Languages.Java.Number
import Colata.Math.Rounding
import Colata.Math.Table

namespace Colata.Java

open Colata.Math

/-- The decimal digits of a number as code units. -/
def digits (n : ℕ) : List ℕ := (Nat.toDigits 10 n).map Char.toNat

/-- `String.valueOf(n)`, which is `String.format("%d", n)` as well. -/
def decimal (n : ℤ) : List ℕ := if n < 0 then '-'.toNat :: digits n.natAbs else digits n.natAbs

/-- `String.format("%." + precision + "f", x)` -/
def fixed (precision : ℕ) (x : ℚ) : List ℕ :=
  let whole := digits (scaled precision x / 10 ^ precision)
  let fraction := (digits (scaled precision x % 10 ^ precision)).leftpad precision '0'.toNat
  (if x < 0 then ['-'.toNat] else []) ++ whole ++
    if precision = 0 then [] else '.'.toNat :: fraction

/-- `printf("%" + width + "s", text)`, or a number in place of the text. -/
def field (width : ℕ) (text : List ℕ) : Cell ℕ := { width, text }

/-- `printf("%-" + width + "s", text)` -/
def leftField (width : ℕ) (text : List ℕ) : Cell ℕ := { width, text, left := true }

/-- `print(text)` -/
def print (text : List ℕ) : Cell ℕ := .plain text

/-- What a line of cells prints, with spaces for blanks. -/
def printed (cells : List (Cell ℕ)) : List ℕ := line ' '.toNat cells

/-- `Math.round(Math.log10(x))`, where the logarithm of zero is minus infinity and that of a
negative number is not a number. -/
def roundLog10 (x : ℚ) : ℤ :=
  if 0 < x then max minLong (min maxLong (roundedLog 10 x))
  else if x = 0 then minLong else 0

/-! ## Lengths -/

theorem length_digits_le_iff {n bound : ℕ} (h : 0 < bound) :
    (digits n).length ≤ bound ↔ n < 10 ^ bound := by
  rw [digits, List.length_map]
  exact Nat.length_toDigits_le_iff (by decide) h

/-- A number with decimals is as long as its whole part, the point and the decimals. -/
theorem length_fixed {precision : ℕ} (hprecision : 0 < precision) {x : ℚ} (hx : 0 ≤ x) :
    (fixed precision x).length =
      (digits (scaled precision x / 10 ^ precision)).length + 1 + precision := by
  have hfraction : (digits (scaled precision x % 10 ^ precision)).length ≤ precision :=
    (length_digits_le_iff hprecision).mpr (Nat.mod_lt _ (Nat.pow_pos (by decide)))
  rw [fixed, if_neg (not_lt.mpr hx), if_neg hprecision.ne', List.nil_append, List.length_append,
    List.length_cons, List.length_leftpad, Nat.max_eq_left hfraction]
  omega

/-- Numbers that are rounded to the same decimals look the same. -/
theorem fixed_congr {precision : ℕ} {x y : ℚ} (hx : 0 ≤ x) (hy : 0 ≤ y)
    (h : scaled precision x = scaled precision y) : fixed precision x = fixed precision y := by
  rw [fixed, fixed, h, if_neg (not_lt.mpr hx), if_neg (not_lt.mpr hy)]

example : fixed 3 (1 / 2) = utf16 "0.500" := by decide +kernel

end Colata.Java
