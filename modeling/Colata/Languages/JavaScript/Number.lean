/-
# JavaScript numbers

The operators on numbers that go through 32-bit integers, and the printing of a
number: the shortest decimal that reads back as the same double, laid out as
`Number.prototype.toString` lays it out.
-/

import Colata.Math.Binary64Integer
import Mathlib.Data.Nat.Digits.Defs

namespace Colata.JavaScript

open Colata.Math

/-- The 32 low bits of the integer part; zero for NaN and infinities. -/
def toInt32 (x : Binary64) : BitVec 32 := .ofInt 32 x.toInt

/-- A shift count: the five low bits. -/
def shiftCount (x : Binary64) : ℕ := (toInt32 x).toNat % 32

/-- `x << y`. -/
def shiftLeft (x y : Binary64) : Binary64 := .ofInt (toInt32 x <<< shiftCount y).toInt

/-- `x >> y`. -/
def shiftRight (x y : Binary64) : Binary64 := .ofInt ((toInt32 x).sshiftRight (shiftCount y)).toInt

/-- `x >>> y`. -/
def unsignedShiftRight (x y : Binary64) : Binary64 := .ofNat (toInt32 x >>> shiftCount y).toNat

/-- `x & y`. -/
def bitAnd (x y : Binary64) : Binary64 := .ofInt (toInt32 x &&& toInt32 y).toInt

/-- `x | y`. -/
def bitOr (x y : Binary64) : Binary64 := .ofInt (toInt32 x ||| toInt32 y).toInt

/-- `x ^ y`. -/
def bitXor (x y : Binary64) : Binary64 := .ofInt (toInt32 x ^^^ toInt32 y).toInt

/-! ## The operators on integers -/

section Integers

variable {x y : Binary64} {a b : ℤ}

theorem toInt32_of_isInt (hx : x.IsInt a) : toInt32 x = .ofInt 32 a := by
  rw [toInt32, hx.toInt]

theorem shiftCount_of_isInt (hy : y.IsInt b) : shiftCount y = (b % 32).toNat := by
  rw [shiftCount, toInt32_of_isInt hy, BitVec.toNat_ofInt]
  omega

theorem isInt_ofInt_toInt (bits : BitVec 32) : (Binary64.ofInt bits.toInt).IsInt bits.toInt := by
  have hlow := bits.le_toInt
  have hhigh := bits.toInt_lt
  apply Binary64.isInt_ofInt
  omega

theorem isInt_shiftLeft (hx : x.IsInt a) (hy : y.IsInt b) :
    (shiftLeft x y).IsInt ((a * 2 ^ (b % 32).toNat).bmod (2 ^ 32)) := by
  have hbits : (BitVec.ofInt 32 a <<< (b % 32).toNat).toInt =
      (a * 2 ^ (b % 32).toNat).bmod (2 ^ 32) := by
    have hnonneg : 0 ≤ a % (2 ^ 32 : ℕ) := Int.emod_nonneg a (by decide)
    rw [BitVec.toInt_shiftLeft, BitVec.toNat_ofInt, Nat.shiftLeft_eq, Nat.cast_mul,
      Int.toNat_of_nonneg hnonneg, Int.emod_mul_bmod, Nat.cast_pow, Nat.cast_ofNat]
  rw [shiftLeft, toInt32_of_isInt hx, shiftCount_of_isInt hy, ← hbits]
  exact isInt_ofInt_toInt _

theorem isInt_shiftRight (hx : x.IsInt a) (hy : y.IsInt b) :
    (shiftRight x y).IsInt (a.bmod (2 ^ 32) / 2 ^ (b % 32).toNat) := by
  have hbits : ((BitVec.ofInt 32 a).sshiftRight (b % 32).toNat).toInt =
      a.bmod (2 ^ 32) / 2 ^ (b % 32).toNat := by
    rw [BitVec.toInt_sshiftRight, BitVec.toInt_ofInt, Int.shiftRight_eq_div_pow]
    norm_cast
  rw [shiftRight, toInt32_of_isInt hx, shiftCount_of_isInt hy, ← hbits]
  exact isInt_ofInt_toInt _

theorem isInt_unsignedShiftRight (hx : x.IsInt a) (hy : y.IsInt b) :
    (unsignedShiftRight x y).IsInt (a % 2 ^ 32 / 2 ^ (b % 32).toNat) := by
  have hbits : ((BitVec.ofInt 32 a >>> (b % 32).toNat).toNat : ℤ) =
      a % 2 ^ 32 / 2 ^ (b % 32).toNat := by
    have hnonneg : 0 ≤ a % (2 ^ 32 : ℕ) := Int.emod_nonneg a (by decide)
    rw [BitVec.toNat_ushiftRight, BitVec.toNat_ofInt, Nat.shiftRight_eq_div_pow,
      Int.natCast_ediv, Int.toNat_of_nonneg hnonneg]
    norm_cast
  have hlt := (BitVec.ofInt 32 a >>> (b % 32).toNat).isLt
  rw [unsignedShiftRight, toInt32_of_isInt hx, shiftCount_of_isInt hy, ← hbits]
  exact Binary64.isInt_ofNat (hlt.le.trans (by decide))

theorem isInt_bitAnd (hx : x.IsInt a) (hy : y.IsInt b) :
    (bitAnd x y).IsInt (BitVec.ofInt 32 a &&& BitVec.ofInt 32 b).toInt := by
  rw [bitAnd, toInt32_of_isInt hx, toInt32_of_isInt hy]
  exact isInt_ofInt_toInt _

theorem isInt_bitOr (hx : x.IsInt a) (hy : y.IsInt b) :
    (bitOr x y).IsInt (BitVec.ofInt 32 a ||| BitVec.ofInt 32 b).toInt := by
  rw [bitOr, toInt32_of_isInt hx, toInt32_of_isInt hy]
  exact isInt_ofInt_toInt _

theorem isInt_bitXor (hx : x.IsInt a) (hy : y.IsInt b) :
    (bitXor x y).IsInt (BitVec.ofInt 32 a ^^^ BitVec.ofInt 32 b).toInt := by
  rw [bitXor, toInt32_of_isInt hx, toInt32_of_isInt hy]
  exact isInt_ofInt_toInt _

end Integers

/-! ## Printing -/

/-- The exponent `n` with `10 ^ (n - 1) ≤ magnitude / one < 10 ^ n`. -/
private def decimalExponent (magnitude : ℕ) : ℤ :=
  if Binary64.one ≤ magnitude then Nat.log 10 (magnitude / Binary64.one) + 1
  else 1 - Nat.clog 10 ((Binary64.one + magnitude - 1) / magnitude)

/-- The `count`-digit decimals next to a magnitude, the nearer one first. -/
private def candidates (magnitude count : ℕ) : List (ℕ × ℤ) :=
  let exponent := decimalExponent magnitude - count
  let num := if 0 ≤ exponent then magnitude else magnitude * 10 ^ (-exponent).toNat
  let den := if 0 ≤ exponent then Binary64.one * 10 ^ exponent.toNat else Binary64.one
  let low := num / den
  if 2 * (num % den) ≤ den then [(low, exponent), (low + 1, exponent)]
  else [(low + 1, exponent), (low, exponent)]

/-- The digits and exponent of the shortest decimal that reads back as the finite
double of this magnitude; 17 digits always do. -/
private def shortest (magnitude : ℕ) (valid : Binary64.IsMagnitude magnitude) : ℕ × ℤ :=
  let readsBack := fun decimal : ℕ × ℤ =>
    decide (Binary64.ofDecimal false decimal.1 decimal.2 = .finite false magnitude valid)
  let found := (List.range 17).findSome? fun count =>
    (candidates magnitude (count + 1)).find? readsBack
  found.getD (0, 0)

private def digitChars (value : ℕ) : List Char :=
  ((Nat.digits 10 value).reverse).map fun digit => Char.ofNat ('0'.toNat + digit)

/-- Lay out `digits * 10 ^ exponent`; `n` is the position of the point. -/
private def layout (digits : ℕ) (exponent : ℤ) : List Char :=
  let text := digitChars digits
  let count := text.length
  let n : ℤ := exponent + count
  if count ≤ n ∧ n ≤ 21 then text ++ List.replicate (n - count).toNat '0'
  else if 0 < n ∧ n ≤ 21 then text.take n.toNat ++ '.' :: text.drop n.toNat
  else if -6 < n ∧ n ≤ 0 then "0.".toList ++ List.replicate (-n).toNat '0' ++ text
  else
    let sign := if 0 < n then '+' else '-'
    let mantissa := if count = 1 then text else text.take 1 ++ '.' :: text.drop 1
    mantissa ++ 'e' :: sign :: digitChars (n - 1).natAbs

/-- `String(x)`, the text a template literal inserts. -/
def numberToString : Binary64 → String
  | .nan => "NaN"
  | .infinity false => "Infinity"
  | .infinity true => "-Infinity"
  | .finite negative magnitude valid =>
      if magnitude = 0 then "0"
      else
        -- Trailing zeros of a round-up such as `10` belong to the exponent.
        let (digits, exponent) := shortest magnitude valid
        let zeros := ((Nat.digits 10 digits).takeWhile (· = 0)).length
        let text := layout (digits / 10 ^ zeros) (exponent + zeros)
        String.ofList (if negative then '-' :: text else text)

end Colata.JavaScript
