/-
# IEEE 754 binary64 data

A finite double is a sign together with a magnitude counted in units of the
smallest subnormal, `2 ^ -1074`, so that every finite double is a whole number
of units and no rational arithmetic is needed. Each operation computes its exact
result as a ratio of units and rounds once, to nearest with ties to even. The
magnitude carries the proof that at most 53 significant bits are set, so a value
that no double can hold cannot be built.
-/

import Mathlib.Data.Nat.Log
import Mathlib.Data.Nat.Bitwise
import Mathlib.Tactic.Ring
import Mathlib.Tactic.Linarith

namespace Colata.Math

/-- The natural number nearest to `num / den`, ties to even. -/
def roundHalfEven (num den : ℕ) : ℕ :=
  let quotient := num / den
  let remainder := num % den
  if 2 * remainder < den then quotient
  else if den < 2 * remainder then quotient + 1
  else quotient + quotient % 2

theorem roundHalfEven_le_succ (num den : ℕ) :
    roundHalfEven num den ≤ num / den + 1 := by
  have hparity : num / den % 2 < 2 := Nat.mod_lt _ (by decide)
  simp only [roundHalfEven]
  split_ifs <;> omega

/-- Rounding an exact multiple of the denominator changes nothing. -/
theorem roundHalfEven_mul_self {den : ℕ} (hden : 0 < den) (quotient : ℕ) :
    roundHalfEven (quotient * den) den = quotient := by
  simp [roundHalfEven, Nat.mul_div_cancel _ hden, hden]

namespace Binary64

/-- The unit of magnitude is `2 ^ -unitExponent`. -/
def unitExponent : ℕ := 1074

/-- One, in units of `2 ^ -1074`. -/
def one : ℕ := 2 ^ unitExponent

/-- The first magnitude beyond the finite range, `2 ^ 1024` in units. -/
def overflow : ℕ := 2 ^ (1024 + unitExponent)

theorem one_pos : 0 < one := Nat.two_pow_pos unitExponent

theorem overflow_pos : 0 < overflow := Nat.two_pow_pos (1024 + unitExponent)

/-- A magnitude below the overflow threshold with at most 53 significant bits. -/
def IsMagnitude (magnitude : ℕ) : Prop :=
  magnitude < overflow ∧ 2 ^ (magnitude.log2 - 52) ∣ magnitude

instance (magnitude : ℕ) : Decidable (IsMagnitude magnitude) :=
  inferInstanceAs (Decidable (_ ∧ _))

theorem isMagnitude_zero : IsMagnitude 0 := by
  constructor
  · exact overflow_pos
  · exact dvd_zero _

/-- The nearest multiple of the spacing of doubles around `num / den` units. The
exponent range is unbounded above here; overflow is decided afterwards. -/
def roundMagnitude (num den : ℕ) : ℕ :=
  let exponent := (num / den).log2 - 52
  roundHalfEven num (den * 2 ^ exponent) * 2 ^ exponent

/-- A significand of at most `2 ^ 53` leaves at most 53 significant bits. -/
theorem significant_bits {significand : ℕ} (hsig : significand ≤ 2 ^ 53) (exponent : ℕ) :
    2 ^ ((significand * 2 ^ exponent).log2 - 52) ∣ significand * 2 ^ exponent := by
  rcases hsig.lt_or_eq with hlt | rfl
  · have hlog : (significand * 2 ^ exponent).log2 - 52 ≤ exponent := by
      by_cases hzero : significand = 0
      · simp [hzero]
      · have hne : significand * 2 ^ exponent ≠ 0 :=
          Nat.mul_ne_zero hzero (Nat.two_pow_pos _).ne'
        have hbound : (significand * 2 ^ exponent).log2 < 53 + exponent := by
          rw [Nat.log2_lt hne, pow_add]
          exact Nat.mul_lt_mul_of_pos_right hlt (Nat.two_pow_pos _)
        omega
    exact (pow_dvd_pow 2 hlog).mul_left significand
  · rw [← pow_add, Nat.log2_two_pow]
    exact pow_dvd_pow 2 (by omega)

theorem roundHalfEven_le_two_pow (num den : ℕ) :
    roundHalfEven num (den * 2 ^ ((num / den).log2 - 52)) ≤ 2 ^ 53 := by
  refine (roundHalfEven_le_succ _ _).trans ?_
  rw [← Nat.div_div_eq_div_mul, Nat.succ_le_iff, Nat.div_lt_iff_lt_mul (Nat.two_pow_pos _),
    ← pow_add]
  calc num / den < 2 ^ ((num / den).log2 + 1) := Nat.lt_log2_self
    _ ≤ 2 ^ (53 + ((num / den).log2 - 52)) := Nat.pow_le_pow_right (by decide) (by omega)

theorem roundMagnitude_dvd (num den : ℕ) :
    2 ^ ((roundMagnitude num den).log2 - 52) ∣ roundMagnitude num den :=
  significant_bits (roundHalfEven_le_two_pow num den) _

/-- A magnitude that a double can hold is its own rounding. -/
theorem roundMagnitude_of_isMagnitude {magnitude : ℕ} (h : IsMagnitude magnitude) :
    roundMagnitude magnitude 1 = magnitude := by
  obtain ⟨significand, hsig⟩ := h.2
  simp only [roundMagnitude, Nat.div_one, one_mul]
  generalize 2 ^ (magnitude.log2 - 52) = spacing at hsig ⊢
  rcases Nat.eq_zero_or_pos spacing with rfl | hpos
  · simp [hsig]
  · rw [hsig, mul_comm spacing, roundHalfEven_mul_self hpos]

end Binary64

/-- A binary64 datum; NaN carries no payload and both zeros are kept. -/
inductive Binary64
  | nan
  | infinity (negative : Bool)
  | finite (negative : Bool) (magnitude : ℕ) (valid : Binary64.IsMagnitude magnitude)
  deriving DecidableEq

namespace Binary64

/-- The double nearest to `± num / den` units: finite, or infinite on overflow. -/
def round (negative : Bool) (num den : ℕ) : Binary64 :=
  if h : roundMagnitude num den < overflow then
    .finite negative (roundMagnitude num den) ⟨h, roundMagnitude_dvd num den⟩
  else
    .infinity negative

theorem round_of_isMagnitude {magnitude : ℕ} (negative : Bool) (h : IsMagnitude magnitude) :
    round negative magnitude 1 = .finite negative magnitude h := by
  simp [round, roundMagnitude_of_isMagnitude h, h.1]

/-- A finite value in units, with its sign; both zeros are `0`. -/
def signed (negative : Bool) (magnitude : ℕ) : ℤ :=
  if negative then -magnitude else magnitude

/-- The double nearest to an integer number of units. -/
def ofUnits (units : ℤ) : Binary64 := round (decide (units < 0)) units.natAbs 1

def zero : Binary64 := .finite false 0 isMagnitude_zero

instance : Inhabited Binary64 := ⟨zero⟩

/-- The double nearest to an integer. -/
def ofInt (value : ℤ) : Binary64 := ofUnits (value * one)

/-- The double nearest to a natural number. -/
def ofNat (value : ℕ) : Binary64 := round false (value * one) 1

/-- The double nearest to `± digits * 10 ^ exponent`. -/
def ofDecimal (negative : Bool) (digits : ℕ) (exponent : ℤ) : Binary64 :=
  if 0 ≤ exponent then round negative (digits * 10 ^ exponent.toNat * one) 1
  else round negative (digits * one) (10 ^ (-exponent).toNat)

protected def neg : Binary64 → Binary64
  | .nan => .nan
  | .infinity negative => .infinity !negative
  | .finite negative magnitude valid => .finite (!negative) magnitude valid

protected def abs : Binary64 → Binary64
  | .nan => .nan
  | .infinity _ => .infinity false
  | .finite _ magnitude valid => .finite false magnitude valid

/-- Sum; an exact zero is positive unless both operands are negative. -/
protected def add : Binary64 → Binary64 → Binary64
  | .nan, _ => .nan
  | _, .nan => .nan
  | .infinity s, .infinity t => if s = t then .infinity s else .nan
  | .infinity s, .finite .. => .infinity s
  | .finite .., .infinity t => .infinity t
  | .finite s m _, .finite t n _ =>
      if signed s m + signed t n = 0 then .finite (s && t) 0 isMagnitude_zero
      else ofUnits (signed s m + signed t n)

protected def sub (x y : Binary64) : Binary64 := x.add y.neg

protected def mul : Binary64 → Binary64 → Binary64
  | .nan, _ => .nan
  | _, .nan => .nan
  | .infinity s, .infinity t => .infinity (s ^^ t)
  | .infinity s, .finite t n _ => if n = 0 then .nan else .infinity (s ^^ t)
  | .finite s m _, .infinity t => if m = 0 then .nan else .infinity (s ^^ t)
  | .finite s m _, .finite t n _ => round (s ^^ t) (m * n) one

protected def div : Binary64 → Binary64 → Binary64
  | .nan, _ => .nan
  | _, .nan => .nan
  | .infinity _, .infinity _ => .nan
  | .infinity s, .finite t _ _ => .infinity (s ^^ t)
  | .finite s _ _, .infinity t => .finite (s ^^ t) 0 isMagnitude_zero
  | .finite s m _, .finite t n _ =>
      if n = 0 then if m = 0 then .nan else .infinity (s ^^ t)
      else round (s ^^ t) (m * one) n

/-- Remainder of the truncating division, with the sign of the dividend. -/
protected def rem : Binary64 → Binary64 → Binary64
  | .nan, _ => .nan
  | _, .nan => .nan
  | .infinity _, _ => .nan
  | .finite s m h, .infinity _ => .finite s m h
  | .finite s m _, .finite _ n _ => if n = 0 then .nan else round s (m % n) 1

/-- The integer part, towards zero. -/
def trunc : Binary64 → Binary64
  | .nan => .nan
  | .infinity negative => .infinity negative
  | .finite negative magnitude _ => round negative (magnitude / one * one) 1

protected def lt : Binary64 → Binary64 → Bool
  | .nan, _ => false
  | _, .nan => false
  | .infinity s, .infinity t => s && !t
  | .infinity s, .finite .. => s
  | .finite .., .infinity t => !t
  | .finite s m _, .finite t n _ => decide (signed s m < signed t n)

/-- Neither a zero nor NaN. -/
def isTruthy : Binary64 → Bool
  | .nan => false
  | .infinity _ => true
  | .finite _ magnitude _ => magnitude != 0

/-- The mathematical integer part of a finite value; `0` for NaN and infinities. -/
def toInt : Binary64 → ℤ
  | .nan | .infinity _ => 0
  | .finite negative magnitude _ => signed negative (magnitude / one)

instance : Neg Binary64 := ⟨Binary64.neg⟩
instance : Add Binary64 := ⟨Binary64.add⟩
instance : Sub Binary64 := ⟨Binary64.sub⟩
instance : Mul Binary64 := ⟨Binary64.mul⟩
instance : Div Binary64 := ⟨Binary64.div⟩
instance : Mod Binary64 := ⟨Binary64.rem⟩
instance (n : ℕ) : OfNat Binary64 n := ⟨ofNat n⟩

/-- Every natural number up to `2 ^ 53` has at most 53 significant bits. -/
theorem isMagnitude_nat {value : ℕ} (h : value ≤ 2 ^ 53) : IsMagnitude (value * one) := by
  refine ⟨?_, significant_bits h unitExponent⟩
  calc value * one ≤ 2 ^ 53 * one := Nat.mul_le_mul_right one h
    _ = 2 ^ (53 + unitExponent) := by rw [one, ← pow_add]
    _ < overflow := Nat.pow_lt_pow_right (by decide) (by omega)

/-- Beyond `2 ^ 53` neighbouring naturals share a double. -/
example : ofNat (2 ^ 53 + 1) = ofNat (2 ^ 53) := by decide +kernel

end Binary64

end Colata.Math
