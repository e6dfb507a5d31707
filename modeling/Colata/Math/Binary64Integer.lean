/-
# Doubles that hold integers

Up to `2 ^ 53` a double holds every integer, so sums, differences and products that stay
in that range are exact. A product beyond it is rounded but stays beyond it. The integer
part of a rounded quotient of small integers is their truncating quotient: the quotient
is too far from the next integer to be rounded up to it.
-/

import Colata.Math.Binary64

namespace Colata.Math

/-! ## Rounding a ratio -/

theorem roundHalfEven_mul_right (num den : ℕ) {scale : ℕ} (hscale : 0 < scale) :
    roundHalfEven (num * scale) (den * scale) = roundHalfEven num den := by
  have hquotient : num * scale / (den * scale) = num / den := Nat.mul_div_mul_right _ _ hscale
  have hremainder : num * scale % (den * scale) = num % den * scale := Nat.mul_mod_mul_right ..
  have hbelow : 2 * (num % den * scale) < den * scale ↔ 2 * (num % den) < den := by
    rw [← mul_assoc, Nat.mul_lt_mul_right hscale]
  have habove : den * scale < 2 * (num % den * scale) ↔ den < 2 * (num % den) := by
    rw [← mul_assoc, Nat.mul_lt_mul_right hscale]
  simp only [roundHalfEven, hquotient, hremainder, hbelow, habove]

theorem div_le_roundHalfEven (num den : ℕ) : num / den ≤ roundHalfEven num den := by
  simp only [roundHalfEven]
  split_ifs <;> omega

/-- The nearest natural number is at most half the denominator away. -/
theorem roundHalfEven_mul_le (num den : ℕ) :
    2 * (roundHalfEven num den * den) ≤ 2 * num + den := by
  have hsplit := Nat.div_add_mod num den
  rw [mul_comm] at hsplit
  simp only [roundHalfEven]
  split_ifs with hbelow habove
  · omega
  · rw [Nat.add_mul]
    omega
  · have hparity : num / den % 2 ≤ 1 := Nat.le_of_lt_succ (Nat.mod_lt _ (by decide))
    have hround : (num / den + num / den % 2) * den ≤ num / den * den + den := by
      rw [Nat.add_mul]
      exact Nat.add_le_add_left (by simpa using Nat.mul_le_mul_right den hparity) _
    omega

namespace Binary64

theorem one_eq_two_pow : one = 2 ^ unitExponent := rfl

theorem lt_unitExponent : 31 < unitExponent := by decide

-- Keeps the kernel's literals out of the unifier.
attribute [local irreducible] one unitExponent overflow

theorem roundMagnitude_mul_right (num den : ℕ) {scale : ℕ} (hscale : 0 < scale) :
    roundMagnitude (num * scale) (den * scale) = roundMagnitude num den := by
  simp only [roundMagnitude, Nat.mul_div_mul_right _ _ hscale]
  rw [mul_right_comm, roundHalfEven_mul_right _ _ hscale]

theorem round_mul_right (negative : Bool) (num den : ℕ) {scale : ℕ} (hscale : 0 < scale) :
    round negative (num * scale) (den * scale) = round negative num den := by
  simp only [round, roundMagnitude_mul_right num den hscale]

/-- Rounding does not pass a multiple of the spacing. -/
theorem le_roundMagnitude {num den bound : ℕ} (hbound : bound ≤ num / den)
    (hdvd : 2 ^ ((num / den).log2 - 52) ∣ bound) : bound ≤ roundMagnitude num den := by
  obtain ⟨multiple, rfl⟩ := hdvd
  rw [roundMagnitude, mul_comm]
  apply Nat.mul_le_mul_right
  refine le_trans ?_ (div_le_roundHalfEven _ _)
  rw [← Nat.div_div_eq_div_mul, Nat.le_div_iff_mul_le (Nat.two_pow_pos _), mul_comm]
  exact hbound

/-- Rounding keeps the leading bit or carries beyond it. -/
theorem two_pow_le_roundMagnitude {num den exponent : ℕ} (h : 2 ^ exponent ≤ num / den) :
    2 ^ exponent ≤ roundMagnitude num den := by
  have hne : num / den ≠ 0 := (Nat.two_pow_pos exponent |>.trans_le h).ne'
  have hlog : exponent ≤ (num / den).log2 := (Nat.le_log2 hne).mpr h
  calc 2 ^ exponent ≤ 2 ^ (num / den).log2 := Nat.pow_le_pow_right (by decide) hlog
    _ ≤ roundMagnitude num den :=
      le_roundMagnitude (Nat.log2_self_le hne) (pow_dvd_pow 2 (Nat.sub_le _ _))

/-! ## Integer values -/

/-- A finite double with this integer as its value; a zero may carry either sign. -/
def IsInt (x : Binary64) (value : ℤ) : Prop :=
  ∃ negative natural valid, x = .finite negative (natural * one) valid ∧
    signed negative natural = value

theorem signed_mul (negative : Bool) (natural scale : ℕ) :
    signed negative (natural * scale) = signed negative natural * scale := by
  cases negative <;> simp [signed]

theorem natAbs_signed (negative : Bool) (natural : ℕ) :
    (signed negative natural).natAbs = natural := by
  cases negative <;> simp [signed]

theorem IsInt.toInt {x : Binary64} {value : ℤ} (h : x.IsInt value) : x.toInt = value := by
  obtain ⟨negative, natural, valid, rfl, rfl⟩ := h
  rw [Binary64.toInt, Nat.mul_div_cancel _ one_pos]

theorem IsInt.unique {x : Binary64} {first second : ℤ} (hfirst : x.IsInt first)
    (hsecond : x.IsInt second) : first = second :=
  hfirst.toInt.symm.trans hsecond.toInt

theorem IsInt.isInt_iff {x : Binary64} {value : ℤ} (h : x.IsInt value) (other : ℤ) :
    x.IsInt other ↔ value = other :=
  ⟨fun hother => h.unique hother, fun heq => heq ▸ h⟩

theorem isInt_zero (negative : Bool) : IsInt (.finite negative 0 isMagnitude_zero) 0 := by
  have hzero : 0 * one = 0 := Nat.zero_mul one
  refine ⟨negative, 0, by rw [hzero]; exact isMagnitude_zero, by simp only [hzero], ?_⟩
  cases negative <;> rfl

theorem isInt_round (negative : Bool) {natural : ℕ} (h : natural ≤ 2 ^ 53) :
    (round negative (natural * one) 1).IsInt (signed negative natural) := by
  rw [round_of_isMagnitude negative (isMagnitude_nat h)]
  exact ⟨negative, natural, _, rfl, rfl⟩

theorem isInt_ofNat {value : ℕ} (h : value ≤ 2 ^ 53) : (ofNat value).IsInt value :=
  isInt_round false h

theorem isInt_ofUnits {value : ℤ} (h : value.natAbs ≤ 2 ^ 53) :
    (ofUnits (value * one)).IsInt value := by
  have hsign : value * one < 0 ↔ value < 0 := by
    have hpos : (0 : ℤ) < one := Int.natCast_pos.mpr one_pos
    exact ⟨fun hneg => by_contra fun hnot => absurd hneg (not_lt.mpr (mul_nonneg
      (not_lt.mp hnot) hpos.le)), fun hneg => mul_neg_of_neg_of_pos hneg hpos⟩
  have hround := isInt_round (decide (value < 0)) h
  have hvalue : signed (decide (value < 0)) value.natAbs = value := by
    by_cases hneg : value < 0
    · simp only [hneg, decide_true, signed, if_true]
      omega
    · simp only [hneg, decide_false, signed, Bool.false_eq_true, if_false]
      omega
  rw [hvalue] at hround
  simpa only [ofUnits, hsign, Int.natAbs_mul, Int.natAbs_natCast] using hround

theorem isInt_ofInt {value : ℤ} (h : value.natAbs ≤ 2 ^ 53) : (ofInt value).IsInt value :=
  isInt_ofUnits h

/-! ## Exact operations -/

section Operations

variable {x y : Binary64} {a b : ℤ}

theorem add_eq (x y : Binary64) : x + y = x.add y := rfl

theorem mul_eq (x y : Binary64) : x * y = x.mul y := rfl

theorem div_eq (x y : Binary64) : x / y = x.div y := rfl

theorem rem_eq (x y : Binary64) : x % y = x.rem y := rfl

theorem IsInt.neg (hx : x.IsInt a) : (-x).IsInt (-a) := by
  obtain ⟨negative, natural, valid, rfl, rfl⟩ := hx
  refine ⟨!negative, natural, valid, rfl, ?_⟩
  cases negative <;> simp [signed]

theorem IsInt.abs (hx : x.IsInt a) : x.abs.IsInt |a| := by
  obtain ⟨negative, natural, valid, rfl, rfl⟩ := hx
  refine ⟨false, natural, valid, rfl, ?_⟩
  cases negative <;> simp [signed]

theorem IsInt.add (hx : x.IsInt a) (hy : y.IsInt b) (hsum : (a + b).natAbs ≤ 2 ^ 53) :
    (x + y).IsInt (a + b) := by
  obtain ⟨s, p, validX, rfl, rfl⟩ := hx
  obtain ⟨t, q, validY, rfl, rfl⟩ := hy
  have hunits : signed s (p * one) + signed t (q * one) = (signed s p + signed t q) * one := by
    rw [signed_mul, signed_mul, add_mul]
  simp only [add_eq, Binary64.add, hunits]
  split_ifs with hzero
  · have hone : (one : ℤ) ≠ 0 := Int.natCast_ne_zero.mpr one_pos.ne'
    have hnull := (mul_eq_zero.mp hzero).resolve_right hone
    rw [hnull]
    exact isInt_zero (s && t)
  · exact isInt_ofUnits hsum

theorem IsInt.sub (hx : x.IsInt a) (hy : y.IsInt b) (hdifference : (a - b).natAbs ≤ 2 ^ 53) :
    (x - y).IsInt (a - b) := by
  rw [sub_eq_add_neg] at hdifference ⊢
  exact hx.add hy.neg hdifference

/-- A product of integers is rounded once, from the exact product. -/
theorem IsInt.mul_eq_round (hx : x.IsInt a) (hy : y.IsInt b) :
    ∃ negative, x * y = round negative ((a * b).natAbs * one) 1 ∧
      signed negative (a * b).natAbs = a * b := by
  obtain ⟨s, p, validX, rfl, rfl⟩ := hx
  obtain ⟨t, q, validY, rfl, rfl⟩ := hy
  have hscale : p * one * (q * one) = p * q * one * one := by ring
  have hround := round_mul_right (s ^^ t) (p * q * one) 1 one_pos
  rw [one_mul] at hround
  refine ⟨s ^^ t, ?_, ?_⟩
  · rw [mul_eq, Binary64.mul, hscale, hround, Int.natAbs_mul, natAbs_signed, natAbs_signed]
  · rw [Int.natAbs_mul, natAbs_signed, natAbs_signed]
    cases s <;> cases t <;> simp [signed]

theorem IsInt.mul (hx : x.IsInt a) (hy : y.IsInt b) (hproduct : (a * b).natAbs ≤ 2 ^ 53) :
    (x * y).IsInt (a * b) := by
  obtain ⟨negative, heq, hsigned⟩ := hx.mul_eq_round hy
  have hround := isInt_round negative hproduct
  rwa [← heq, hsigned] at hround

/-- A product beyond the exact range does not round back into it. -/
theorem IsInt.le_natAbs_of_mul (hx : x.IsInt a) (hy : y.IsInt b)
    (hproduct : 2 ^ 53 ≤ (a * b).natAbs) {value : ℤ} (hvalue : (x * y).IsInt value) :
    2 ^ 53 ≤ value.natAbs := by
  obtain ⟨negative, heq, _⟩ := hx.mul_eq_round hy
  obtain ⟨s, natural, valid, hfinite, rfl⟩ := hvalue
  rw [heq, round] at hfinite
  split_ifs at hfinite with hbound
  have hmagnitude : roundMagnitude ((a * b).natAbs * one) 1 = natural * one :=
    (finite.inj hfinite).2
  have hlow : 2 ^ (53 + unitExponent) ≤ roundMagnitude ((a * b).natAbs * one) 1 := by
    apply two_pow_le_roundMagnitude
    rw [Nat.div_one, pow_add, ← one_eq_two_pow]
    exact Nat.mul_le_mul_right one hproduct
  rw [hmagnitude, pow_add, ← one_eq_two_pow] at hlow
  rw [natAbs_signed]
  exact Nat.le_of_mul_le_mul_right hlow one_pos

theorem IsInt.rem (hx : x.IsInt a) (hy : y.IsInt b) (hb : b ≠ 0) (ha : a.natAbs ≤ 2 ^ 53) :
    (x % y).IsInt (a.tmod b) := by
  obtain ⟨s, p, validX, rfl, rfl⟩ := hx
  obtain ⟨t, q, validY, rfl, rfl⟩ := hy
  rw [natAbs_signed] at ha
  have hq : q ≠ 0 := by
    rintro rfl
    cases t <;> exact hb rfl
  have hne : q * one ≠ 0 := Nat.mul_ne_zero hq one_pos.ne'
  have hvalue : signed s (p % q) = (signed s p).tmod (signed t q) := by
    cases s <;> cases t <;> simp [signed, ← Int.ofNat_tmod]
  rw [rem_eq, Binary64.rem, if_neg hne, Nat.mul_mod_mul_right, ← hvalue]
  exact isInt_round s ((Nat.mod_le p q).trans ha)

/-- The quotient of two small naturals is not rounded up to the next integer. -/
theorem roundMagnitude_div_bounds {p q : ℕ} (hp : p ≤ 2 ^ 31) (hq : q ≤ 2 ^ 31) (hpos : 0 < q) :
    p / q * one ≤ roundMagnitude (p * one) q ∧ roundMagnitude (p * one) q < (p / q + 1) * one := by
  have hpone : p * one ≤ 2 ^ 31 * one := Nat.mul_le_mul_right one hp
  constructor
  · apply le_roundMagnitude
    · rw [Nat.le_div_iff_mul_le hpos, mul_right_comm]
      exact Nat.mul_le_mul_right one (Nat.div_mul_le_self p q)
    · have hlog : (p * one / q).log2 ≤ 31 + unitExponent := by
        by_cases hzero : p * one / q = 0
        · simp [hzero]
        · rw [← Nat.lt_succ_iff, Nat.log2_lt hzero, pow_succ, pow_add, ← one_eq_two_pow]
          exact ((Nat.div_le_self _ _).trans hpone).trans_lt
            (lt_mul_of_one_lt_right (Nat.mul_pos (by decide) one_pos) one_lt_two)
      have hle : (p * one / q).log2 - 52 ≤ unitExponent := by omega
      exact ((pow_dvd_pow 2 hle).trans (dvd_of_eq one_eq_two_pow.symm)).mul_left (p / q)
  · -- Half the spacing is less than the distance to the next integer.
    have hspacing : q * 2 ^ ((p * one / q).log2 - 52) < 2 * one := by
      rcases Nat.le_total (p * one / q).log2 52 with hfine | hcoarse
      · rw [Nat.sub_eq_zero_of_le hfine, pow_zero, mul_one]
        calc q ≤ 2 ^ 31 := hq
          _ < 2 ^ unitExponent := Nat.pow_lt_pow_right (by decide) lt_unitExponent
          _ = one := one_eq_two_pow.symm
          _ ≤ 2 * one := Nat.le_mul_of_pos_left _ (by decide)
      · have hne : p * one / q ≠ 0 := by
          intro hzero
          rw [hzero] at hcoarse
          exact absurd hcoarse (by decide)
        have hpow : 2 ^ ((p * one / q).log2 - 52) * 2 ^ 52 ≤ p * one / q := by
          rw [← pow_add, Nat.sub_add_cancel hcoarse]
          exact Nat.log2_self_le hne
        rw [Nat.le_div_iff_mul_le hpos, mul_right_comm, mul_comm _ q] at hpow
        have hbound := hpow.trans hpone
        have honePos := one_pos
        omega
    have hround := roundHalfEven_mul_le (p * one) (q * 2 ^ ((p * one / q).log2 - 52))
    have hproduct : roundMagnitude (p * one) q * q =
        roundHalfEven (p * one) (q * 2 ^ ((p * one / q).log2 - 52)) *
          (q * 2 ^ ((p * one / q).log2 - 52)) := by
      rw [roundMagnitude]
      ring
    have hnext : (p + 1) * one ≤ (p / q + 1) * one * q := by
      rw [mul_right_comm]
      apply Nat.mul_le_mul_right
      rw [mul_comm]
      exact Nat.lt_mul_div_succ p hpos
    rw [← hproduct] at hround
    rw [Nat.add_mul, Nat.one_mul] at hnext
    refine Nat.lt_of_mul_lt_mul_right ?_ (a := q)
    omega

/-- The integer part of the rounded quotient of small integers. -/
theorem IsInt.trunc_div (hx : x.IsInt a) (hy : y.IsInt b) (ha : a.natAbs ≤ 2 ^ 31)
    (hb : b.natAbs ≤ 2 ^ 31) (hne : b ≠ 0) : (x / y).trunc.IsInt (a.tdiv b) := by
  obtain ⟨s, p, validX, rfl, rfl⟩ := hx
  obtain ⟨t, q, validY, rfl, rfl⟩ := hy
  rw [natAbs_signed] at ha hb
  have hq : q ≠ 0 := by
    rintro rfl
    cases t <;> exact hne rfl
  have hden : q * one ≠ 0 := Nat.mul_ne_zero hq one_pos.ne'
  have hvalue : signed (s ^^ t) (p / q) = (signed s p).tdiv (signed t q) := by
    cases s <;> cases t <;> simp [signed]
  obtain ⟨hlow, hhigh⟩ := roundMagnitude_div_bounds ha hb (Nat.pos_of_ne_zero hq)
  have hwhole : roundMagnitude (p * one) q / one = p / q := Nat.div_eq_of_lt_le hlow hhigh
  have hsmall : p / q + 1 ≤ 2 ^ 53 :=
    (Nat.succ_le_succ ((Nat.div_le_self p q).trans ha)).trans (by decide)
  have hfinite : roundMagnitude (p * one) q < overflow :=
    hhigh.trans (isMagnitude_nat hsmall).1
  have hquotient : finite s (p * one) validX / finite t (q * one) validY =
      .finite (s ^^ t) (roundMagnitude (p * one) q) ⟨hfinite, roundMagnitude_dvd _ _⟩ := by
    rw [div_eq, Binary64.div, if_neg hden, round_mul_right _ _ _ one_pos, round, dif_pos hfinite]
  rw [hquotient]
  show (round (s ^^ t) (roundMagnitude (p * one) q / one * one) 1).IsInt _
  rw [hwhole, ← hvalue]
  exact isInt_round (s ^^ t) (Nat.le_of_succ_le hsmall)

end Operations

end Binary64

end Colata.Math
