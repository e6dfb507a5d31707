/-
# Clipping to a range

`RangeState.setup` fills an `int` and a `long` array and derives the bounds that the
two benchmarks clip them to. The highest value is a percentage of the maximum, which is
multiplied before it is divided, in the width of the type. At 100 percent nothing is
clipped exactly when a hundred times the maximum fits.
-/

import Colata.Math.Reduction
import Mathlib.Algebra.Order.Group.Unbundled.Int
import Mathlib.Algebra.Ring.Nat
import Mathlib.Data.List.MinMax

namespace Colata.MinMaxLoop

open Colata.Math

variable {w : ℕ}

/-- `Math.max`, of which the first argument is returned when both are equal. -/
def mathMax : BitVec w → BitVec w → BitVec w := choose fun a b => b.sle a

/-- `Math.min`. -/
def mathMin : BitVec w → BitVec w → BitVec w := choose fun a b => a.sle b

/-- `IntSummaryStatistics` and `LongSummaryStatistics`. -/
structure SummaryStatistics (w : ℕ) where
  min : BitVec w
  max : BitVec w

def summaryStatistics (values : List (BitVec w)) : SummaryStatistics w where
  min := values.foldl mathMin (BitVec.intMax w)
  max := values.foldl mathMax (BitVec.intMin w)

/-- The bounds that `setup` computes for one of the arrays. -/
structure Bounds (w : ℕ) where
  highest : BitVec w
  lowest : BitVec w
  deriving DecidableEq

def bounds (range : BitVec w) (values : List (BitVec w)) : Bounds w :=
  let stats := summaryStatistics values
  let highest := (stats.max * range).sdiv 100
  ⟨highest, stats.min + (stats.max - highest)⟩

structure RangeState where
  size : ℕ
  range : BitVec 32
  ints : List (BitVec 32)
  resultInts : List (BitVec 32)
  longs : List (BitVec 64)
  resultLongs : List (BitVec 64)
  intBounds : Bounds 32
  longBounds : Bounds 64

/-- `setup`, for the pairs of an `int` and a `long` that the random generator yields. -/
def setup (range : BitVec 32) (draws : List (BitVec 32 × BitVec 64)) : RangeState where
  size := draws.length
  range := range
  ints := draws.map Prod.fst
  resultInts := List.replicate draws.length 0
  longs := draws.map Prod.snd
  resultLongs := List.replicate draws.length 0
  intBounds := bounds range (draws.map Prod.fst)
  -- `range` is an `int` and is widened.
  longBounds := bounds (range.signExtend 64) (draws.map Prod.snd)

/-- The loop of a clipping benchmark, which overwrites the result array. -/
def clippingRange (bounds : Bounds w) (values : List (BitVec w)) : List (BitVec w) :=
  values.map fun value => mathMin (mathMax value bounds.lowest) bounds.highest

def intClippingRange (state : RangeState) : List (BitVec 32) :=
  clippingRange state.intBounds state.ints

def longClippingRange (state : RangeState) : List (BitVec 64) :=
  clippingRange state.longBounds state.longs

/-! ## Extreme values -/

def IsMaximum (values : List (BitVec w)) (value : BitVec w) : Prop :=
  value ∈ values ∧ ∀ other ∈ values, other.toInt ≤ value.toInt

def IsMinimum (values : List (BitVec w)) (value : BitVec w) : Prop :=
  value ∈ values ∧ ∀ other ∈ values, value.toInt ≤ other.toInt

theorem sle_antisymm {a b : BitVec w} (h : a.sle b) (h' : b.sle a) : a = b := by
  rw [BitVec.sle_iff_toInt_le] at h h'
  exact BitVec.toInt_inj.mp (le_antisymm h h')

theorem summaryStatistics_max {values : List (BitVec w)} {value : BitVec w}
    (h : IsMaximum values value) : (summaryStatistics values).max = value := by
  apply foldl_choose fun first second hfirst hsecond => sle_antisymm hsecond hfirst
  · rw [BitVec.sle_iff_toInt_le]
    exact BitVec.toInt_intMin_le value
  · intro other hother
    rw [BitVec.sle_iff_toInt_le]
    exact h.2 other hother
  · exact Or.inl h.1

theorem summaryStatistics_min {values : List (BitVec w)} {value : BitVec w}
    (h : IsMinimum values value) : (summaryStatistics values).min = value := by
  apply foldl_choose fun first second => sle_antisymm
  · rw [BitVec.sle_iff_toInt_le, BitVec.toInt_intMax]
    exact Int.le_sub_one_of_lt BitVec.toInt_lt
  · intro other hother
    rw [BitVec.sle_iff_toInt_le]
    exact h.2 other hother
  · exact Or.inl h.1

/-! ## All values in range -/

/-- A hundred times the value fits into the type. -/
def Fits (value : BitVec w) : Prop :=
  -2 ^ (w - 1) ≤ 100 * value.toInt ∧ 100 * value.toInt < 2 ^ (w - 1)

/-- The bounds are the extreme values of the array, and clipping returns it unchanged. -/
structure KeepsAll (values : List (BitVec w)) (bounds : Bounds w)
    (clipped : List (BitVec w)) : Prop where
  highest : ∀ value, IsMaximum values value → bounds.highest = value
  lowest : ∀ value, IsMinimum values value → bounds.lowest = value
  unchanged : clipped = values

/-- The width of the type, for types that can hold 100. -/
theorem exists_half (hw : 8 ≤ w) :
    ∃ half : ℤ, 128 ≤ half ∧ (2 : ℤ) ^ (w - 1) = half ∧ ((2 ^ w : ℕ) : ℤ) = 2 * half := by
  obtain ⟨k, rfl⟩ := Nat.exists_eq_add_of_le hw
  have hpos : (1 : ℤ) ≤ 2 ^ k := Int.pow_pos (by decide)
  have hlow : 8 + k - 1 = 7 + k := by omega
  have hhigh : 8 + k = (7 + k) + 1 := by omega
  refine ⟨2 ^ (7 + k), ?_, by rw [hlow], ?_⟩
  · rw [pow_add]
    omega
  · rw [hhigh, Int.natCast_pow, pow_succ, mul_comm]
    rfl

theorem toInt_hundred (hw : 8 ≤ w) : (100 : BitVec w).toInt = 100 := by
  obtain ⟨half, hhalf, hpow, _⟩ := exists_half hw
  have hofInt : (100 : BitVec w) = BitVec.ofInt w 100 := rfl
  rw [hofInt]
  apply BitVec.toInt_ofInt_eq_self (by omega)
  · rw [hpow]
    omega
  · rw [hpow]
    omega

/-- Multiplying by a hundred and dividing again gives the value back exactly if the product
fits: otherwise the product is off by a multiple of the type's range. -/
theorem mul_sdiv_hundred_iff (hw : 8 ≤ w) (value : BitVec w) :
    (value * 100).sdiv 100 = value ↔ Fits value := by
  obtain ⟨half, hhalf, hpow, hrange⟩ := exists_half hw
  have hhundred := toInt_hundred hw
  have hne : (100 : BitVec w) ≠ -1#w := by
    intro heq
    have hint : (100 : BitVec w).toInt = (-1#w).toInt := congrArg BitVec.toInt heq
    have hone : (-1#w).toInt = -1 := by
      rw [BitVec.neg_one_eq_allOnes, BitVec.toInt_allOnes, if_pos (by omega)]
    omega
  have hlow : -half ≤ (value * 100).toInt := hpow ▸ BitVec.le_toInt _
  have hhigh : (value * 100).toInt < half := hpow ▸ BitVec.toInt_lt
  have hdvd : 2 * half ∣ (value * 100).toInt - value.toInt * 100 := by
    rw [← hrange, BitVec.toInt_mul, hhundred]
    exact Int.dvd_bmod_sub_self
  rw [← BitVec.toInt_inj, BitVec.toInt_sdiv_of_ne_or_ne _ _ (Or.inr hne), hhundred, Fits, hpow]
  generalize (value * 100).toInt = product at *
  constructor
  · intro hquotient
    have hdivision := Int.tdiv_mul_add_tmod product 100
    have hupper := Int.tmod_lt_of_pos product (b := 100) (by decide)
    have hlower := Int.lt_tmod_of_pos product (b := 100) (by decide)
    rw [hquotient] at hdivision
    have hsmall : |product - value.toInt * 100| < 2 * half := by
      rw [abs_lt]
      constructor <;> omega
    have hzero := Int.eq_zero_of_abs_lt_dvd hdvd hsmall
    constructor <;> omega
  · intro hfits
    obtain ⟨hleast, hgreatest⟩ := hfits
    have hsmall : |product - value.toInt * 100| < 2 * half := by
      rw [abs_lt]
      constructor <;> omega
    have hzero := Int.eq_zero_of_abs_lt_dvd hdvd hsmall
    have hproduct : product = value.toInt * 100 := by omega
    rw [hproduct, Int.mul_tdiv_cancel _ (by decide)]

/-- A value between the bounds is not clipped. -/
theorem clip_eq_self {bounds : Bounds w} {value : BitVec w}
    (hlow : bounds.lowest.toInt ≤ value.toInt) (hhigh : value.toInt ≤ bounds.highest.toInt) :
    mathMin (mathMax value bounds.lowest) bounds.highest = value := by
  have hmax : mathMax value bounds.lowest = value :=
    if_pos (BitVec.sle_iff_toInt_le.mpr hlow)
  rw [hmax]
  exact if_pos (BitVec.sle_iff_toInt_le.mpr hhigh)

theorem exists_isMaximum {values : List (BitVec w)} (hne : values ≠ []) :
    ∃ value, IsMaximum values value := by
  obtain ⟨value, hvalue⟩ := Option.ne_none_iff_exists'.mp
    (mt List.argmax_eq_none.mp hne : List.argmax BitVec.toInt values ≠ none)
  exact ⟨value, List.argmax_mem hvalue, fun other hother => List.le_of_mem_argmax hother hvalue⟩

theorem exists_isMinimum {values : List (BitVec w)} (hne : values ≠ []) :
    ∃ value, IsMinimum values value := by
  obtain ⟨value, hvalue⟩ := Option.ne_none_iff_exists'.mp
    (mt List.argmin_eq_none.mp hne : List.argmin BitVec.toInt values ≠ none)
  exact ⟨value, List.argmin_mem hvalue, fun other hother => List.le_of_mem_argmin hother hvalue⟩

/-- With the maximum and the minimum as bounds, nothing is clipped. -/
theorem clippingRange_eq_self {values : List (BitVec w)} {bounds : Bounds w}
    (hhighest : IsMaximum values bounds.highest) (hlowest : IsMinimum values bounds.lowest) :
    clippingRange bounds values = values := by
  have hmap : ∀ value ∈ values,
      mathMin (mathMax value bounds.lowest) bounds.highest = id value := fun value hvalue =>
    clip_eq_self (hlowest.2 value hvalue) (hhighest.2 value hvalue)
  rw [clippingRange, List.map_congr_left hmap, List.map_id]

/-- At 100 percent an array is kept exactly if its maximum fits a hundred times. -/
theorem keepsAll_bounds_iff (hw : 8 ≤ w) (values : List (BitVec w)) :
    KeepsAll values (bounds 100 values) (clippingRange (bounds 100 values) values) ↔
      ∀ value, IsMaximum values value → Fits value := by
  constructor
  · intro hkeeps value hvalue
    have hhighest := hkeeps.highest value hvalue
    rw [bounds, summaryStatistics_max hvalue] at hhighest
    exact (mul_sdiv_hundred_iff hw value).mp hhighest
  · intro hfits
    by_cases hempty : values = []
    · subst hempty
      exact ⟨fun value h => absurd h.1 List.not_mem_nil, fun value h => absurd h.1 List.not_mem_nil,
        rfl⟩
    · obtain ⟨most, hmost⟩ := exists_isMaximum hempty
      obtain ⟨least, hleast⟩ := exists_isMinimum hempty
      have hquotient : (most * 100).sdiv 100 = most :=
        (mul_sdiv_hundred_iff hw most).mpr (hfits most hmost)
      have hbounds : bounds 100 values = ⟨most, least⟩ := by
        rw [bounds, summaryStatistics_max hmost, summaryStatistics_min hleast, hquotient,
          BitVec.sub_self, BitVec.add_zero]
      rw [hbounds]
      refine ⟨fun value hvalue => ?_, fun value hvalue => ?_, clippingRange_eq_self hmost hleast⟩
      · rw [← summaryStatistics_max hmost, summaryStatistics_max hvalue]
      · rw [← summaryStatistics_min hleast, summaryStatistics_min hvalue]

/-- With a range of 100, `setup` and the clipping benchmarks keep each array exactly if a
hundred times its maximum is a value of its type. -/
theorem setup_keepsAll_iff (draws : List (BitVec 32 × BitVec 64)) :
    (KeepsAll (setup 100 draws).ints (setup 100 draws).intBounds
        (intClippingRange (setup 100 draws)) ↔
      ∀ value, IsMaximum (setup 100 draws).ints value →
        -2 ^ 31 ≤ 100 * value.toInt ∧ 100 * value.toInt < 2 ^ 31) ∧
    (KeepsAll (setup 100 draws).longs (setup 100 draws).longBounds
        (longClippingRange (setup 100 draws)) ↔
      ∀ value, IsMaximum (setup 100 draws).longs value →
        -2 ^ 63 ≤ 100 * value.toInt ∧ 100 * value.toInt < 2 ^ 63) := by
  constructor
  · exact keepsAll_bounds_iff (by decide) (draws.map Prod.fst)
  · exact keepsAll_bounds_iff (by decide) (draws.map Prod.snd)

/-- What a generator with seed 0 yields for arrays of one element. -/
def seedDraws : List (BitVec 32 × BitVec 64) :=
  [(BitVec.ofInt 32 (-1155484576), BitVec.ofInt 64 (-3109364765729502342))]

/-- The highest value is neither the maximum of the ints nor that of the longs. -/
theorem not_forall_setup_keepsAll :
    ¬ ∀ draws : List (BitVec 32 × BitVec 64),
      KeepsAll (setup 100 draws).ints (setup 100 draws).intBounds
          (intClippingRange (setup 100 draws)) ∧
        KeepsAll (setup 100 draws).longs (setup 100 draws).longBounds
          (longClippingRange (setup 100 draws)) := by
  intro hclaim
  have hmaximum : IsMaximum (setup 100 seedDraws).ints (BitVec.ofInt 32 (-1155484576)) :=
    ⟨List.mem_singleton.mpr rfl, fun other hother => le_of_eq (by rw [List.mem_singleton.mp hother])⟩
  exact absurd ((hclaim seedDraws).1.highest _ hmaximum) (by decide)

end Colata.MinMaxLoop
