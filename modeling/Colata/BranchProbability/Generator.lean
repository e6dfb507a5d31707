/-
# The generator draws such arrays

Whatever the random numbers are, the choice of the next value appends a value to a drawn
sequence. So the arrays that the loops fill are those of a drawn sequence, and the `do` loop
is left with one that meets the percentage.
-/

import Colata.BranchProbability.Drawn
import Colata.BranchProbability.Filling

namespace Colata.BranchProbability

open Colata.Java Colata.Math

/-- The values have been drawn, and so many of them are above. -/
def IsDrawn (first : ℤ) (rest : List ℤ) (count : ℤ) : Prop :=
  ∃ drawn : Drawn, drawn.first = first ∧ drawn.rest = rest ∧ drawn.aboveCount = count

section Source

variable {σ : Type} (random : RandomSource σ)

/-- The next value differs from the maximum, and it is counted if it exceeds it. -/
theorem exists_nextValue (probability max aboveCount : ℤ) (source : σ)
    (hmax : |max| < 2 ^ 62) (hcount : 0 ≤ aboveCount ∧ aboveCount + 1 < 2 ^ 31) :
    ∃ value next, nextValue random probability max aboveCount source =
        (value, aboveCount + (if max < value then 1 else 0), next) ∧
      value ≠ max ∧ |value - max| ≤ 9 := by
  obtain ⟨hlow, hhigh⟩ := abs_lt.mp hmax
  have hrange := random.inRange 1 10 (random.nextLong 0 101 source).2 (by decide)
  unfold nextValue
  dsimp only
  generalize random.nextLong 1 10 (random.nextLong 0 101 source).2 = draw at hrange
  split_ifs with hdraw
  · refine ⟨max + draw.1, draw.2, ?_, by omega, ?_⟩
    · rw [wrapLong_of_bounds (by omega) (by omega), wrapInt_of_bounds (by omega) (by omega),
        if_pos (by omega)]
    · rw [abs_le]
      omega
  · refine ⟨max - draw.1, draw.2, ?_, by omega, ?_⟩
    · rw [wrapLong_of_bounds (by omega) (by omega), if_neg (by omega), add_zero]
    · rw [abs_le]
      omega

theorem isDrawn_nextLong (source : σ) : IsDrawn (random.nextLong 1 10 source).1 [] 1 :=
  ⟨.singleton _ (random.inRange 1 10 source (by decide)), rfl, rfl, rfl⟩

theorem draws_nextValue (probability : ℤ) {size : ℕ} (hsize : 100 * size < 2 ^ 31) :
    Draws (nextValue random probability) IsDrawn size := by
  rintro _ _ _ source hlt ⟨drawn, rfl, rfl, rfl⟩
  have hlength : drawn.rest.length + 1 = drawn.size := rfl
  have hmax := drawn.abs_max_le
  have hcount := drawn.aboveCount_le
  obtain ⟨value, next, hnext, hne, hnear⟩ := exists_nextValue random probability drawn.max
    drawn.aboveCount source (by omega) (by omega)
  have hbound : |value| ≤ 9 * (drawn.size + 1) := by
    rw [abs_le] at hmax hnear ⊢
    omega
  rw [show drawn.rest.foldl max drawn.first = drawn.max from rfl, hnext]
  refine ⟨drawn.append value hne hbound, rfl, rfl, ?_⟩
  rw [drawn.aboveCount_append]
  push_cast
  rfl

/-- The `do` loop is left with arrays that have the percentage of values above. -/
theorem exists_drawn {probability : ℤ} {size fuel : ℕ} (hpos : 1 ≤ size)
    (hsize : 100 * size < 2 ^ 31) {source next : σ} {longs : List ℤ × List ℤ}
    (h : distributeLongRandomIncrement random size probability fuel source = .ok (longs, next)) :
    ∃ drawn : Drawn, drawn.size = size ∧ longs = (drawn.maxLongA, drawn.maxLongB) ∧
      ((drawn.aboveCount * 100 / size : ℕ) : ℤ) = probability := by
  obtain ⟨_, _, _, hlength, ⟨drawn, rfl, rfl, rfl⟩, hlongs, hpercent⟩ := exists_of_fillUntil
    (exists_fillOnce (isDrawn_nextLong random) (draws_nextValue random probability hsize) hpos) h
  have hdrawn : drawn.size = size := hlength
  have hcount := drawn.aboveCount_le
  rw [divInt_percent hpos hsize (by omega)] at hpercent
  refine ⟨drawn, hdrawn, ?_, Except.ok.inj hpercent⟩
  rw [hlongs, drawn.wrapLong_first_sub_one (by omega)]
  rfl

end Source

/-! ## The reductions confirm the percentage -/

/-- The arrays have the percentage of values above, and both reductions confirm it. -/
structure Percentages (size : ℕ) (probability : ℤ) (state : LoopState) : Prop where
  length_maxLongA : state.maxLongA.length = size
  length_maxLongB : state.maxLongB.length = size
  isGreatest : ∀ i, 1 ≤ i → i < size → ∃ max, state.maxLongB[i]? = some max ∧
    IsGreatest {value | value ∈ state.maxLongA.take i} max
  differs : ∀ pair ∈ state.maxLongA.zip state.maxLongB, pair.1 ≠ pair.2
  percent : (((state.maxLongA.zip state.maxLongB).countP (fun pair => pair.2 < pair.1) * 100 /
    size : ℕ) : ℤ) = probability
  reducesMax : ∃ result counts,
    reduceLong myMax state.maxLongA state.size = .ok (result, counts) ∧
    counts.equals = 0 ∧ counts.above + counts.below = size ∧
    longReductionSimpleMax state ⟨0, 0, probability, 0, 100 - probability⟩ = .ok result
  reducesMin : ∃ result counts,
    reduceLong myMin state.minLongA state.size = .ok (result, counts) ∧
    counts.equals = 0 ∧ counts.above + counts.below = size ∧
    longReductionSimpleMin state ⟨0, 0, 100 - probability, 0, probability⟩ = .ok result

section Reductions

variable {drawn : Drawn} {probability : ℤ} {state : LoopState}

theorem longReductionSimpleMax_eq_ok (hbound : 100 * drawn.size < 2 ^ 31)
    (hpercent : ((drawn.aboveCount * 100 / drawn.size : ℕ) : ℤ) = probability)
    (hsize : state.size = drawn.size) (hlongs : state.maxLongA = drawn.maxLongA) :
    longReductionSimpleMax state ⟨0, 0, probability, 0, 100 - probability⟩ =
      .ok (drawn.maxLongA.foldl max 0) := by
  have hvalidate : validateMax ⟨0, 0, probability, 0, 100 - probability⟩ drawn.maxCounts
      drawn.size = .ok () :=
    validateMax_eq_ok drawn.size_pos hbound drawn.aboveCount_le hpercent rfl rfl
  rw [longReductionSimpleMax, hlongs, hsize, drawn.reduceLong_myMax (by omega),
    ok_bind, hvalidate, ok_bind]

theorem longReductionSimpleMin_eq_ok (hbound : 100 * drawn.size < 2 ^ 31)
    (hpercent : ((drawn.aboveCount * 100 / drawn.size : ℕ) : ℤ) = probability)
    (hsize : state.size = drawn.size) (hlongs : state.minLongA = negate drawn.maxLongA) :
    longReductionSimpleMin state ⟨0, 0, 100 - probability, 0, probability⟩ =
      .ok (-drawn.maxLongA.foldl max 0) := by
  have hvalidate : validateMin ⟨0, 0, 100 - probability, 0, probability⟩ drawn.minCounts
      drawn.size = .ok () :=
    validateMin_eq_ok drawn.size_pos hbound drawn.aboveCount_le hpercent rfl rfl
  rw [longReductionSimpleMin, hlongs, hsize, drawn.reduceLong_myMin (by omega),
    ok_bind, hvalidate, ok_bind]

end Reductions

/-- Whatever the random numbers are, a `setup` that returns meets the percentage. -/
theorem setup_percentages {σ : Type} (random : RandomSource σ) {size fuel : ℕ} {probability : ℤ}
    {source next : σ} {state : LoopState} (hpos : 1 ≤ size) (hsize : 100 * size < 2 ^ 31)
    (hsetup : setup random size probability fuel source = .ok (state, next)) :
    Percentages size probability state := by
  obtain ⟨longs, hlongs, hstate⟩ := bind_eq_ok.mp hsetup
  obtain ⟨drawn, hdrawn, harrays, hpercent⟩ := exists_drawn random hpos hsize hlongs
  cases hstate
  rw [← hdrawn] at hpos hsize hpercent ⊢
  rw [harrays]
  have hcount := drawn.aboveCount_le
  have hmax := drawn.reduceLong_myMax (by omega)
  have hmin := drawn.reduceLong_myMin (by omega)
  constructor
  · exact drawn.length_maxLongA
  · exact drawn.length_maxLongB
  · exact fun i => drawn.maxLongB_isGreatest
  · exact fun pair => drawn.ne_of_mem_zip
  · rw [← drawn.aboveCount_eq_countP]
    exact hpercent
  · exact ⟨_, _, hmax, rfl, add_sub_cancel _ _,
      longReductionSimpleMax_eq_ok hsize hpercent rfl rfl⟩
  · exact ⟨_, _, hmin, rfl, sub_add_cancel _ _,
      longReductionSimpleMin_eq_ok hsize hpercent rfl rfl⟩

/-- A source that counts its draws. -/
def counting : RandomSource ℤ where
  nextLong origin bound source := (origin + source % (bound - origin), source + 1)
  inRange := by
    intro origin bound source hrange
    have hlow := Int.emod_nonneg source (sub_pos.mpr hrange).ne'
    have hhigh := Int.emod_lt_of_pos source (sub_pos.mpr hrange)
    dsimp only
    omega

theorem setup_counting : setup counting (4 : ℕ) 50 2 41 =
    .ok (⟨4, 50, [4, 10, 2, 9], [3, 4, 10, 10], [-4, -10, -2, -9], [-3, -4, -10, -10]⟩, 55) := rfl

/-- Two rounds of draws lead to four values of which two are above. -/
theorem setup_percentages_counting : Percentages 4 50
    ⟨4, 50, [4, 10, 2, 9], [3, 4, 10, 10], [-4, -10, -2, -9], [-3, -4, -10, -10]⟩ :=
  setup_percentages counting (by decide) (by decide) setup_counting

end Colata.BranchProbability
