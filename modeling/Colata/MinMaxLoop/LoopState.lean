/-
# Arrays for the loops

`LoopState.setup` draws two `long` arrays until the percentage of values in the first that
reach the maximum before them is the given one; the second keeps these maxima. The arrays
for minima are negated, those of `int`s narrowed. Eight benchmarks take extrema of the
arrays, pairwise or of one array.
-/

import Colata.BranchProbability.Generator

namespace Colata.MinMaxLoop

open Colata.Java Colata.Math
open Colata.BranchProbability (Failure RandomSource Distribution newLongs read store divInt
  fillOnce fillUntil Draws exists_fillOnce exists_of_fillUntil divInt_percent)

/-! ## Drawing the arrays -/

section Source

variable {σ : Type} (random : RandomSource σ)

/-- The choice of the next value. An increment may be zero, a decrement not. -/
def nextValue (probability max aboveCount : ℤ) (source : σ) : ℤ × ℤ × σ :=
  let percent := random.nextLong 0 101 source
  if percent.1 ≤ probability then
    let increment := random.nextLong 0 10 percent.2
    (wrapLong (max + increment.1), wrapInt (aboveCount + 1), increment.2)
  else
    let decrement := random.nextLong 0 10 percent.2
    (wrapLong (max - wrapLong (decrement.1 + 1)), aboveCount, decrement.2)

/-- The body of the `do` loop. The first value does not count. -/
def distributeOnce (size probability : ℤ) : σ → Except Failure (Distribution × σ) :=
  fillOnce (random.nextLong 0 10) 0 (nextValue random probability) size

def distributeLongRandomIncrement (size probability : ℤ) :
    ℕ → σ → Except Failure ((List ℤ × List ℤ) × σ) :=
  fillUntil (distributeOnce random size probability)
    (fun aboveCount => divInt (wrapInt (wrapInt (aboveCount + 1) * 100)) size) probability

end Source

structure LoopState where
  size : ℤ
  probability : ℤ
  minIntA : List ℤ
  minIntB : List ℤ
  minLongA : List ℤ
  minLongB : List ℤ
  maxIntA : List ℤ
  maxIntB : List ℤ
  maxLongA : List ℤ
  maxLongB : List ℤ
  resultIntArray : List ℤ
  resultLongArray : List ℤ

def negate (nums : List ℤ) : List ℤ := nums.map fun l => wrapLong (-l)

def toInts (nums : List ℤ) : List ℤ := nums.map wrapInt

/-- `setup`, without what it prints. -/
def LoopState.setup {σ : Type} (random : RandomSource σ) (size probability : ℤ) (fuel : ℕ)
    (source : σ) : Except Failure (LoopState × σ) := do
  let longs ← distributeLongRandomIncrement random size probability fuel source
  let minLongA := negate longs.1.1
  let minLongB := negate longs.1.2
  let resultIntArray ← newLongs size
  let resultLongArray ← newLongs size
  .ok (⟨size, probability, toInts minLongA, toInts minLongB, minLongA, minLongB,
    toInts longs.1.1, toInts longs.1.2, longs.1.1, longs.1.2, resultIntArray, resultLongArray⟩,
    longs.2)

/-! ## The benchmarks -/

/-- The loop over two arrays, which stores into a third one. -/
def loop (op : ℤ → ℤ → ℤ) (a b result : List ℤ) (size : ℤ) : Except Failure (List ℤ) :=
  (List.range size.toNat).foldlM (fun result i => do
    let x ← read a i
    let y ← read b i
    store result i (op x y)) result

/-- The loop over one array; `wrap` narrows the product to the type of the array. -/
def reduction (op : ℤ → ℤ → ℤ) (wrap : ℤ → ℤ) (array : List ℤ) (size : ℤ) : Except Failure ℤ :=
  (List.range size.toNat).foldlM (fun result i => do
    let x ← read array i
    .ok (op result (wrap (11 * x)))) 0

section Benchmarks

variable (state : LoopState)

def intLoopMin : Except Failure (List ℤ) :=
  loop min state.minIntA state.minIntB state.resultIntArray state.size

def intLoopMax : Except Failure (List ℤ) :=
  loop max state.maxIntA state.maxIntB state.resultIntArray state.size

def longLoopMin : Except Failure (List ℤ) :=
  loop min state.minLongA state.minLongB state.resultLongArray state.size

def longLoopMax : Except Failure (List ℤ) :=
  loop max state.maxLongA state.maxLongB state.resultLongArray state.size

def intReductionMin : Except Failure ℤ := reduction min wrapInt state.minIntA state.size

def intReductionMax : Except Failure ℤ := reduction max wrapInt state.maxIntA state.size

def longReductionMin : Except Failure ℤ := reduction min wrapLong state.minLongA state.size

def longReductionMax : Except Failure ℤ := reduction max wrapLong state.maxLongA state.size

end Benchmarks

/-! ## What can be drawn -/

/-- A sequence of values that the generator can draw. -/
structure Drawn where
  first : ℤ
  rest : List ℤ
  first_nonneg : 0 ≤ first
  bounded : ∀ value ∈ first :: rest, -10 ≤ value ∧ value ≤ 9 * (rest.length + 1)

namespace Drawn

def size (drawn : Drawn) : ℕ := drawn.rest.length + 1

def max (drawn : Drawn) : ℤ := drawn.rest.foldl Max.max drawn.first

def maxLongA (drawn : Drawn) : List ℤ := drawn.first :: drawn.rest

def maxLongB (drawn : Drawn) : List ℤ := (drawn.first - 1) :: running drawn.first drawn.rest

/-- How many values after the first reach the maximum before them. -/
def aboveCount (drawn : Drawn) : ℕ :=
  (drawn.rest.zip (running drawn.first drawn.rest)).countP fun pair => pair.2 ≤ pair.1

variable (drawn : Drawn)

theorem size_pos : 0 < drawn.size := Nat.succ_pos _

theorem length_maxLongA : drawn.maxLongA.length = drawn.size := rfl

theorem length_maxLongB : drawn.maxLongB.length = drawn.size :=
  congrArg Nat.succ (length_running _ _)

theorem aboveCount_lt : drawn.aboveCount < drawn.size := by
  have hcount := List.countP_le_length (p := fun pair : ℤ × ℤ => decide (pair.2 ≤ pair.1))
    (l := drawn.rest.zip (running drawn.first drawn.rest))
  rw [List.length_zip, length_running, min_self] at hcount
  exact Nat.lt_succ_of_le hcount

theorem max_mem : drawn.max ∈ drawn.maxLongA := (isGreatest_foldl_max drawn.first drawn.rest).1

theorem max_nonneg : 0 ≤ drawn.max :=
  drawn.first_nonneg.trans ((isGreatest_foldl_max drawn.first drawn.rest).2 List.mem_cons_self)

theorem max_le : drawn.max ≤ 9 * drawn.size := (drawn.bounded _ drawn.max_mem).2

theorem wrapLong_first_sub_one (hsize : drawn.size < 2 ^ 31) :
    wrapLong (drawn.first - 1) = drawn.first - 1 := by
  have hnonneg := drawn.first_nonneg
  have hbound := drawn.bounded _ List.mem_cons_self
  rw [size] at hsize
  exact wrapLong_of_bounds (by omega) (by omega)

/-- The first value. -/
def singleton (value : ℤ) (hvalue : 0 ≤ value ∧ value < 10) : Drawn where
  first := value
  rest := []
  first_nonneg := hvalue.1
  bounded := by
    intro other hother
    rw [List.mem_singleton.mp hother, List.length_nil, Nat.cast_zero]
    omega

/-- One more value. -/
def append (value : ℤ) (hbound : -10 ≤ value ∧ value ≤ 9 * (drawn.size + 1)) : Drawn where
  first := drawn.first
  rest := drawn.rest ++ [value]
  first_nonneg := drawn.first_nonneg
  bounded := by
    intro other hother
    rw [List.length_append, List.length_singleton]
    rw [← List.cons_append, List.mem_append, List.mem_singleton] at hother
    cases hother with
    | inl hold =>
        have hle := drawn.bounded other hold
        push_cast
        omega
    | inr heq =>
        rw [heq]
        exact hbound

section Append

variable (value : ℤ) (hbound : -10 ≤ value ∧ value ≤ 9 * (drawn.size + 1))

theorem size_append : (drawn.append value hbound).size = drawn.size + 1 :=
  congrArg Nat.succ List.length_append

theorem max_append : (drawn.append value hbound).max = Max.max drawn.max value :=
  List.foldl_append

theorem maxLongB_append : (drawn.append value hbound).maxLongB = drawn.maxLongB ++ [drawn.max] :=
  congrArg ((drawn.first - 1) :: ·) (running_append _ _ _)

theorem aboveCount_append : (drawn.append value hbound).aboveCount =
    drawn.aboveCount + if drawn.max ≤ value then 1 else 0 := by
  have hlength : drawn.rest.length = (running drawn.first drawn.rest).length := by simp
  simp only [aboveCount, append, running_append, List.zip_append hlength, List.countP_append]
  simp only [List.zip_cons_cons, List.zip_nil_left, List.countP_cons, List.countP_nil, Nat.zero_add,
    decide_eq_true_eq]
  rfl

end Append

/-! ### The second array -/

/-- The second array holds the maximum of the values before each index. -/
theorem maxLongB_isGreatest {i : ℕ} (hpos : 1 ≤ i) (hi : i < drawn.size) :
    ∃ max, drawn.maxLongB[i]? = some max ∧
      IsGreatest {value | value ∈ drawn.maxLongA.take i} max := by
  obtain ⟨j, rfl⟩ := Nat.exists_eq_add_of_le' hpos
  exact ⟨_, getElem?_running _ _ (Nat.lt_of_succ_lt_succ hi), isGreatest_foldl_max _ _⟩

theorem countP_zip : (drawn.maxLongA.zip drawn.maxLongB).countP (fun pair => pair.2 ≤ pair.1) =
    drawn.aboveCount + 1 := by
  rw [maxLongA, maxLongB, List.zip_cons_cons, List.countP_cons_of_pos, aboveCount]
  exact decide_eq_true (sub_one_lt drawn.first).le

theorem bounded_maxLongB : ∀ value ∈ drawn.maxLongB, -10 ≤ value ∧ value ≤ 9 * drawn.size := by
  intro value hvalue
  rcases List.mem_cons.mp hvalue with rfl | hvalue
  · have hfirst := drawn.bounded drawn.first List.mem_cons_self
    have hnonneg := drawn.first_nonneg
    rw [size]
    push_cast
    omega
  · obtain ⟨i, hi, rfl⟩ := List.mem_iff_getElem.mp hvalue
    rw [length_running] at hi
    have hread := getElem?_running drawn.first drawn.rest hi
    rw [List.getElem?_eq_getElem (by rwa [length_running]), Option.some_inj] at hread
    rw [hread]
    apply drawn.bounded
    have hmem := (isGreatest_foldl_max drawn.first (drawn.rest.take i)).1
    rcases List.mem_cons.mp hmem with heq | hmem
    · rw [heq]
      exact List.mem_cons_self
    · exact List.mem_cons_of_mem _ (List.mem_of_mem_take hmem)

end Drawn

/-! ## The generator draws such arrays -/

/-- The values have been drawn, and so many of them reach the maximum before them. -/
def IsDrawn (first : ℤ) (rest : List ℤ) (count : ℤ) : Prop :=
  ∃ drawn : Drawn, drawn.first = first ∧ drawn.rest = rest ∧ drawn.aboveCount = count

section Source

variable {σ : Type} (random : RandomSource σ)

/-- The next value is near the maximum, and it is counted if it reaches it. -/
theorem exists_nextValue (probability max aboveCount : ℤ) (source : σ)
    (hmax : 0 ≤ max ∧ max < 2 ^ 62) (hcount : 0 ≤ aboveCount ∧ aboveCount + 1 < 2 ^ 31) :
    ∃ value next, nextValue random probability max aboveCount source =
        (value, aboveCount + (if max ≤ value then 1 else 0), next) ∧
      max - 10 ≤ value ∧ value ≤ max + 9 := by
  have hrange := random.inRange 0 10 (random.nextLong 0 101 source).2 (by decide)
  unfold nextValue
  dsimp only
  generalize random.nextLong 0 10 (random.nextLong 0 101 source).2 = draw at hrange
  split_ifs with hdraw
  · refine ⟨max + draw.1, draw.2, ?_, by omega, by omega⟩
    rw [wrapLong_of_bounds (by omega) (by omega), wrapInt_of_bounds (by omega) (by omega),
      if_pos (by omega)]
  · refine ⟨max - (draw.1 + 1), draw.2, ?_, by omega, by omega⟩
    have hdecrement : wrapLong (draw.1 + 1) = draw.1 + 1 :=
      wrapLong_of_bounds (by omega) (by omega)
    rw [hdecrement, wrapLong_of_bounds (by omega) (by omega), if_neg (by omega), add_zero]

theorem isDrawn_nextLong (source : σ) : IsDrawn (random.nextLong 0 10 source).1 [] 0 :=
  ⟨.singleton _ (random.inRange 0 10 source (by decide)), rfl, rfl, rfl⟩

theorem draws_nextValue (probability : ℤ) {size : ℕ} (hsize : 100 * size < 2 ^ 31) :
    Draws (nextValue random probability) IsDrawn size := by
  rintro _ _ _ source hlt ⟨drawn, rfl, rfl, rfl⟩
  have hlength : drawn.rest.length + 1 = drawn.size := rfl
  have hnonneg := drawn.max_nonneg
  have hmax := drawn.max_le
  have hcount := drawn.aboveCount_lt
  obtain ⟨value, next, hnext, hlow, hhigh⟩ := exists_nextValue random probability drawn.max
    drawn.aboveCount source (by omega) (by omega)
  have hbound : -10 ≤ value ∧ value ≤ 9 * (drawn.size + 1) := by omega
  rw [show drawn.rest.foldl max drawn.first = drawn.max from rfl, hnext]
  refine ⟨drawn.append value hbound, rfl, rfl, ?_⟩
  rw [drawn.aboveCount_append]
  push_cast
  rfl

/-- The `do` loop is left with arrays that have the percentage of values that reach the
maximum before them. -/
theorem exists_drawn {probability : ℤ} {size fuel : ℕ} (hpos : 1 ≤ size)
    (hsize : 100 * size < 2 ^ 31) {source next : σ} {longs : List ℤ × List ℤ}
    (h : distributeLongRandomIncrement random size probability fuel source = .ok (longs, next)) :
    ∃ drawn : Drawn, drawn.size = size ∧ longs = (drawn.maxLongA, drawn.maxLongB) ∧
      (((drawn.aboveCount + 1) * 100 / size : ℕ) : ℤ) = probability := by
  obtain ⟨_, _, _, hlength, ⟨drawn, rfl, rfl, rfl⟩, hlongs, hpercent⟩ := exists_of_fillUntil
    (exists_fillOnce (isDrawn_nextLong random) (draws_nextValue random probability hsize) hpos) h
  have hdrawn : drawn.size = size := hlength
  have hcount := drawn.aboveCount_lt
  have hone : wrapInt (drawn.aboveCount + 1) = ((drawn.aboveCount + 1 : ℕ) : ℤ) := by
    rw [wrapInt_of_bounds (by omega) (by omega), Nat.cast_succ]
  rw [hone, divInt_percent hpos hsize (by omega)] at hpercent
  refine ⟨drawn, hdrawn, ?_, Except.ok.inj hpercent⟩
  rw [hlongs, drawn.wrapLong_first_sub_one (by omega)]
  rfl

end Source

end Colata.MinMaxLoop
