/-
# The reductions of doubles

The double reductions make two more comparisons, for NaN and for a negative zero, and count
them apart. With them each step keeps the maximum or the minimum in the order of doubles. On
converted integers neither case comes up, so that such arrays are reduced as the integers are.
-/

import Colata.BranchProbability.Generator
import Colata.Math.Binary64Order

namespace Colata.BranchProbability

open Colata.Java Colata.Math

/-- `(double) l` for each number. -/
def toDoubles (nums : List ℤ) : List Binary64 := nums.map Binary64.ofInt

def LoopState.maxDoubleA (state : LoopState) : List Binary64 := toDoubles state.maxLongA

def LoopState.minDoubleA (state : LoopState) : List Binary64 := toDoubles state.minLongA

/-- `myMax` on doubles. -/
def myMaxDouble (a b : Binary64) (counts : Counts) : Binary64 × Counts :=
  if a.eq a = false then (a, { counts with notANumber := wrapInt (counts.notANumber + 1) })
  else if a.eq .zero ∧ b.eq .zero ∧ a = .negativeZero then
    (b, { counts with zeroZero := wrapInt (counts.zeroZero + 1) })
  else if b.lt a then (a, { counts with above := wrapInt (counts.above + 1) })
  else if a.eq b then (a, { counts with equals := wrapInt (counts.equals + 1) })
  else (b, { counts with below := wrapInt (counts.below + 1) })

/-- `myMin` on doubles. -/
def myMinDouble (a b : Binary64) (counts : Counts) : Binary64 × Counts :=
  if a.eq a = false then (a, { counts with notANumber := wrapInt (counts.notANumber + 1) })
  else if a.eq .zero ∧ b.eq .zero ∧ b = .negativeZero then
    (b, { counts with zeroZero := wrapInt (counts.zeroZero + 1) })
  else if a.lt b then (a, { counts with below := wrapInt (counts.below + 1) })
  else if a.eq b then (a, { counts with equals := wrapInt (counts.equals + 1) })
  else (b, { counts with above := wrapInt (counts.above + 1) })

/-- The loop of both reductions. -/
def reduceDouble (step : Binary64 → Binary64 → Counts → Binary64 × Counts)
    (array : List Binary64) (size : ℤ) : Except Failure (Binary64 × Counts) :=
  (List.range size.toNat).foldlM (fun state i => do
    let v ← read array i
    .ok (step v state.1 state.2)) (.zero, Counts.zero)

def doubleReductionSimpleMax (state : LoopState) (expects : Expects) :
    Except Failure Binary64 := do
  let reduced ← reduceDouble myMaxDouble state.maxDoubleA state.size
  validateMax expects reduced.2 state.size
  .ok reduced.1

def doubleReductionSimpleMin (state : LoopState) (expects : Expects) :
    Except Failure Binary64 := do
  let reduced ← reduceDouble myMinDouble state.minDoubleA state.size
  validateMin expects reduced.2 state.size
  .ok reduced.1

theorem reduceDouble_eq (step : Binary64 → Binary64 → Counts → Binary64 × Counts)
    (array : List Binary64) :
    reduceDouble step array array.length =
      .ok (array.foldl (fun state v => step v state.1 state.2) (.zero, Counts.zero)) := by
  rw [reduceDouble, Int.toNat_natCast]
  exact foldlM_range_read (fun _ => read_eq_ok) (fun state v => step v state.1 state.2) _

/-! ## Any doubles -/

/-- The branches that were taken so far: those of NaN, and those of numbers. -/
structure Counts.Covers (counts : Counts) (nans numbers : ℕ) : Prop where
  notANumber : counts.notANumber = nans
  zeroZero : 0 ≤ counts.zeroZero
  above : 0 ≤ counts.above
  equals : 0 ≤ counts.equals
  below : 0 ≤ counts.below
  sum : counts.zeroZero + counts.above + counts.equals + counts.below = numbers

section Steps

variable {a b : Binary64} {counts : Counts}

/-- Values that are equal and not counted as zeros are the same, unless the second is a
negative zero. -/
theorem ne_negativeZero_of_equal {x y : Binary64} (hequal : x.eq y = true)
    (hzero : ¬(x.eq .zero = true ∧ y.eq .zero = true ∧ x = .negativeZero)) :
    x ≠ .negativeZero := by
  rintro rfl
  obtain ⟨hx, hy, hvalue⟩ := Binary64.eq_iff.mp hequal
  exact hzero ⟨rfl, Binary64.eq_zero_iff.mpr ⟨hy, hvalue.symm⟩, rfl⟩

/-- With the branches for NaN and the negative zero the step is the maximum of doubles. -/
theorem myMaxDouble_fst : (myMaxDouble a b counts).1 = b.max a := by
  rw [myMaxDouble]
  split_ifs with hnan hzero habove hequal
  · rw [Binary64.eq_self_eq_false_iff.mp hnan, Binary64.max, if_pos (Or.inr rfl)]
  · obtain ⟨ha, hb, rfl⟩ := hzero
    rw [Binary64.eq_zero_iff] at ha hb
    exact (Binary64.max_eq_left hb.1 ha.1 (Binary64.rank_negativeZero_le hb.2)).symm
  · obtain ⟨hb, ha, hvalue⟩ := Binary64.lt_iff.mp habove
    exact (Binary64.max_eq_right hb ha (Binary64.rank_le_of_value_lt hvalue)).symm
  · obtain ⟨ha, hb, hvalue⟩ := Binary64.eq_iff.mp hequal
    have hne := ne_negativeZero_of_equal hequal hzero
    exact (Binary64.max_eq_right hb ha (Binary64.rank_le_of_value_eq ha hvalue hne)).symm
  · rw [Binary64.eq_self_eq_false_iff] at hnan
    by_cases hb : b = .nan
    · rw [hb, Binary64.max, if_pos (Or.inl rfl)]
    · have hvalue := Binary64.value_lt_of_not hnan hb habove hequal
      exact (Binary64.max_eq_left hb hnan (Binary64.rank_le_of_value_lt hvalue)).symm

theorem myMinDouble_fst : (myMinDouble a b counts).1 = b.min a := by
  rw [myMinDouble]
  split_ifs with hnan hzero hbelow hequal
  · rw [Binary64.eq_self_eq_false_iff.mp hnan, Binary64.min, if_pos (Or.inr rfl)]
  · obtain ⟨ha, hb, rfl⟩ := hzero
    rw [Binary64.eq_zero_iff] at ha hb
    exact (Binary64.min_eq_left hb.1 ha.1 (Binary64.rank_negativeZero_le ha.2)).symm
  · obtain ⟨ha, hb, hvalue⟩ := Binary64.lt_iff.mp hbelow
    exact (Binary64.min_eq_right hb ha (Binary64.rank_le_of_value_lt hvalue)).symm
  · obtain ⟨ha, hb, hvalue⟩ := Binary64.eq_iff.mp hequal
    rw [Binary64.eq_comm] at hequal
    have hne := ne_negativeZero_of_equal hequal (fun h => hzero ⟨h.2.1, h.1, h.2.2⟩)
    exact (Binary64.min_eq_right hb ha (Binary64.rank_le_of_value_eq hb hvalue.symm hne)).symm
  · rw [Binary64.eq_self_eq_false_iff] at hnan
    by_cases hb : b = .nan
    · rw [hb, Binary64.min, if_pos (Or.inl rfl)]
    · rw [Binary64.eq_comm] at hequal
      have hvalue := Binary64.value_lt_of_not hb hnan hbelow hequal
      exact (Binary64.min_eq_left hb hnan (Binary64.rank_le_of_value_lt hvalue)).symm

/-- Each step takes one branch, that of NaN for NaN only. -/
theorem covers_myMaxDouble {nans numbers : ℕ} (h : counts.Covers nans numbers)
    (hbound : nans + numbers + 1 < 2 ^ 31) :
    (myMaxDouble a b counts).2.Covers (nans + if a = .nan then 1 else 0)
      (numbers + if a = .nan then 0 else 1) := by
  obtain ⟨hnans, hzeros, habove, hequals, hbelow, hsum⟩ := h
  rw [myMaxDouble]
  by_cases hnan : a = .nan
  · rw [if_pos (Binary64.eq_self_eq_false_iff.mpr hnan), if_pos hnan, if_pos hnan]
    constructor <;> dsimp only
    · rw [wrapInt_of_bounds (by omega) (by omega)]
      omega
    all_goals omega
  · rw [if_neg (mt Binary64.eq_self_eq_false_iff.mp hnan), if_neg hnan, if_neg hnan]
    split_ifs <;> constructor <;> dsimp only <;>
      first | omega | rw [wrapInt_of_bounds (by omega) (by omega)]; omega

theorem covers_myMinDouble {nans numbers : ℕ} (h : counts.Covers nans numbers)
    (hbound : nans + numbers + 1 < 2 ^ 31) :
    (myMinDouble a b counts).2.Covers (nans + if a = .nan then 1 else 0)
      (numbers + if a = .nan then 0 else 1) := by
  obtain ⟨hnans, hzeros, habove, hequals, hbelow, hsum⟩ := h
  rw [myMinDouble]
  by_cases hnan : a = .nan
  · rw [if_pos (Binary64.eq_self_eq_false_iff.mpr hnan), if_pos hnan, if_pos hnan]
    constructor <;> dsimp only
    · rw [wrapInt_of_bounds (by omega) (by omega)]
      omega
    all_goals omega
  · rw [if_neg (mt Binary64.eq_self_eq_false_iff.mp hnan), if_neg hnan, if_neg hnan]
    split_ifs <;> constructor <;> dsimp only <;>
      first | omega | rw [wrapInt_of_bounds (by omega) (by omega)]; omega

end Steps

/-- A step that takes a value in with the operation and counts it once. -/
structure IsStep (op : Binary64 → Binary64 → Binary64)
    (step : Binary64 → Binary64 → Counts → Binary64 × Counts) : Prop where
  fst : ∀ a b counts, (step a b counts).1 = op b a
  covers : ∀ a b counts nans numbers, counts.Covers nans numbers → nans + numbers + 1 < 2 ^ 31 →
    (step a b counts).2.Covers (nans + if a = .nan then 1 else 0)
      (numbers + if a = .nan then 0 else 1)

theorem isStep_myMaxDouble : IsStep Binary64.max myMaxDouble where
  fst _ _ _ := myMaxDouble_fst
  covers _ _ _ _ _ := covers_myMaxDouble

theorem isStep_myMinDouble : IsStep Binary64.min myMinDouble where
  fst _ _ _ := myMinDouble_fst
  covers _ _ _ _ _ := covers_myMinDouble

section Runs

variable {op : Binary64 → Binary64 → Binary64}
  {step : Binary64 → Binary64 → Counts → Binary64 × Counts}

theorem IsStep.foldl_fst (hstep : IsStep op step) (array : List Binary64)
    (state : Binary64 × Counts) :
    (array.foldl (fun state v => step v state.1 state.2) state).1 = array.foldl op state.1 := by
  induction array generalizing state with
  | nil => rfl
  | cons v array ih => rw [List.foldl_cons, List.foldl_cons, ih, hstep.fst]

/-- As many comparisons are counted as the array has values. -/
theorem IsStep.covers_foldl (hstep : IsStep op step) {array : List Binary64}
    {state : Binary64 × Counts} {nans numbers : ℕ} (h : state.2.Covers nans numbers)
    (hbound : nans + numbers + array.length < 2 ^ 31) :
    (array.foldl (fun state v => step v state.1 state.2) state).2.Covers
      (nans + array.countP (· = .nan)) (numbers + array.countP (· ≠ .nan)) := by
  induction array generalizing state nans numbers with
  | nil => exact h
  | cons v array ih =>
      rw [List.length_cons] at hbound
      have hnext := hstep.covers v state.1 _ _ _ h (by omega)
      by_cases hnan : v = .nan
      · rw [if_pos hnan, if_pos hnan] at hnext
        rw [List.foldl_cons, List.countP_cons_of_pos (by simpa using hnan),
          List.countP_cons_of_neg (by simpa using hnan), Nat.add_comm _ 1, ← Nat.add_assoc]
        exact ih hnext (by omega)
      · rw [if_neg hnan, if_neg hnan] at hnext
        rw [List.foldl_cons, List.countP_cons_of_neg (by simpa using hnan),
          List.countP_cons_of_pos (by simpa using hnan), Nat.add_comm _ 1, ← Nat.add_assoc]
        exact ih hnext (by omega)

end Runs

/-- What is known of a reduction of doubles that has returned. -/
structure Reduced (Extremum : List Binary64 → Binary64 → Prop) (array : List Binary64)
    (result : Binary64) (counts : Counts) : Prop where
  extremum : Extremum (.zero :: array) result
  covers : counts.Covers (array.countP (· = .nan)) (array.countP (· ≠ .nan))

/-- Whatever the doubles are, the reductions find the extrema of zero and the values in the
order of doubles, and they count each comparison once. -/
theorem reduceDouble_extrema (array : List Binary64) (hsize : array.length < 2 ^ 31) :
    (∃ result counts, reduceDouble myMaxDouble array array.length = .ok (result, counts) ∧
      Reduced Binary64.IsMaximum array result counts) ∧
    (∃ result counts, reduceDouble myMinDouble array array.length = .ok (result, counts) ∧
      Reduced Binary64.IsMinimum array result counts) := by
  have hcovers {op step} (hstep : IsStep op step) :
      (array.foldl (fun state v => step v state.1 state.2) (.zero, Counts.zero)).2.Covers
        (array.countP (· = .nan)) (array.countP (· ≠ .nan)) := by
    have hstart : Counts.zero.Covers 0 0 := by constructor <;> decide
    have hbound : 0 + 0 + array.length < 2 ^ 31 := by omega
    have hfinal := hstep.covers_foldl (show (Binary64.zero, Counts.zero).2.Covers 0 0 from hstart)
      hbound
    rwa [Nat.zero_add, Nat.zero_add] at hfinal
  constructor
  · refine ⟨_, _, reduceDouble_eq _ _, ?_, hcovers isStep_myMaxDouble⟩
    rw [isStep_myMaxDouble.foldl_fst]
    exact Binary64.isMaximum_foldl array .zero
  · refine ⟨_, _, reduceDouble_eq _ _, ?_, hcovers isStep_myMinDouble⟩
    rw [isStep_myMinDouble.foldl_fst]
    exact Binary64.isMinimum_foldl array .zero

/-- Of a negative zero, NaN and minus three, both reductions return NaN. -/
theorem reduceDouble_extrema_three :
    ∃ result counts, reduceDouble myMaxDouble [.negativeZero, .nan, .ofInt (-3)] (3 : ℕ) =
      .ok (result, counts) ∧
      Reduced Binary64.IsMaximum [.negativeZero, .nan, .ofInt (-3)] result counts :=
  (reduceDouble_extrema [.negativeZero, .nan, .ofInt (-3)] (by decide)).1

/-! ## Converted integers -/

/-- Integers that convert to doubles without rounding. -/
def IsExact (value : ℤ) : Prop := value.natAbs ≤ 2 ^ 53

section Converted

variable {a b : ℤ} {counts : Counts}

theorem myMaxDouble_ofInt (ha : IsExact a) (hb : IsExact b) :
    myMaxDouble (.ofInt a) (.ofInt b) counts =
      (.ofInt (myMax a b counts).1, (myMax a b counts).2) := by
  rw [myMaxDouble, myMax, Binary64.eq_ofInt ha ha, Binary64.eq_ofInt ha hb,
    Binary64.lt_ofInt hb ha, if_neg (by simp),
    if_neg (fun h => Binary64.ofInt_ne_negativeZero ha h.2.2)]
  by_cases habove : b < a
  · rw [if_pos habove, if_pos (decide_eq_true habove)]
  · rw [if_neg habove, if_neg (mt of_decide_eq_true habove)]
    by_cases hequal : a = b
    · rw [if_pos hequal, if_pos (decide_eq_true hequal)]
    · rw [if_neg hequal, if_neg (mt of_decide_eq_true hequal)]

theorem myMinDouble_ofInt (ha : IsExact a) (hb : IsExact b) :
    myMinDouble (.ofInt a) (.ofInt b) counts =
      (.ofInt (myMin a b counts).1, (myMin a b counts).2) := by
  rw [myMinDouble, myMin, Binary64.eq_ofInt ha ha, Binary64.eq_ofInt ha hb,
    Binary64.lt_ofInt ha hb, if_neg (by simp),
    if_neg (fun h => Binary64.ofInt_ne_negativeZero hb h.2.2)]
  by_cases hbelow : a < b
  · rw [if_pos hbelow, if_pos (decide_eq_true hbelow)]
  · rw [if_neg hbelow, if_neg (mt of_decide_eq_true hbelow)]
    by_cases hequal : a = b
    · rw [if_pos hequal, if_pos (decide_eq_true hequal)]
    · rw [if_neg hequal, if_neg (mt of_decide_eq_true hequal)]

theorem isExact_myMax (ha : IsExact a) (hb : IsExact b) : IsExact (myMax a b counts).1 := by
  rw [myMax]
  split_ifs
  · exact ha
  · exact ha
  · exact hb

theorem isExact_myMin (ha : IsExact a) (hb : IsExact b) : IsExact (myMin a b counts).1 := by
  rw [myMin]
  split_ifs
  · exact ha
  · exact ha
  · exact hb

end Converted

/-- A step on doubles that does on exact integers what the step on integers does. -/
structure Simulates (stepDouble : Binary64 → Binary64 → Counts → Binary64 × Counts)
    (step : ℤ → ℤ → Counts → ℤ × Counts) : Prop where
  isExact : ∀ {a b} counts, IsExact a → IsExact b → IsExact (step a b counts).1
  step : ∀ {a b} counts, IsExact a → IsExact b →
    stepDouble (.ofInt a) (.ofInt b) counts = (.ofInt (step a b counts).1, (step a b counts).2)

theorem simulates_myMax : Simulates myMaxDouble myMax where
  isExact _ := isExact_myMax
  step _ := myMaxDouble_ofInt

theorem simulates_myMin : Simulates myMinDouble myMin where
  isExact _ := isExact_myMin
  step _ := myMinDouble_ofInt

section Simulation

variable {stepDouble : Binary64 → Binary64 → Counts → Binary64 × Counts}
  {step : ℤ → ℤ → Counts → ℤ × Counts}

theorem Simulates.foldl_toDoubles (hstep : Simulates stepDouble step) {nums : List ℤ}
    (hnums : ∀ v ∈ nums, IsExact v) {start : ℤ} (hstart : IsExact start) (counts : Counts) :
    (toDoubles nums).foldl (fun state v => stepDouble v state.1 state.2) (.ofInt start, counts) =
      (.ofInt (nums.foldl (fun state v => step v state.1 state.2) (start, counts)).1,
        (nums.foldl (fun state v => step v state.1 state.2) (start, counts)).2) := by
  induction nums generalizing start counts with
  | nil => rfl
  | cons v nums ih =>
      have hv := hnums v List.mem_cons_self
      have hrest : ∀ v ∈ nums, IsExact v := fun v hv => hnums v (List.mem_cons_of_mem _ hv)
      rw [toDoubles, List.map_cons, List.foldl_cons, List.foldl_cons, hstep.step _ hv hstart]
      exact ih hrest (hstep.isExact _ hv hstart) _

theorem Simulates.reduceDouble_eq (hstep : Simulates stepDouble step) {nums : List ℤ}
    (hnums : ∀ v ∈ nums, IsExact v) :
    reduceDouble stepDouble (toDoubles nums) nums.length =
      (reduceLong step nums nums.length).map fun reduced => (.ofInt reduced.1, reduced.2) := by
  have hlength : (toDoubles nums).length = nums.length := List.length_map ..
  have hfold := hstep.foldl_toDoubles hnums (show IsExact 0 from Nat.zero_le _) Counts.zero
  rw [Binary64.ofInt_zero] at hfold
  rw [← hlength, BranchProbability.reduceDouble_eq, hlength, reduceLong_eq, hfold]
  rfl

end Simulation

/-! ## The arrays of `setup` -/

/-- The integers of a state from `setup` stay far below `2 ^ 53`. -/
theorem isExact_of_setup {σ : Type} (random : RandomSource σ) {size fuel : ℕ} {probability : ℤ}
    {source next : σ} {state : LoopState} (hpos : 1 ≤ size) (hsize : 100 * size < 2 ^ 31)
    (hsetup : setup random size probability fuel source = .ok (state, next)) :
    state.size = size ∧
      (state.maxLongA.length = size ∧ ∀ v ∈ state.maxLongA, IsExact v) ∧
      (state.minLongA.length = size ∧ ∀ v ∈ state.minLongA, IsExact v) := by
  obtain ⟨longs, hlongs, hstate⟩ := bind_eq_ok.mp hsetup
  obtain ⟨drawn, hdrawn, harrays, -⟩ := exists_drawn random hpos hsize hlongs
  cases hstate
  have hexact : ∀ v ∈ drawn.maxLongA, IsExact v := by
    intro v hv
    have hbound := abs_le.mp (drawn.bounded v hv)
    have hlength : drawn.rest.length + 1 = size := hdrawn
    rw [IsExact]
    omega
  rw [harrays]
  refine ⟨rfl, ⟨drawn.length_maxLongA.trans hdrawn, hexact⟩, ?_, ?_⟩
  · rw [negate, List.length_map, drawn.length_maxLongA, hdrawn]
  · intro v hv
    rw [drawn.negate_maxLongA (by omega)] at hv
    obtain ⟨w, hw, rfl⟩ := List.mem_map.mp hv
    rw [IsExact, Int.natAbs_neg]
    exact hexact w hw

/-- A validation only sees the counts. -/
theorem validated_map (reduced : Except Failure (ℤ × Counts))
    (validate : Counts → Except Failure Unit) :
    (do
      let reduced ← reduced.map fun reduced => (Binary64.ofInt reduced.1, reduced.2)
      validate reduced.2
      .ok reduced.1) =
    Except.map Binary64.ofInt (do
      let reduced ← reduced
      validate reduced.2
      .ok reduced.1) := by
  cases reduced with
  | error e => rfl
  | ok reduced =>
      simp only [Except.map, ok_bind]
      cases validate reduced.2 with
      | error e => rfl
      | ok _ => rfl

/-- On the arrays of `setup` the reductions of doubles return what those of integers return,
and their validations fail alike. -/
theorem doubleReductions_eq {σ : Type} (random : RandomSource σ) {size fuel : ℕ}
    {probability : ℤ} {source next : σ} {state : LoopState} (hpos : 1 ≤ size)
    (hsize : 100 * size < 2 ^ 31)
    (hsetup : setup random size probability fuel source = .ok (state, next)) (expects : Expects) :
    doubleReductionSimpleMax state expects =
        (longReductionSimpleMax state expects).map Binary64.ofInt ∧
      doubleReductionSimpleMin state expects =
        (longReductionSimpleMin state expects).map Binary64.ofInt := by
  obtain ⟨hstate, ⟨hmaxLength, hmax⟩, hminLength, hmin⟩ :=
    isExact_of_setup random hpos hsize hsetup
  have hreduceMax := simulates_myMax.reduceDouble_eq hmax
  have hreduceMin := simulates_myMin.reduceDouble_eq hmin
  rw [hmaxLength, ← hstate] at hreduceMax
  rw [hminLength, ← hstate] at hreduceMin
  rw [doubleReductionSimpleMax, longReductionSimpleMax, LoopState.maxDoubleA, hreduceMax,
    doubleReductionSimpleMin, longReductionSimpleMin, LoopState.minDoubleA, hreduceMin]
  exact ⟨validated_map _ fun counts => validateMax expects counts state.size,
    validated_map _ fun counts => validateMin expects counts state.size⟩

/-- A state of four values, two of them above. -/
theorem doubleReductions_eq_counting :
    doubleReductionSimpleMax
        ⟨4, 50, [4, 10, 2, 9], [3, 4, 10, 10], [-4, -10, -2, -9], [-3, -4, -10, -10]⟩
        ⟨0, 0, 50, 0, 50⟩ = .ok (.ofInt 10) ∧
      doubleReductionSimpleMin
        ⟨4, 50, [4, 10, 2, 9], [3, 4, 10, 10], [-4, -10, -2, -9], [-3, -4, -10, -10]⟩
        ⟨0, 0, 50, 0, 50⟩ = .ok (.ofInt (-10)) := by
  obtain ⟨hmax, hmin⟩ :=
    doubleReductions_eq counting (by decide) (by decide) setup_counting ⟨0, 0, 50, 0, 50⟩
  exact ⟨hmax.trans (congrArg (Except.map Binary64.ofInt) (show _ = .ok 10 from rfl)),
    hmin.trans (congrArg (Except.map Binary64.ofInt) (show _ = .ok (-10) from rfl))⟩

end Colata.BranchProbability
