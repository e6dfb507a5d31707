/-
# The reductions with counted branches

The reductions to the maximum and to the minimum count which branch each comparison
takes, and the counts are validated against the expected percentages. The minimum of
negated values mirrors the maximum: the same comparisons with `above` and `below`
exchanged. On values without ties every comparison takes one of these two branches,
and the records are those that are above.
-/

import Colata.BranchProbability.LoopState
import Colata.Math.Records

namespace Colata.BranchProbability

open Colata.Java Colata.Math

structure Expects where
  notANumber : ℤ
  zeroZero : ℤ
  above : ℤ
  equals : ℤ
  below : ℤ

structure Counts where
  notANumber : ℤ
  zeroZero : ℤ
  above : ℤ
  equals : ℤ
  below : ℤ

/-- `new Counts()`. -/
def Counts.zero : Counts := ⟨0, 0, 0, 0, 0⟩

def myMax (a b : ℤ) (counts : Counts) : ℤ × Counts :=
  if b < a then (a, { counts with above := wrapInt (counts.above + 1) })
  else if a = b then (a, { counts with equals := wrapInt (counts.equals + 1) })
  else (b, { counts with below := wrapInt (counts.below + 1) })

def myMin (a b : ℤ) (counts : Counts) : ℤ × Counts :=
  if a < b then (a, { counts with below := wrapInt (counts.below + 1) })
  else if a = b then (a, { counts with equals := wrapInt (counts.equals + 1) })
  else (b, { counts with above := wrapInt (counts.above + 1) })

/-- The loop of both reductions. -/
def reduceLong (step : ℤ → ℤ → Counts → ℤ × Counts) (array : List ℤ) (size : ℤ) :
    Except Failure (ℤ × Counts) :=
  (List.range size.toNat).foldlM (fun state i => do
    let v ← read array i
    .ok (step v state.1 state.2)) (0, Counts.zero)

def assertEq (actual expected : ℤ) (message : String) : Except Failure Unit :=
  if actual = expected then .ok () else .error (.assertion message)

/-- The assertions of both validations. -/
def assertCounts (expects : Expects) (counts : Counts) (abovePercent belowPercent : ℤ) :
    Except Failure Unit := do
  assertEq abovePercent expects.above s!"Expected {expects.above}% above but got {abovePercent}%"
  assertEq belowPercent expects.below s!"Expected {expects.below}% below but got {belowPercent}%"
  assertEq counts.equals expects.equals
    s!"Expected {expects.equals}% above or equal max but got {counts.equals}%"
  assertEq 0 expects.zeroZero s!"Expected {expects.zeroZero}% -0.0 but got {counts.zeroZero}%"
  assertEq 0 expects.notANumber s!"Expected {expects.notANumber}% NaN but got {counts.notANumber}%"

def validateMax (expects : Expects) (counts : Counts) (numElements : ℤ) : Except Failure Unit := do
  let abovePercent ← divInt (wrapInt (counts.above * 100)) numElements
  assertCounts expects counts abovePercent (wrapInt (100 - abovePercent))

def validateMin (expects : Expects) (counts : Counts) (numElements : ℤ) : Except Failure Unit := do
  let belowPercent ← divInt (wrapInt (counts.below * 100)) numElements
  assertCounts expects counts (wrapInt (100 - belowPercent)) belowPercent

def longReductionSimpleMax (state : LoopState) (expects : Expects) : Except Failure ℤ := do
  let reduced ← reduceLong myMax state.maxLongA state.size
  validateMax expects reduced.2 state.size
  .ok reduced.1

def longReductionSimpleMin (state : LoopState) (expects : Expects) : Except Failure ℤ := do
  let reduced ← reduceLong myMin state.minLongA state.size
  validateMin expects reduced.2 state.size
  .ok reduced.1

/-! ## Counting -/

/-- The loop over the indices of an array folds its values. -/
theorem reduceLong_eq (step : ℤ → ℤ → Counts → ℤ × Counts) (array : List ℤ) :
    reduceLong step array array.length =
      .ok (array.foldl (fun state v => step v state.1 state.2) (0, Counts.zero)) := by
  rw [reduceLong, Int.toNat_natCast]
  exact foldlM_range_read (fun _ => read_eq_ok) (fun state v => step v state.1 state.2) _

/-- The state of the reduction to the minimum that mirrors one to the maximum. -/
def mirror (state : ℤ × Counts) : ℤ × Counts :=
  (-state.1, { state.2 with above := state.2.below, below := state.2.above })

theorem myMin_neg (v : ℤ) (state : ℤ × Counts) :
    myMin (-v) (mirror state).1 (mirror state).2 = mirror (myMax v state.1 state.2) := by
  unfold myMin myMax mirror
  by_cases habove : state.1 < v
  · rw [if_pos habove, if_pos (neg_lt_neg habove)]
  · by_cases hequal : v = state.1
    · rw [if_neg habove, if_pos hequal, if_neg (by omega), if_pos (congrArg Neg.neg hequal)]
    · rw [if_neg habove, if_neg hequal, if_neg (by omega), if_neg (by omega)]

theorem foldl_myMin_neg (values : List ℤ) (state : ℤ × Counts) :
    (values.map fun v => -v).foldl (fun state v => myMin v state.1 state.2) (mirror state) =
      mirror (values.foldl (fun state v => myMax v state.1 state.2) state) := by
  rw [List.foldl_map]
  induction values generalizing state with
  | nil => rfl
  | cons v values ih => rw [List.foldl_cons, List.foldl_cons, myMin_neg, ih]

/-- Without ties each value is counted above or below, and the records are above. -/
theorem foldl_myMax {start : ℤ} {values : List ℤ} {counts : Counts} (h : NoTies start values)
    (habove : 0 ≤ counts.above ∧ counts.above + values.length < 2 ^ 31)
    (hbelow : 0 ≤ counts.below ∧ counts.below + values.length < 2 ^ 31) :
    values.foldl (fun state v => myMax v state.1 state.2) (start, counts) =
      (values.foldl max start,
        { counts with
          above := counts.above + records start values
          below := counts.below + (values.length - records start values) }) := by
  induction values generalizing start counts with
  | nil => simp [records]
  | cons v values ih =>
      obtain ⟨hne, hrest⟩ := h
      rw [List.length_cons] at habove hbelow
      push_cast at habove hbelow
      rw [List.foldl_cons, List.foldl_cons]
      by_cases hrecord : start < v
      · have hstep : myMax v start counts = (v, { counts with above := counts.above + 1 }) := by
          rw [myMax, if_pos hrecord, wrapInt_of_bounds (by omega) (by omega)]
        rw [max_eq_right hrecord.le] at hrest ⊢
        rw [hstep, ih hrest (by dsimp only; omega) (by dsimp only; omega), records,
          if_pos hrecord, max_eq_right hrecord.le, List.length_cons]
        congr 2 <;> push_cast <;> omega
      · have hstep : myMax v start counts =
            (start, { counts with below := counts.below + 1 }) := by
          rw [myMax, if_neg hrecord, if_neg hne, wrapInt_of_bounds (by omega) (by omega)]
        rw [max_eq_left (not_lt.mp hrecord)] at hrest ⊢
        rw [hstep, ih hrest (by dsimp only; omega) (by dsimp only; omega), records,
          if_neg hrecord, max_eq_left (not_lt.mp hrecord), List.length_cons]
        congr 2 <;> push_cast <;> omega

/-! ## Validating -/

theorem divInt_natCast {dividend divisor : ℕ} (hdivisor : 0 < divisor)
    (hdividend : dividend < 2 ^ 31) :
    divInt (wrapInt dividend) divisor = .ok ((dividend / divisor : ℕ) : ℤ) := by
  have hquotient : dividend / divisor ≤ dividend := Nat.div_le_self dividend divisor
  have hnonneg : (0 : ℤ) ≤ ((dividend / divisor : ℕ) : ℤ) := Int.natCast_nonneg _
  have hwrap : wrapInt dividend = dividend := wrapInt_of_bounds (by omega) (by omega)
  rw [divInt, if_neg (by omega), hwrap, Int.tdiv_eq_ediv_of_nonneg (Int.natCast_nonneg _),
    ← Int.natCast_ediv, wrapInt_of_bounds (by omega) (by omega)]

/-- The percentage of a count is computed without overflow. -/
theorem divInt_percent {count size : ℕ} (hpos : 1 ≤ size) (hsize : 100 * size < 2 ^ 31)
    (hcount : count ≤ size) :
    divInt (wrapInt ((count : ℤ) * 100)) size = .ok ((count * 100 / size : ℕ) : ℤ) := by
  have hbound : count * 100 < 2 ^ 31 := by omega
  have hpercent := divInt_natCast hpos hbound
  rwa [Nat.cast_mul] at hpercent

/-- Without equal or special values the expected percentages pass. -/
theorem assertCounts_eq_ok {counts : Counts} {abovePercent belowPercent : ℤ}
    (hequals : counts.equals = 0) :
    assertCounts ⟨0, 0, abovePercent, 0, belowPercent⟩ counts abovePercent belowPercent = .ok () := by
  simp only [assertCounts, assertEq, hequals]
  rfl

section Validate

variable {counts : Counts} {count size : ℕ} {percent : ℤ}

theorem wrapInt_percent (hcount : count ≤ size)
    (hpercent : ((count * 100 / size : ℕ) : ℤ) = percent) :
    wrapInt (100 - percent) = 100 - percent := by
  have hle : count * 100 / size ≤ 100 := Nat.div_le_of_le_mul (by omega)
  generalize count * 100 / size = quotient at hle hpercent
  exact wrapInt_of_bounds (by omega) (by omega)

theorem validateMax_eq_ok (hpos : 1 ≤ size) (hsize : 100 * size < 2 ^ 31) (hcount : count ≤ size)
    (hpercent : ((count * 100 / size : ℕ) : ℤ) = percent) (habove : counts.above = count)
    (hequals : counts.equals = 0) :
    validateMax ⟨0, 0, percent, 0, 100 - percent⟩ counts size = .ok () := by
  rw [validateMax, habove, divInt_percent hpos hsize hcount, hpercent]
  show assertCounts _ counts percent (wrapInt (100 - percent)) = .ok ()
  rw [wrapInt_percent hcount hpercent, assertCounts_eq_ok hequals]

theorem validateMin_eq_ok (hpos : 1 ≤ size) (hsize : 100 * size < 2 ^ 31) (hcount : count ≤ size)
    (hpercent : ((count * 100 / size : ℕ) : ℤ) = percent) (hbelow : counts.below = count)
    (hequals : counts.equals = 0) :
    validateMin ⟨0, 0, 100 - percent, 0, percent⟩ counts size = .ok () := by
  rw [validateMin, hbelow, divInt_percent hpos hsize hcount, hpercent]
  show assertCounts _ counts (wrapInt (100 - percent)) percent = .ok ()
  rw [wrapInt_percent hcount hpercent, assertCounts_eq_ok hequals]

end Validate

end Colata.BranchProbability
