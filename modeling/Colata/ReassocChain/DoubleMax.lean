/-
# The maximum of doubles

Two reproducers reduce an array of doubles, with `Math.max` and with a comparison. Both start
from the least positive double, so that neither zero ever takes part. NaN fails every
comparison: the second one skips it, the reference does not, and no result equals NaN.
-/

import Colata.Math.Binary64Order

namespace Colata.ReassocChain

open Colata.Math

/-- `Double.MIN_VALUE`. -/
def doubleMin : Binary64 := .leastPositive

/-- The message is formatted with `%d`, which does not take a double. -/
inductive ValidationFailure
  | illegalFormatConversion
  deriving DecidableEq

/-- `if (expected == actual) … else throw …`. -/
def assertEquals (expected actual : Binary64) : Except ValidationFailure Unit :=
  if expected.eq actual then .ok () else .error .illegalFormatConversion

namespace TestDoubleMax

def test (array : List Binary64) : Binary64 :=
  array.foldl (fun result v => v.max result) doubleMin

def expect (array : List Binary64) : Binary64 :=
  array.foldl (fun result v => v.max result) doubleMin

def validate (expected : Binary64) (array : List Binary64) : Except ValidationFailure Unit :=
  assertEquals expected (test array)

end TestDoubleMax

namespace TestDoubleMaxTernary

/-- `(v >= result) ? v : result`. -/
def step (result v : Binary64) : Binary64 := if result.le v then v else result

def test (array : List Binary64) : Binary64 := array.foldl step doubleMin

def expect (array : List Binary64) : Binary64 :=
  array.foldl (fun result v => v.max result) doubleMin

def validate (expected : Binary64) (array : List Binary64) : Except ValidationFailure Unit :=
  assertEquals expected (test array)

end TestDoubleMaxTernary

section Steps

variable {result v : Binary64}

theorem doubleMin_pos : 0 < doubleMin.value := by decide

theorem ne_nan_of_value_pos (h : 0 < result.value) : result ≠ .nan := by
  rintro rfl
  exact absurd h (by decide)

/-- Of positive results and numbers the comparison keeps the maximum. -/
theorem step_of_ne_nan (hresult : 0 < result.value) (hv : v ≠ .nan) :
    TestDoubleMaxTernary.step result v = result.max v := by
  have hnumber := ne_nan_of_value_pos hresult
  rw [TestDoubleMaxTernary.step]
  split_ifs with hle
  · obtain ⟨-, -, hvalue⟩ := Binary64.le_iff.mp hle
    refine (Binary64.max_eq_right hnumber hv ?_).symm
    rcases hvalue.lt_or_eq with hlt | heq
    · exact Binary64.rank_le_of_value_lt hlt
    · refine Binary64.rank_le_of_value_eq hv heq.symm ?_
      rintro rfl
      exact hresult.ne' heq
  · have hvalue : v.value < result.value := by
      by_contra hnot
      exact hle (Binary64.le_iff.mpr ⟨hnumber, hv, not_lt.mp hnot⟩)
    exact (Binary64.max_eq_left hnumber hv (Binary64.rank_le_of_value_lt hvalue)).symm

theorem step_nan : TestDoubleMaxTernary.step result .nan = result :=
  if_neg fun hle => (Binary64.le_iff.mp hle).2.1 rfl

theorem value_step_pos (hresult : 0 < result.value) :
    0 < (TestDoubleMaxTernary.step result v).value := by
  rw [TestDoubleMaxTernary.step]
  split_ifs with hle
  · exact hresult.trans_le (Binary64.le_iff.mp hle).2.2
  · exact hresult

end Steps

/-- The comparison reduces the numbers of the array and skips NaN. -/
theorem foldl_step (array : List Binary64) {result : Binary64} (hresult : 0 < result.value) :
    array.foldl TestDoubleMaxTernary.step result =
      (array.filter (· ≠ .nan)).foldl Binary64.max result := by
  induction array generalizing result with
  | nil => rfl
  | cons v array ih =>
      rw [List.foldl_cons, ih (value_step_pos hresult)]
      by_cases hv : v = .nan
      · rw [hv, step_nan, List.filter_cons_of_neg (by simp)]
      · rw [step_of_ne_nan hresult hv, List.filter_cons_of_pos (by simpa using hv),
          List.foldl_cons]

theorem foldl_max_comm (array : List Binary64) (result : Binary64) :
    array.foldl (fun result v => v.max result) result = array.foldl Binary64.max result := by
  have hcomm : (fun result v : Binary64 => v.max result) = Binary64.max := by
    funext result v
    exact Binary64.max_comm v result
  rw [hcomm]

theorem filter_ne_nan {array : List Binary64} (hnan : .nan ∉ array) :
    array.filter (· ≠ .nan) = array := by
  rw [List.filter_eq_self]
  rintro v hv
  rw [decide_eq_true_eq]
  rintro rfl
  exact hnan hv

/-- The reference returns NaN exactly if there is one. -/
theorem expect_eq_nan_iff (array : List Binary64) :
    array.foldl (fun result v => v.max result) doubleMin = .nan ↔ .nan ∈ array := by
  have hne : Binary64.nan ≠ doubleMin := Binary64.noConfusion
  rw [foldl_max_comm, Binary64.foldl_eq_nan_iff (fun _ _ => Binary64.max_eq_nan_iff),
    List.mem_cons, or_iff_right hne]

theorem assertEquals_nan (actual : Binary64) :
    assertEquals .nan actual = .error .illegalFormatConversion := rfl

theorem assertEquals_self {x : Binary64} (hx : x ≠ .nan) : assertEquals x x = .ok () :=
  if_pos (Binary64.eq_self_iff.mpr hx)

/-- A method that returns what the reference returns where that is a number. -/
theorem assertEquals_expect {array : List Binary64} {actual : Binary64}
    (hactual : .nan ∉ array →
      actual = array.foldl (fun result v => v.max result) doubleMin) :
    assertEquals (array.foldl (fun result v => v.max result) doubleMin) actual =
      if .nan ∈ array then .error .illegalFormatConversion else .ok () := by
  split_ifs with hnan
  · rw [(expect_eq_nan_iff array).mpr hnan, assertEquals_nan]
  · rw [hactual hnan]
    exact assertEquals_self (mt (expect_eq_nan_iff array).mp hnan)

/-- The comparison finds the maximum of the least positive double and the numbers of the array,
and either method passes its validation exactly if all values are numbers. -/
theorem doubleMax_validates_iff (array : List Binary64) :
    Binary64.IsMaximum (doubleMin :: array.filter (· ≠ .nan)) (TestDoubleMaxTernary.test array) ∧
      TestDoubleMaxTernary.validate (TestDoubleMaxTernary.expect array) array =
        (if .nan ∈ array then .error .illegalFormatConversion else .ok ()) ∧
      TestDoubleMax.validate (TestDoubleMax.expect array) array =
        (if .nan ∈ array then .error .illegalFormatConversion else .ok ()) := by
  have htest : TestDoubleMaxTernary.test array =
      (array.filter (· ≠ .nan)).foldl Binary64.max doubleMin := foldl_step array doubleMin_pos
  refine ⟨htest ▸ Binary64.isMaximum_foldl _ _, ?_, ?_⟩
  · exact assertEquals_expect fun hnan => by rw [htest, filter_ne_nan hnan, foldl_max_comm]
  · exact assertEquals_expect fun _ => rfl

end Colata.ReassocChain
