/-
# Running maxima

`PrefixMaxArray` writes the maximum of every start of an array. Each turn reads what the
turn before has written. The validation writes into an array of zeros and compares it with
one that was written before; where they differ it prints the first differences and throws.
-/

import Colata.Languages.Java.ForLoop
import Colata.Math.Reduction
import Mathlib.Data.List.Perm.Basic

namespace Colata.ReassocChain.PrefixMaxArray

open Colata.Java.ForLoop Colata.Math

/-! ## Writing the maxima -/

/-- `result[i] = Math.max(result[i - 1], array[i])` for the rest of the array, which starts at
`i`. What has been written stays when a turn throws. -/
def writeFrom (result : List ℤ) (i : ℕ) : List ℤ → List ℤ × Except Failure Unit
  | [] => (result, .ok ())
  | value :: rest =>
      match result[i - 1]? with
      | none => (result, .error .outOfBounds)
      | some previous =>
          if i < result.length then writeFrom (result.set i (max previous value)) (i + 1) rest
          else (result, .error .outOfBounds)

def test (array result : List ℤ) : List ℤ × Except Failure Unit :=
  match array with
  | [] => (result, .error .outOfBounds)
  | value :: rest =>
      if 0 < result.length then writeFrom (result.set 0 value) 1 rest
      else (result, .error .outOfBounds)

/-! ## Comparing two arrays -/

/-- The lines that are printed. -/
inductive Line
  | validate
  | difference (idx : ℕ) (a b : ℤ)
  | stopped (diffs : ℕ)
  | done (minLen diffs aLength bLength : ℕ)
  deriving DecidableEq

/-- The loop of `printDiff` from the index `i` on, behind which stand `pairs`. -/
def printDiffFrom (a b : List ℤ) (maxDiffs : ℤ) (i diffs : ℕ) : List (ℤ × ℤ) → List Line
  | [] => [.done (min a.length b.length) diffs a.length b.length]
  | (valueA, valueB) :: pairs =>
      if valueA ≠ valueB then
        .difference i valueA valueB ::
          if maxDiffs ≤ ↑(diffs + 1) then [.stopped (diffs + 1)]
          else printDiffFrom a b maxDiffs (i + 1) (diffs + 1) pairs
      else printDiffFrom a b maxDiffs (i + 1) diffs pairs

def printDiff (a b : List ℤ) (maxDiffs : ℤ) : List Line :=
  printDiffFrom a b maxDiffs 0 0 (a.zip b)

/-- How a validation ends. -/
inductive Ending
  | returned
  | thrown (failure : Failure)
  | assertionError
  deriving DecidableEq

def assertEquals (expected actual : List ℤ) : List Line × Ending :=
  if expected = actual then ([], .returned)
  else (printDiff expected actual 10, .assertionError)

def validate (expected array result : List ℤ) : List Line × Ending :=
  match test array (List.replicate result.length 0) with
  | (_, .error failure) => ([.validate], .thrown failure)
  | (written, .ok ()) =>
      let (lines, ending) := assertEquals expected written
      (.validate :: lines, ending)

/-! ## What is written -/

/-- The maxima of the starts of the array. -/
def maxima : List ℤ → List ℤ
  | [] => []
  | value :: rest => rest.scanl max value

theorem length_maxima (array : List ℤ) : (maxima array).length = array.length := by
  cases array with
  | nil => rfl
  | cons value rest => exact List.length_scanl

theorem isGreatest_maxima {array : List ℤ} {i : ℕ} {m : ℤ} (h : (maxima array)[i]? = some m) :
    IsGreatest {x | x ∈ array.take (i + 1)} m := by
  cases array with
  | nil => cases h
  | cons value rest =>
      obtain ⟨hi, hm⟩ := List.getElem?_eq_some_iff.mp h
      have hfold : (rest.take i).foldl max value = m := by
        rw [← hm]
        exact (List.getElem_scanl hi).symm
      have hgreatest := @foldl_greatest ℤ max ℤ _ id (fun _ => True)
        (fun x y _ _ => ⟨max_choice x y, le_max_left x y, le_max_right x y⟩)
        (rest.take i) value fun _ _ => trivial
      rw [hfold] at hgreatest
      rw [List.take_succ_cons]
      exact ⟨hgreatest.1, fun x hx => hgreatest.2 x hx⟩

/-- The loop from behind a part that is written, which ends with its maximum. -/
theorem writeFrom_eq (rest before tail : List ℤ) (previous : ℤ) :
    writeFrom (before ++ previous :: tail) (before.length + 1) rest =
      (before ++ (rest.scanl max previous).take (tail.length + 1) ++ tail.drop rest.length,
        if rest.length ≤ tail.length then .ok () else .error .outOfBounds) := by
  induction rest generalizing before tail previous with
  | nil => simp [writeFrom]
  | cons value rest ih =>
      have hprevious : (before ++ previous :: tail)[before.length + 1 - 1]? = some previous := by
        simp
      rw [writeFrom, hprevious]
      cases tail with
      | nil => simp
      | cons old tail =>
          have hlength : before.length + 1 < (before ++ previous :: old :: tail).length := by
            simp only [List.length_append, List.length_cons]
            omega
          have hset : (before ++ previous :: old :: tail).set (before.length + 1)
              (max previous value) = (before ++ [previous]) ++ max previous value :: tail := by
            rw [List.set_append_right _ _ (by omega)]
            simp
          have hcount : before.length + 1 + 1 = (before ++ [previous]).length + 1 := by simp
          dsimp only
          rw [if_pos hlength, hset, hcount, ih]
          simp [List.scanl_cons]

/-- What fits is written, and the rest of `result` stays, also when the call throws. -/
theorem test_eq (array result : List ℤ) :
    test array result =
      ((maxima array).take result.length ++ result.drop array.length,
        if array ≠ [] ∧ array.length ≤ result.length then .ok () else .error .outOfBounds) := by
  cases array with
  | nil => simp [test, maxima]
  | cons value rest =>
      cases result with
      | nil => simp [test]
      | cons old tail =>
          have hloop := writeFrom_eq rest [] tail value
          rw [List.nil_append, List.length_nil, Nat.zero_add, List.nil_append] at hloop
          have hpos : 0 < (old :: tail).length := List.length_pos_of_ne_nil (List.cons_ne_nil _ _)
          rw [test, if_pos hpos, List.set_cons_zero, hloop, maxima]
          simp

/-! ## What is printed -/

/-- The lines for the pairs whose members differ. -/
def differencesFrom (i : ℕ) (pairs : List (ℤ × ℤ)) : List Line :=
  (pairs.zipIdx i).filterMap fun ((a, b), idx) => if a ≠ b then some (.difference idx a b) else none

/-- All differences and a line with their number, or the first ones. -/
def printed (maxDiffs diffs : ℕ) (a b : List ℤ) (lines : List Line) : List Line :=
  if diffs + lines.length < maxDiffs then
    lines ++ [.done (min a.length b.length) (diffs + lines.length) a.length b.length]
  else lines.take (maxDiffs - diffs) ++ [.stopped maxDiffs]

theorem differencesFrom_cons (a b : ℤ) (i : ℕ) (pairs : List (ℤ × ℤ)) :
    differencesFrom i ((a, b) :: pairs) =
      if a ≠ b then .difference i a b :: differencesFrom (i + 1) pairs
      else differencesFrom (i + 1) pairs := by
  rw [differencesFrom, List.zipIdx_cons, differencesFrom]
  split_ifs with h
  · exact List.filterMap_cons_some (if_pos h)
  · exact List.filterMap_cons_none (if_neg h)

theorem differencesFrom_append (first second : List (ℤ × ℤ)) (i : ℕ) :
    differencesFrom i (first ++ second) =
      differencesFrom i first ++ differencesFrom (i + first.length) second := by
  rw [differencesFrom, List.zipIdx_append, List.filterMap_append]
  rfl

/-- Equal arrays differ nowhere. -/
theorem differencesFrom_zip_self (list : List ℤ) (i : ℕ) : differencesFrom i (list.zip list) = [] := by
  induction list generalizing i with
  | nil => rfl
  | cons x list ih => rw [List.zip_cons_cons, differencesFrom_cons, if_neg (not_not.mpr rfl), ih]

/-- Of the arrays only the lengths are printed. -/
theorem printed_congr {a b a' b' : List ℤ} (ha : a.length = a'.length) (hb : b.length = b'.length)
    (maxDiffs diffs : ℕ) (lines : List Line) :
    printed maxDiffs diffs a b lines = printed maxDiffs diffs a' b' lines := by
  rw [printed, printed, ha, hb]

/-- One more difference is printed, and counted, before the limit is reached. -/
theorem cons_printed {maxDiffs diffs : ℕ} (hdiffs : diffs < maxDiffs) (a b : List ℤ)
    (line : Line) (lines : List Line) :
    printed maxDiffs diffs a b (line :: lines) =
      line :: printed maxDiffs (diffs + 1) a b lines := by
  have hcount : diffs + (line :: lines).length = diffs + 1 + lines.length := by
    rw [List.length_cons]
    omega
  have hleft : maxDiffs - diffs = maxDiffs - (diffs + 1) + 1 := by omega
  rw [printed, printed, hcount, hleft, List.take_succ_cons]
  split_ifs <;> rfl

theorem printDiffFrom_eq (a b : List ℤ) {maxDiffs : ℕ} (pairs : List (ℤ × ℤ)) (i : ℕ) {diffs : ℕ}
    (hdiffs : diffs < maxDiffs) :
    printDiffFrom a b maxDiffs i diffs pairs =
      printed maxDiffs diffs a b (differencesFrom i pairs) := by
  induction pairs generalizing i diffs with
  | nil =>
      rw [printDiffFrom, printed, if_pos (by simpa [differencesFrom] using hdiffs)]
      simp [differencesFrom]
  | cons pair pairs ih =>
      obtain ⟨valueA, valueB⟩ := pair
      rw [printDiffFrom, differencesFrom_cons]
      split_ifs with hne hstop
      · have hlast : diffs + 1 = maxDiffs := by omega
        rw [cons_printed hdiffs, hlast, printed, if_neg (by omega), Nat.sub_self]
        rfl
      · rw [cons_printed hdiffs, ih (i + 1) (by omega)]
      · exact ih (i + 1) hdiffs

theorem printDiff_eq (a b : List ℤ) :
    printDiff a b 10 = printed 10 0 a b (differencesFrom 0 (a.zip b)) :=
  printDiffFrom_eq a b _ 0 (by decide)

/-- What `test` has written to an array passes the validation exactly if the array is as long
as `result` and held zeros behind the maxima. Else the first ten of the values that are no
zeros are printed. -/
theorem validate_test {array : List ℤ} (hne : array ≠ []) {previous result : List ℤ}
    (hprevious : array.length ≤ previous.length) (hresult : array.length ≤ result.length) :
    let rest := previous.drop array.length
    let zeros := List.replicate (result.length - array.length) 0
    ∃ expected, test array previous = (expected, .ok ()) ∧
      (∀ i < array.length, ∃ m, expected[i]? = some m ∧
        IsGreatest {x | x ∈ array.take (i + 1)} m) ∧
      expected.drop array.length = rest ∧
      validate expected array result =
        if rest = zeros then ([.validate], .returned)
        else
          (.validate :: printed 10 0 previous result
            (differencesFrom array.length (rest.zip zeros)), .assertionError) := by
  intro rest zeros
  have hlength := length_maxima array
  have htake (other : List ℤ) (h : array.length ≤ other.length) :
      test array other = (maxima array ++ other.drop array.length, .ok ()) := by
    rw [test_eq, if_pos ⟨hne, h⟩, List.take_of_length_le (by omega)]
  refine ⟨_, htake previous hprevious, ?_, ?_, ?_⟩
  · intro i hi
    have hm : (maxima array)[i]? = some (maxima array)[i] := List.getElem?_eq_getElem (by omega)
    refine ⟨_, ?_, isGreatest_maxima hm⟩
    rw [List.getElem?_append_left (by omega), hm]
  · rw [List.drop_append_of_le_length (by omega), ← hlength, List.drop_length, List.nil_append,
      hlength]
  · have hwritten := htake (List.replicate result.length 0) (by simpa using hresult)
    rw [List.drop_replicate] at hwritten
    have hpairs : (maxima array ++ rest).zip (maxima array ++ zeros) =
        (maxima array).zip (maxima array) ++ rest.zip zeros := List.zip_append rfl
    have hlines : differencesFrom 0 ((maxima array ++ rest).zip (maxima array ++ zeros)) =
        differencesFrom array.length (rest.zip zeros) := by
      rw [hpairs, differencesFrom_append, differencesFrom_zip_self, List.nil_append,
        List.length_zip, min_self, hlength, Nat.zero_add]
    have hexpected : (maxima array ++ rest).length = previous.length := by
      rw [List.length_append, List.length_drop]
      omega
    have hzeros : (maxima array ++ zeros).length = result.length := by
      rw [List.length_append, List.length_replicate]
      omega
    rw [validate, hwritten]
    dsimp only
    split_ifs with hrest
    · rw [assertEquals, if_pos (congrArg (maxima array ++ ·) hrest)]
    · rw [assertEquals, if_neg fun h => hrest (List.append_cancel_left h), printDiff_eq, hlines,
        printed_congr hexpected hzeros]

/-- What an array held behind the maxima is found and printed. -/
theorem validate_test_longer :
    ∃ expected, test [3, 1] [0, 0, 7] = (expected, .ok ()) ∧
      validate expected [3, 1] [0, 0, 0] =
        ([.validate, .difference 2 7 0, .done 3 1 3 3], .assertionError) := by
  obtain ⟨expected, hwritten, -, -, hvalidate⟩ :=
    @validate_test [3, 1] (by decide) [0, 0, 7] [0, 0, 0] (by decide) (by decide)
  refine ⟨expected, hwritten, hvalidate.trans ?_⟩
  decide

end Colata.ReassocChain.PrefixMaxArray
