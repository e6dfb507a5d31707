/-
# The drawn arrays have the given percentage of records

What has been drawn at any time is a positive value and more values behind it, none of
which equals the maximum before it. The count kept while drawing is the number of
records from zero on, which is what both reductions count as well. So an array that
passes the percentage test of the generator passes that of the reductions.
-/

import Colata.BranchProbability.Reductions

namespace Colata.BranchProbability

open Colata.Java Colata.Math

/-- A sequence of values that the generator can draw. -/
structure Drawn where
  first : ℤ
  rest : List ℤ
  first_pos : 0 < first
  noTies : NoTies first rest
  bounded : ∀ value ∈ first :: rest, |value| ≤ 9 * (rest.length + 1)

namespace Drawn

def size (drawn : Drawn) : ℕ := drawn.rest.length + 1

def max (drawn : Drawn) : ℤ := drawn.rest.foldl Max.max drawn.first

def maxLongA (drawn : Drawn) : List ℤ := drawn.first :: drawn.rest

def maxLongB (drawn : Drawn) : List ℤ := (drawn.first - 1) :: running drawn.first drawn.rest

def aboveCount (drawn : Drawn) : ℕ := 1 + records drawn.first drawn.rest

variable (drawn : Drawn)

theorem size_pos : 0 < drawn.size := Nat.succ_pos _

theorem length_maxLongA : drawn.maxLongA.length = drawn.size := rfl

theorem length_maxLongB : drawn.maxLongB.length = drawn.size :=
  congrArg Nat.succ (length_running _ _)

theorem aboveCount_le : drawn.aboveCount ≤ drawn.size := by
  have hrecords := records_le_length drawn.first drawn.rest
  rw [aboveCount, size]
  omega

theorem abs_max_le : |drawn.max| ≤ 9 * drawn.size :=
  drawn.bounded _ (isGreatest_foldl_max drawn.first drawn.rest).1

theorem wrapLong_first_sub_one (hsize : drawn.size < 2 ^ 31) :
    wrapLong (drawn.first - 1) = drawn.first - 1 := by
  have hpos := drawn.first_pos
  have hbound := abs_le.mp (drawn.bounded _ List.mem_cons_self)
  rw [size] at hsize
  exact wrapLong_of_bounds (by omega) (by omega)

/-- The first value. -/
def singleton (value : ℤ) (hvalue : 1 ≤ value ∧ value < 10) : Drawn where
  first := value
  rest := []
  first_pos := by omega
  noTies := trivial
  bounded := by
    intro other hother
    rw [List.mem_singleton.mp hother, abs_le, List.length_nil, Nat.cast_zero]
    omega

/-- One more value that differs from the maximum. -/
def append (value : ℤ) (hne : value ≠ drawn.max) (hbound : |value| ≤ 9 * (drawn.size + 1)) :
    Drawn where
  first := drawn.first
  rest := drawn.rest ++ [value]
  first_pos := drawn.first_pos
  noTies := (noTies_append _ _ _).mpr ⟨drawn.noTies, hne⟩
  bounded := by
    intro other hother
    rw [List.length_append, List.length_singleton]
    rw [← List.cons_append, List.mem_append, List.mem_singleton] at hother
    cases hother with
    | inl hold =>
        have hle := drawn.bounded other hold
        push_cast
        omega
    | inr heq =>
        rw [heq]
        exact hbound

section Append

variable (value : ℤ) (hne : value ≠ drawn.max) (hbound : |value| ≤ 9 * (drawn.size + 1))

theorem size_append : (drawn.append value hne hbound).size = drawn.size + 1 :=
  congrArg Nat.succ List.length_append

theorem max_append : (drawn.append value hne hbound).max = Max.max drawn.max value :=
  List.foldl_append

theorem maxLongB_append :
    (drawn.append value hne hbound).maxLongB = drawn.maxLongB ++ [drawn.max] :=
  congrArg ((drawn.first - 1) :: ·) (running_append _ _ _)

theorem aboveCount_append : (drawn.append value hne hbound).aboveCount =
    drawn.aboveCount + if drawn.max < value then 1 else 0 := by
  rw [aboveCount, append, records_append, ← Nat.add_assoc]
  rfl

end Append

/-! ## What the second array is for -/

/-- The second array holds the maximum of the values before each index. -/
theorem maxLongB_isGreatest {i : ℕ} (hpos : 1 ≤ i) (hi : i < drawn.size) :
    ∃ max, drawn.maxLongB[i]? = some max ∧
      IsGreatest {value | value ∈ drawn.maxLongA.take i} max := by
  obtain ⟨j, rfl⟩ := Nat.exists_eq_add_of_le' hpos
  exact ⟨_, getElem?_running _ _ (Nat.lt_of_succ_lt_succ hi), isGreatest_foldl_max _ _⟩

theorem ne_of_mem_zip {pair : ℤ × ℤ} (hpair : pair ∈ drawn.maxLongA.zip drawn.maxLongB) :
    pair.1 ≠ pair.2 := by
  cases List.mem_cons.mp hpair with
  | inl heq =>
      rw [heq]
      show drawn.first ≠ drawn.first - 1
      omega
  | inr hmem => exact drawn.noTies.ne_of_mem_zip hmem

theorem aboveCount_eq_countP :
    drawn.aboveCount =
      (drawn.maxLongA.zip drawn.maxLongB).countP fun pair => pair.2 < pair.1 := by
  rw [maxLongA, maxLongB, List.zip_cons_cons, List.countP_cons, ← records_eq_countP,
    if_pos (decide_eq_true (sub_one_lt drawn.first)), aboveCount, Nat.add_comm]

/-! ## What the reductions count -/

/-- From zero on the first value is a record, too. -/
theorem noTies_zero : NoTies 0 drawn.maxLongA := by
  show drawn.first ≠ 0 ∧ NoTies (Max.max 0 drawn.first) drawn.rest
  rw [max_eq_right drawn.first_pos.le]
  exact ⟨drawn.first_pos.ne', drawn.noTies⟩

theorem records_zero : records 0 drawn.maxLongA = drawn.aboveCount := by
  rw [maxLongA, records, if_pos drawn.first_pos, max_eq_right drawn.first_pos.le]
  rfl

/-- The counts of the reduction to the maximum. -/
def maxCounts : Counts :=
  { Counts.zero with above := drawn.aboveCount, below := drawn.size - drawn.aboveCount }

/-- The counts of the reduction to the minimum. -/
def minCounts : Counts :=
  { Counts.zero with below := drawn.aboveCount, above := drawn.size - drawn.aboveCount }

theorem foldl_myMax_zero (hsize : drawn.size < 2 ^ 31) :
    drawn.maxLongA.foldl (fun state v => myMax v state.1 state.2) (0, Counts.zero) =
      (drawn.maxLongA.foldl Max.max 0, drawn.maxCounts) := by
  have hcounts : (0 : ℤ) ≤ 0 ∧ (0 : ℤ) + drawn.maxLongA.length < 2 ^ 31 := by
    rw [length_maxLongA]
    omega
  rw [foldl_myMax drawn.noTies_zero hcounts hcounts, records_zero, length_maxLongA]
  simp only [Counts.zero, maxCounts, Int.zero_add]

theorem reduceLong_myMax (hsize : drawn.size < 2 ^ 31) :
    reduceLong myMax drawn.maxLongA drawn.size =
      .ok (drawn.maxLongA.foldl Max.max 0, drawn.maxCounts) := by
  rw [← length_maxLongA, reduceLong_eq, drawn.foldl_myMax_zero hsize]

/-- No value overflows when it is negated. -/
theorem negate_maxLongA (hsize : drawn.size < 2 ^ 31) :
    negate drawn.maxLongA = drawn.maxLongA.map fun v => -v := by
  apply List.map_congr_left
  intro v hv
  have hbound := abs_le.mp (drawn.bounded v hv)
  rw [size] at hsize
  exact wrapLong_of_bounds (by omega) (by omega)

theorem reduceLong_myMin (hsize : drawn.size < 2 ^ 31) :
    reduceLong myMin (negate drawn.maxLongA) drawn.size =
      .ok (-drawn.maxLongA.foldl Max.max 0, drawn.minCounts) := by
  have hlength : (drawn.maxLongA.map fun v => -v).length = drawn.size := List.length_map ..
  have hmirror := foldl_myMin_neg drawn.maxLongA (0, Counts.zero)
  rw [drawn.foldl_myMax_zero hsize] at hmirror
  rw [drawn.negate_maxLongA hsize, ← hlength, reduceLong_eq]
  exact congrArg Except.ok hmirror

end Drawn

end Colata.BranchProbability
