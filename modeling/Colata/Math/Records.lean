/-
# Records of a sequence

A value of a sequence is a record if it exceeds the maximum of what comes before it. A
sequence has no ties if no value equals that maximum, so that each value is a record
or stays below. Sequences grow at their end here, from a start value on.
-/

import Mathlib.Data.List.TakeDrop
import Mathlib.Order.Bounds.Basic
import Mathlib.Order.MinMax

namespace Colata.Math

universe u

variable {α : Type u} [LinearOrder α]

/-- The maximum before each value. -/
def running : α → List α → List α
  | _, [] => []
  | start, value :: values => start :: running (max start value) values

/-- How many values are records. -/
def records : α → List α → ℕ
  | _, [] => 0
  | start, value :: values => (if start < value then 1 else 0) + records (max start value) values

/-- No value equals the maximum before it. -/
def NoTies : α → List α → Prop
  | _, [] => True
  | start, value :: values => value ≠ start ∧ NoTies (max start value) values

@[simp]
theorem length_running (start : α) (values : List α) :
    (running start values).length = values.length := by
  induction values generalizing start with
  | nil => rfl
  | cons value values ih => exact congrArg Nat.succ (ih _)

theorem running_append (start value : α) (values : List α) :
    running start (values ++ [value]) = running start values ++ [values.foldl max start] := by
  induction values generalizing start with
  | nil => rfl
  | cons first values ih => exact congrArg (start :: ·) (ih _)

theorem records_append (start value : α) (values : List α) :
    records start (values ++ [value]) =
      records start values + if values.foldl max start < value then 1 else 0 := by
  induction values generalizing start with
  | nil => exact Nat.add_comm _ _
  | cons first values ih =>
      rw [List.cons_append, records, ih, ← Nat.add_assoc]
      rfl

theorem noTies_append (start value : α) (values : List α) :
    NoTies start (values ++ [value]) ↔
      NoTies start values ∧ value ≠ values.foldl max start := by
  induction values generalizing start with
  | nil => exact and_comm
  | cons first values ih =>
      rw [List.cons_append, NoTies, ih, ← and_assoc]
      rfl

theorem records_le_length (start : α) (values : List α) :
    records start values ≤ values.length := by
  induction values generalizing start with
  | nil => exact Nat.le_refl 0
  | cons value values ih =>
      have hrest := ih (max start value)
      rw [records, List.length_cons]
      split_ifs <;> omega

theorem getElem?_running (start : α) (values : List α) {i : ℕ} (hi : i < values.length) :
    (running start values)[i]? = some ((values.take i).foldl max start) := by
  induction values generalizing start i with
  | nil => exact absurd hi (Nat.not_lt_zero i)
  | cons value values ih =>
      cases i with
      | zero => rfl
      | succ i => exact ih _ (Nat.lt_of_succ_lt_succ hi)

/-- The records are the values above the maximum before them. -/
theorem records_eq_countP (start : α) (values : List α) :
    records start values =
      (values.zip (running start values)).countP fun pair => pair.2 < pair.1 := by
  induction values generalizing start with
  | nil => rfl
  | cons value values ih =>
      rw [records, running, List.zip_cons_cons, List.countP_cons, ih, Nat.add_comm]
      simp only [decide_eq_true_eq]

theorem NoTies.ne_of_mem_zip {start : α} {values : List α} (h : NoTies start values)
    {pair : α × α} (hpair : pair ∈ values.zip (running start values)) : pair.1 ≠ pair.2 := by
  induction values generalizing start with
  | nil => cases hpair
  | cons value values ih =>
      cases List.mem_cons.mp hpair with
      | inl heq => exact heq ▸ h.1
      | inr hmem => exact ih h.2 hmem

/-- A left fold of maxima is the greatest of the values and the start. -/
theorem isGreatest_foldl_max (start : α) (values : List α) :
    IsGreatest {value | value ∈ start :: values} (values.foldl max start) := by
  induction values generalizing start with
  | nil =>
      constructor
      · exact List.mem_cons_self
      · intro value hvalue
        exact (List.mem_singleton.mp hvalue).le
  | cons first values ih =>
      obtain ⟨hmem, hupper⟩ := ih (max start first)
      have hmax : max start first ≤ values.foldl max (max start first) :=
        hupper List.mem_cons_self
      constructor
      · cases List.mem_cons.mp hmem with
        | inr hlater => exact List.mem_cons_of_mem start (List.mem_cons_of_mem first hlater)
        | inl heq =>
            show values.foldl max (max start first) ∈ start :: first :: values
            rw [heq]
            cases max_choice start first with
            | inl hleft =>
                rw [hleft]
                exact List.mem_cons_self
            | inr hright =>
                rw [hright]
                exact List.mem_cons_of_mem start List.mem_cons_self
      · intro value hvalue
        cases List.mem_cons.mp hvalue with
        | inl heq => exact heq ▸ (le_max_left start first).trans hmax
        | inr hrest =>
            cases List.mem_cons.mp hrest with
            | inl heq => exact heq ▸ (le_max_right start first).trans hmax
            | inr hlater => exact hupper (List.mem_cons_of_mem _ hlater)

end Colata.Math
