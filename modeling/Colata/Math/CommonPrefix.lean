/-
# Common prefixes

The longest common prefix of two lists is the greatest lower bound for the prefix order,
and a list is known by its prefixes.
-/

import Mathlib.Data.List.Infix
import Mathlib.Data.List.Basic

namespace Colata.Math

variable {α : Type*}

def commonPrefix [DecidableEq α] : List α → List α → List α
  | a :: first, b :: second => if a = b then a :: commonPrefix first second else []
  | _, _ => []

theorem isPrefix_commonPrefix_iff [DecidableEq α] {list first second : List α} :
    list <+: commonPrefix first second ↔ list <+: first ∧ list <+: second := by
  induction first generalizing list second with
  | nil => simp +contextual [commonPrefix]
  | cons a first ih =>
    cases second with
    | nil => simp +contextual [commonPrefix]
    | cons b second =>
      cases list with
      | nil => simp
      | cons c list =>
        unfold commonPrefix
        split_ifs with hab
        · rw [List.cons_prefix_cons, List.cons_prefix_cons, List.cons_prefix_cons, ih, hab]
          tauto
        · rw [List.cons_prefix_cons, List.cons_prefix_cons]
          simp only [List.prefix_nil, List.cons_ne_nil, false_iff]
          rintro ⟨⟨rfl, _⟩, rfl, _⟩
          exact hab rfl

/-- Lists with the same prefixes are equal. -/
theorem eq_of_isPrefix_iff {first second : List α}
    (h : ∀ list, list <+: first ↔ list <+: second) : first = second := by
  have hfirst := (h first).mp List.prefix_rfl
  have hsecond := (h second).mpr List.prefix_rfl
  exact hfirst.eq_of_length_le hsecond.length_le

end Colata.Math
