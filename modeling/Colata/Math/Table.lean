/-
# Tables of padded cells

A cell fills its field with blanks, and a text longer than its field is shown whole.
Lines with the same fields have the same length exactly when no text is longer than
its field. The fields are measured by running maxima.
-/

import Mathlib.Algebra.Ring.Nat
import Mathlib.Data.List.Basic
import Mathlib.Order.MinMax

namespace Colata.Math

universe u v w

/-! ## Cells and lines -/

section Cells

variable {α : Type u}

/-- A text in a field, at the right end of it or at the left. -/
structure Cell (α : Type u) where
  width : ℕ
  text : List α
  left : Bool := false

/-- A text in a field of its own length. -/
def Cell.plain (text : List α) : Cell α := { width := text.length, text }

def Cell.shown (blank : α) (cell : Cell α) : List α :=
  if cell.left then cell.text.rightpad cell.width blank else cell.text.leftpad cell.width blank

/-- The text is no longer than its field. -/
def Cell.Fits (cell : Cell α) : Prop := cell.text.length ≤ cell.width

theorem Cell.fits_plain (text : List α) : (Cell.plain text).Fits := Nat.le_refl _

variable (blank : α)

theorem Cell.length_shown (cell : Cell α) :
    (cell.shown blank).length = max cell.width cell.text.length := by
  unfold Cell.shown
  split_ifs
  · exact List.length_rightpad
  · exact List.length_leftpad

theorem Cell.width_le_length_shown (cell : Cell α) : cell.width ≤ (cell.shown blank).length := by
  rw [length_shown]
  exact Nat.le_max_left _ _

theorem Cell.length_shown_eq_iff (cell : Cell α) :
    (cell.shown blank).length = cell.width ↔ cell.Fits := by
  rw [length_shown]
  exact max_eq_left_iff

/-- The cells of a line, one after the other. -/
def line (cells : List (Cell α)) : List α := cells.flatMap (Cell.shown blank)

theorem length_line_cons (cell : Cell α) (cells : List (Cell α)) :
    (line blank (cell :: cells)).length =
      (cell.shown blank).length + (line blank cells).length := by
  rw [line, List.flatMap_cons, List.length_append]
  rfl

theorem sum_width_le_length_line (cells : List (Cell α)) :
    (cells.map Cell.width).sum ≤ (line blank cells).length := by
  induction cells with
  | nil => exact Nat.le_refl _
  | cons cell cells ih =>
      rw [List.map_cons, List.sum_cons, length_line_cons]
      exact Nat.add_le_add (cell.width_le_length_shown blank) ih

/-- A line is as long as its fields together when every text fits its field. -/
theorem length_line_eq_iff (cells : List (Cell α)) :
    (line blank cells).length = (cells.map Cell.width).sum ↔ ∀ cell ∈ cells, cell.Fits := by
  induction cells with
  | nil => exact ⟨fun _ cell hcell => absurd hcell List.not_mem_nil, fun _ => rfl⟩
  | cons cell cells ih =>
      have hcell := cell.width_le_length_shown blank
      have hcells := sum_width_le_length_line blank cells
      rw [length_line_cons, List.map_cons, List.sum_cons, List.forall_mem_cons, ← ih,
        ← cell.length_shown_eq_iff blank]
      omega

/-- All lines have the same length. -/
def Aligned (lines : List (List α)) : Prop :=
  ∀ first ∈ lines, ∀ second ∈ lines, first.length = second.length

instance (lines : List (List α)) : Decidable (Aligned lines) := List.decidableBAll _ _

/-- Below a header that fits, rows with its fields are aligned exactly when they fit. -/
theorem aligned_iff {header : List (Cell α)} {rows : List (List (Cell α))}
    (hheader : ∀ cell ∈ header, cell.Fits)
    (hwidths : ∀ row ∈ rows, row.map Cell.width = header.map Cell.width) :
    Aligned ((header :: rows).map (line blank)) ↔ ∀ row ∈ rows, ∀ cell ∈ row, cell.Fits := by
  have hlength := (length_line_eq_iff blank header).mpr hheader
  constructor
  · intro h row hrow
    have hsame := h _ (List.mem_map_of_mem (List.mem_cons_of_mem _ hrow)) _
      (List.mem_map_of_mem List.mem_cons_self)
    rw [hlength, ← hwidths row hrow] at hsame
    exact (length_line_eq_iff blank row).mp hsame
  · intro h
    have hall : ∀ row ∈ header :: rows,
        (line blank row).length = (header.map Cell.width).sum := by
      intro row hrow
      rcases List.mem_cons.mp hrow with rfl | hmem
      · exact hlength
      · rw [← hwidths row hmem]
        exact (length_line_eq_iff blank row).mpr (h row hmem)
    intro first hfirst second hsecond
    obtain ⟨row, hrow, rfl⟩ := List.mem_map.mp hfirst
    obtain ⟨other, hother, rfl⟩ := List.mem_map.mp hsecond
    rw [hall row hrow, hall other hother]

end Cells

/-! ## Running maxima -/

section Maxima

variable {σ : Type u} {β : Type v} {γ : Type w} [LinearOrder γ] (f : σ → γ) (g : β → γ)

/-- A loop whose turns raise `f` to `g` of the element leaves it at the largest of these. -/
theorem le_foldl_iff {step : σ → β → σ}
    (hstep : ∀ state x, f (step state x) = max (f state) (g x)) {bound : γ} (xs : List β)
    (state : σ) : bound ≤ f (xs.foldl step state) ↔ bound ≤ f state ∨ ∃ x ∈ xs, bound ≤ g x := by
  induction xs generalizing state with
  | nil => simp
  | cons x xs ih =>
      rw [List.foldl_cons, ih, hstep, le_max_iff, or_assoc, List.exists_mem_cons_iff]

/-- The same for a loop that may fail, where it does not. -/
theorem le_foldlM_iff {ε : Type v} {step : σ → β → Except ε σ}
    (hstep : ∀ state x next, step state x = .ok next → f next = max (f state) (g x)) {bound : γ}
    {xs : List β} {state last : σ} (h : xs.foldlM step state = .ok last) :
    bound ≤ f last ↔ bound ≤ f state ∨ ∃ x ∈ xs, bound ≤ g x := by
  induction xs generalizing state with
  | nil =>
      obtain rfl : state = last := Except.ok.inj h
      simp
  | cons x xs ih =>
      rw [List.foldlM_cons] at h
      cases hnext : step state x with
      | error failure =>
          rw [hnext] at h
          cases h
      | ok next =>
          rw [hnext] at h
          rw [ih h, hstep state x next hnext, le_max_iff, or_assoc, List.exists_mem_cons_iff]

end Maxima

end Colata.Math
