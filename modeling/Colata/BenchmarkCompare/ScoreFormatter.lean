/-
# The score formatter

A score below half a unit of the last decimal is shown as a power of ten. An error is
shown as a whole unit at least, however small it is. Scores and errors are exact here,
and `none` stands for `NaN`.
-/

import Colata.BenchmarkCompare.DenseClassNames
import Colata.Languages.Java.Format

namespace Colata.BenchmarkCompare

open Colata.Java Colata.Math

/-- An exact decimal or `NaN`. -/
abbrev Score := Option ℚ

namespace ScoreFormatter

variable (precision : ℕ)

/-- `1.0 / Math.pow(10, PRECISION)`, where the power overflows to infinity from 309 on. -/
def ulp : ℚ := if precision ≤ 308 then 1 / 10 ^ precision else 0

def threshold : ℚ := ulp precision / 2

def isApproximate (score : Score) : Bool := score.any fun x => x < threshold precision

/-- The characters that `superscript` replaces, in its order. -/
def superscripts : List (Char × Char) :=
  [('-', '\u207b'), ('0', '\u2070'), ('1', '\u00b9'), ('2', '\u00b2'), ('3', '\u00b3'),
    ('4', '\u2074'), ('5', '\u2075'), ('6', '\u2076'), ('7', '\u2077'), ('8', '\u2078'),
    ('9', '\u2079')]

/-- `str.replaceAll(old, replacement)` for single characters. -/
def replaceAll (str : Units) (pair : Char × Char) : Units :=
  str.map fun unit => if unit = pair.1.toNat then pair.2.toNat else unit

def superscript (str : Units) : Units := superscripts.foldl replaceAll str

/-- `(int) Math.round(Math.log10(score))` -/
def power (score : Score) : ℤ := wrapInt (score.elim 0 roundLog10)

/-- The text of an approximate score. -/
def approximation (score : Score) : Units :=
  utf16 "\u2248 " ++
    if power score ≠ 0 then utf16 "10" ++ superscript (decimal (power score)) else utf16 "0"

/-- `String.format("%." + PRECISION + "f", score)` -/
def decimals (score : Score) : Units := score.elim (utf16 "NaN") (fixed precision)

def format (score : Score) : Units :=
  if isApproximate precision score then approximation score else decimals precision score

/-- `format(width, score)` -/
def formatField (width : ℕ) (score : Score) : Cell ℕ :=
  if isApproximate precision score then field width (approximation score)
  else field width (decimals precision score)

def formatError (width : ℕ) (error : Score) : Cell ℕ :=
  field width (decimals precision (error.map fun x => max x (ulp precision)))

/-! ## The text and its length -/

theorem formatField_eq (width : ℕ) (score : Score) :
    formatField precision width score = field width (format precision score) := by
  unfold formatField format
  split_ifs
  · rfl
  · rfl

theorem length_superscript (str : Units) : (superscript str).length = str.length := by
  suffices hall : ∀ (pairs : List (Char × Char)) (str : Units),
      (pairs.foldl replaceAll str).length = str.length from hall superscripts str
  intro pairs
  induction pairs with
  | nil => exact fun _ => rfl
  | cons pair pairs ih =>
      intro str
      rw [List.foldl_cons, ih, replaceAll, List.length_map]

theorem length_approximation (score : Score) :
    (approximation score).length =
      if power score ≠ 0 then (decimal (power score)).length + 4 else 3 := by
  have hsign : (utf16 "\u2248 ").length = 2 := by decide
  have hten : (utf16 "10").length = 2 := by decide
  have hzero : (utf16 "0").length = 1 := by decide
  rw [approximation, List.length_append, hsign]
  split_ifs
  · rw [List.length_append, hten, length_superscript]
    omega
  · rw [hzero]

theorem ulp_nonneg : 0 ≤ ulp precision := by
  unfold ulp
  split_ifs
  · positivity
  · exact le_refl 0

theorem threshold_nonneg : 0 ≤ threshold precision := div_nonneg (ulp_nonneg precision) (by simp)

theorem isApproximate_some {x : ℚ} :
    isApproximate precision (some x) = true ↔ x < threshold precision := by
  rw [isApproximate, Option.any_some, decide_eq_true_iff]

theorem scaled_ulp_le_one : scaled precision (ulp precision) ≤ 1 := by
  unfold ulp
  split_ifs
  · rw [scaled_eq_one (half_le_self (by positivity)) (le_refl _)]
  · rw [scaled, abs_zero, zero_mul, zero_add, Nat.floor_eq_zero.mpr (by norm_num)]
    exact Nat.zero_le 1

/-- The unit itself, which is what the smallest errors are shown as. -/
theorem length_fixed_ulp {precision : ℕ} (hprecision : 0 < precision) :
    (fixed precision (ulp precision)).length = precision + 2 := by
  have hwhole : scaled precision (ulp precision) / 10 ^ precision = 0 :=
    Nat.div_eq_of_lt ((scaled_ulp_le_one precision).trans_lt
      (Nat.one_lt_pow hprecision.ne' (by decide)))
  have hdigit : (digits 0).length = 1 := by decide
  rw [length_fixed hprecision (ulp_nonneg precision), hwhole, hdigit]
  omega

theorem length_fixed_ulp_le (precision : ℕ) :
    (fixed precision (ulp precision)).length ≤ precision + 2 := by
  rcases Nat.eq_zero_or_pos precision with rfl | hprecision
  · decide +kernel
  · exact (length_fixed_ulp hprecision).le

/-- An error that is not approximate looks the same as a score. -/
theorem formatError_eq (width : ℕ) {error : Score} (h : isApproximate precision error = false) :
    formatError precision width error = field width (format precision error) := by
  rw [format, h, if_neg Bool.false_ne_true, formatError]
  cases error with
  | none => rfl
  | some x =>
      have hx : threshold precision ≤ x := by
        rw [← not_lt, ← isApproximate_some, h]
        exact Bool.false_ne_true
      have hnonneg : 0 ≤ x := (threshold_nonneg precision).trans hx
      suffices hsame : fixed precision (max x (ulp precision)) = fixed precision x by
        rw [Option.map_some, decimals, decimals, Option.elim_some, Option.elim_some, hsame]
      rcases le_total (ulp precision) x with hle | hle
      · rw [max_eq_left hle]
      · rw [max_eq_right hle]
        unfold threshold at hx
        unfold ulp at hx hle ⊢
        split_ifs at hx hle ⊢ with hfinite
        · exact fixed_congr (by positivity) hnonneg
            ((scaled_eq_one (half_le_self (by positivity)) (le_refl _)).trans
              (scaled_eq_one hx hle).symm)
        · rw [le_antisymm hle hnonneg]

/-- An approximate error is shown as one unit of the last decimal. -/
theorem formatError_of_approximate (width : ℕ) {error : Score}
    (h : isApproximate precision error = true) :
    formatError precision width error = field width (fixed precision (ulp precision)) := by
  cases error with
  | none => cases h
  | some x =>
      have hlt := (isApproximate_some precision).mp h
      have hx : x ≤ ulp precision := hlt.le.trans (half_le_self (ulp_nonneg precision))
      rw [formatError, Option.map_some, max_eq_right hx]
      rfl

/-- The score is a number that takes more characters than there are decimals. -/
def IsLong (score : Score) : Prop :=
  ∃ x, score = some x ∧
    (threshold precision ≤ x ∨ power score ≠ 0 ∧ precision ≤ (decimal (power score)).length + 3)

/-- With three decimals or more, only a number can take more characters than that. -/
theorem lt_length_format_iff {precision : ℕ} (hprecision : 3 ≤ precision) (score : Score) :
    precision < (format precision score).length ↔ IsLong precision score := by
  cases score with
  | none =>
      constructor
      · intro h
        exact absurd (show precision < 3 from h) (Nat.not_lt.mpr hprecision)
      · intro h
        obtain ⟨x, hx, _⟩ := h
        cases hx
  | some x =>
      rw [IsLong, format]
      cases happrox : isApproximate precision (some x) with
      | true =>
          have hx := (isApproximate_some precision).mp happrox
          rw [if_pos rfl, length_approximation]
          constructor
          · intro h
            split_ifs at h with hpower
            · exact ⟨x, rfl, Or.inr ⟨hpower, by omega⟩⟩
            · omega
          · intro h
            obtain ⟨y, heq, hlong⟩ := h
            obtain rfl := Option.some.inj heq
            rcases hlong with hlarge | ⟨hpower, hlength⟩
            · exact absurd hx (not_lt.mpr hlarge)
            · rw [if_pos hpower]
              omega
      | false =>
          have hx : threshold precision ≤ x := by
            rw [← not_lt, ← isApproximate_some, happrox]
            exact Bool.false_ne_true
          have hlength : (decimals precision (some x)).length =
              (digits (scaled precision x / 10 ^ precision)).length + 1 + precision :=
            length_fixed (by omega) ((threshold_nonneg precision).trans hx)
          rw [if_neg Bool.false_ne_true, hlength]
          exact ⟨fun _ => ⟨x, rfl, Or.inl hx⟩, fun _ => by omega⟩

end ScoreFormatter

end Colata.BenchmarkCompare
