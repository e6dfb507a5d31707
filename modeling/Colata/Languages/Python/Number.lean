/-
# Numerals that Python reads and writes

A number is written with its digits in some base, most significant first. The digits give
the number back, so that `int` with base 0 reads the decimal and hexadecimal numerals that
programs print, and the `+#x` format tells all integers apart.
-/

import Colata.Languages.Python.Text
import Mathlib.Data.Nat.Digits.Lemmas

namespace Colata.Python

/-! ## Digits -/

section Digits

variable {base : ℕ} {value : Char → ℕ}

/-- The value of a numeral. -/
def numeralValue (base : ℕ) (value : Char → ℕ) (digits : Text) : ℕ :=
  Nat.ofDigits base (digits.map value).reverse

theorem numeralValue_append (first second : Text) :
    numeralValue base value (first ++ second) =
      numeralValue base value first * base ^ second.length + numeralValue base value second := by
  rw [numeralValue, List.map_append, List.reverse_append, Nat.ofDigits_append, List.length_reverse,
    List.length_map, Nat.add_comm, Nat.mul_comm]
  rfl

theorem numeralValue_singleton (c : Char) : numeralValue base value [c] = value c :=
  Nat.ofDigits_singleton

theorem numeralValue_lt (hbase : 1 < base) {digits : Text} (hdigits : ∀ c ∈ digits, value c < base) :
    numeralValue base value digits < base ^ digits.length := by
  have hlength : (digits.map value).reverse.length = digits.length := by simp
  rw [← hlength]
  apply Nat.ofDigits_lt_base_pow_length hbase
  intro digit hdigit
  obtain ⟨c, hc, rfl⟩ := List.mem_map.mp (List.mem_reverse.mp hdigit)
  exact hdigits c hc

/-- A digit that is not zero makes the value as large as its place. -/
theorem pow_le_numeralValue {c : Char} (hc : 0 < value c) (first rest : Text) :
    base ^ rest.length ≤ numeralValue base value (first ++ c :: rest) := by
  have hsplit : first ++ c :: rest = first ++ [c] ++ rest := by simp
  rw [hsplit, numeralValue_append]
  have hpositive : 0 < numeralValue base value (first ++ [c]) := by
    rw [numeralValue_append, numeralValue_singleton]
    exact Nat.add_pos_right _ hc
  exact (Nat.le_mul_of_pos_left _ hpositive).trans (Nat.le_add_right _ _)

/-- The digits of a number have its value. -/
theorem numeralValue_toDigits (hbase : 1 < base)
    (hvalue : ∀ digit < base, value (Nat.digitChar digit) = digit) (n : ℕ) :
    numeralValue base value (Nat.toDigits base n) = n := by
  induction n using Nat.strong_induction_on with
  | h n ih =>
      rw [Nat.toDigits_eq_if hbase]
      split_ifs with hsmall
      · rw [numeralValue_singleton, hvalue n hsmall]
      · have hrest := ih (n / base) (Nat.div_lt_self (by omega) hbase)
        rw [numeralValue_append, hrest, numeralValue_singleton,
          hvalue _ (Nat.mod_lt n (by omega)), List.length_singleton, pow_one, Nat.div_add_mod']

/-- Only zero starts with a zero. -/
theorem eq_zero_of_head?_toDigits (hbase : 1 < base)
    (hvalue : ∀ digit < base, value (Nat.digitChar digit) = digit) {n : ℕ} {c : Char}
    (hhead : (Nat.toDigits base n).head? = some c) (hzero : value c = 0) : n = 0 := by
  induction n using Nat.strong_induction_on with
  | h n ih =>
      rw [Nat.toDigits_eq_if hbase] at hhead
      split_ifs at hhead with hsmall
      · obtain rfl := Option.some.inj hhead
        rwa [hvalue n hsmall] at hzero
      · rw [List.head?_append_of_ne_nil _ Nat.toDigits_ne_nil] at hhead
        have hrest := ih (n / base) (Nat.div_lt_self (by omega) hbase) hhead
        have hpos := Nat.div_pos (not_lt.mp hsmall) (by omega : 0 < base)
        omega

theorem mem_toDigits (hbase : 1 < base) {n : ℕ} {c : Char} (hc : c ∈ Nat.toDigits base n) :
    ∃ digit < base, c = Nat.digitChar digit := by
  induction n using Nat.strong_induction_on with
  | h n ih =>
      rw [Nat.toDigits_eq_if hbase] at hc
      split_ifs at hc with hsmall
      · exact ⟨n, hsmall, List.mem_singleton.mp hc⟩
      · cases List.mem_append.mp hc with
        | inl hrest => exact ih (n / base) (Nat.div_lt_self (by omega) hbase) hrest
        | inr hlast => exact ⟨n % base, Nat.mod_lt n (by omega), List.mem_singleton.mp hlast⟩

end Digits

/-! ## Decimal numerals -/

/-- The value of a decimal digit, which `int` takes. -/
def decimalDigit (c : Char) : ℕ := (decimalValue c).getD 0

theorem decimalDigit_lt (c : Char) : decimalDigit c < 10 := by
  unfold decimalDigit decimalValue
  cases hstart : decimalZeros.find? fun start => start ≤ c.toNat && c.toNat ≤ start + 9 with
  | none => exact Nat.zero_lt_succ 9
  | some start =>
      have hin := List.find?_some hstart
      simp only [Bool.and_eq_true, decide_eq_true_eq] at hin
      show c.toNat - start < 10
      omega

theorem filterMap_decimalValue {digits : Text} (hdigits : ∀ c ∈ digits, isDecimal c) :
    digits.filterMap decimalValue = digits.map decimalDigit := by
  rw [← List.filterMap_eq_map]
  apply List.filterMap_congr
  intro c hc
  obtain ⟨digit, hdigit⟩ := Option.isSome_iff_exists.mp (hdigits c hc)
  rw [hdigit, Function.comp_apply, decimalDigit, hdigit, Option.getD_some]

/-- A numeral that `int` takes has its value. -/
theorem decimalToNat_eq_some {digits : Text} (hdigits : ∀ c ∈ digits, isDecimal c) {n : ℕ}
    (h : decimalToNat digits = some n) : n = numeralValue 10 decimalDigit digits := by
  rw [decimalToNat, filterMap_decimalValue hdigits] at h
  exact (Option.some.inj (Option.ite_none_right_eq_some.mp h).2).symm

theorem digitChar_decimal : ∀ digit < 10, isDecimal (Nat.digitChar digit) ∧
    decimalDigit (Nat.digitChar digit) = digit ∧ Nat.digitChar digit ≠ 'x' ∧
    Nat.digitChar digit ≠ '-' := by
  decide +kernel

theorem decimalToNat_toDigits (n : ℕ) : decimalToNat (Nat.toDigits 10 n) = some n := by
  have hvalue : ∀ digit < 10, decimalDigit (Nat.digitChar digit) = digit :=
    fun digit hdigit => (digitChar_decimal digit hdigit).2.1
  have hdigits : ∀ c ∈ Nat.toDigits 10 n, isDecimal c := by
    intro c hc
    obtain ⟨digit, hdigit, rfl⟩ := mem_toDigits (by decide) hc
    exact (digitChar_decimal digit hdigit).1
  have hzero : ((Nat.toDigits 10 n).map decimalDigit).head? = some 0 →
      ∀ digit ∈ (Nat.toDigits 10 n).map decimalDigit, digit = 0 := by
    intro hhead
    rw [List.head?_map, Option.map_eq_some_iff] at hhead
    obtain ⟨c, hc, hvalue'⟩ := hhead
    rw [eq_zero_of_head?_toDigits (by decide) hvalue hc hvalue']
    decide
  rw [decimalToNat, filterMap_decimalValue hdigits, if_pos]
  · exact congrArg some (numeralValue_toDigits (by decide) hvalue n)
  · exact ⟨List.length_map _, List.map_eq_nil_iff.not.mpr Nat.toDigits_ne_nil, hzero⟩

/-- `-` before a negative number. -/
def sign (x : ℤ) : Text := if x < 0 then ['-'] else []

/-- The format `d`. -/
def decimal (x : ℤ) : Text := sign x ++ Nat.toDigits 10 x.natAbs

/-- What `int` makes of a text of digits. -/
theorem toInt_of_digits {digits : Text} (hdigits : ∀ c ∈ digits, isDecimal c) :
    toInt digits = (decimalToNat digits).map Int.ofNat := by
  have hx : isDecimal 'x' = false := by decide +kernel
  have hminus : isDecimal '-' = false := by decide +kernel
  unfold toInt
  split
  · rw [hdigits 'x' (by simp)] at hx
    cases hx
  · rw [hdigits '-' (by simp)] at hminus
    cases hminus
  · cases decimalToNat digits <;> rfl

/-- `int` reads a number that is printed in decimal. -/
theorem toInt_decimal (x : ℤ) : toInt (decimal x) = some x := by
  have hdigits : ∀ c ∈ Nat.toDigits 10 x.natAbs, isDecimal c := by
    intro c hc
    obtain ⟨digit, hdigit, rfl⟩ := mem_toDigits (by decide) hc
    exact (digitChar_decimal digit hdigit).1
  rw [decimal, sign]
  split_ifs with hneg
  · rw [List.singleton_append, toInt, decimalToNat_toDigits]
    show some (-(x.natAbs : ℤ)) = some x
    rw [Int.ofNat_natAbs_of_nonpos hneg.le, neg_neg]
  · rw [List.nil_append, toInt_of_digits hdigits, decimalToNat_toDigits]
    exact congrArg some (Int.natAbs_of_nonneg (not_lt.mp hneg))

/-! ## Hexadecimal numerals -/

theorem hexValue_digitChar : ∀ digit < 16, hexValue (Nat.digitChar digit) = digit := by
  decide +kernel

/-- The format tells all integers apart. -/
theorem signedHex_injective : Function.Injective signedHex := by
  intro x y h
  simp only [signedHex, List.cons.injEq, true_and] at h
  obtain ⟨hsign, hdigits⟩ := h
  have hvalue := congrArg (numeralValue 16 hexValue) hdigits
  rw [numeralValue_toDigits (by decide) hexValue_digitChar,
    numeralValue_toDigits (by decide) hexValue_digitChar] at hvalue
  have hsame : 0 ≤ x ↔ 0 ≤ y := by
    constructor
    · intro hx
      by_contra hy
      rw [if_pos hx, if_neg hy] at hsign
      exact absurd hsign (by decide)
    · intro hy
      by_contra hx
      rw [if_neg hx, if_pos hy] at hsign
      exact absurd hsign (by decide)
  omega

end Colata.Python
