/-
# The labels of loads

`mem_name` labels a memory operand with its displacement, which an unanchored search finds
before the parenthesis. The search takes the first suffix of what stands there that is a
number. For a displacement in decimal or in hexadecimal this is all of it; the minus sign
of a hexadecimal one is left out, and so is what comes before the last capital letter.
-/

import Colata.CompareMaxShape.Analyze
import Colata.Languages.Python.Number
import Colata.Math.RegexTexts

namespace Colata.CompareMaxShape

open Colata.Math Colata.Python

/-! ## Numbers before a parenthesis -/

/-- `0x[0-9a-f]+` -/
def IsHexNumber (text : Text) : Prop :=
  ∃ digits, (digits ≠ [] ∧ ∀ c ∈ digits, isHexDigit c) ∧ text = '0' :: 'x' :: digits

/-- `-?\d+` -/
def IsDecimalNumber (text : Text) : Prop :=
  ∃ digits, (digits ≠ [] ∧ ∀ c ∈ digits, isDecimal c) ∧ (text = digits ∨ text = '-' :: digits)

def IsNumber (text : Text) : Prop := text = [] ∨ IsHexNumber text ∨ IsDecimalNumber text

theorem reads_hexNumber :
    Regex.Reads (.seq (.literal "0x") (.plus (.char isHexDigit))) IsHexNumber := by
  apply ((Regex.reads_literal "0x").seq Regex.reads_plus_char).congr
  intro taken
  constructor
  · rintro ⟨_, digits, rfl, hdigits, rfl⟩
    exact ⟨digits, hdigits, rfl⟩
  · rintro ⟨digits, hdigits, rfl⟩
    exact ⟨_, digits, rfl, hdigits, rfl⟩

theorem reads_decimalNumber :
    Regex.Reads (.seq (.opt (.literal "-")) (.plus (.char isDecimal))) IsDecimalNumber := by
  apply ((Regex.reads_literal "-").opt.seq Regex.reads_plus_char).congr
  intro taken
  constructor
  · rintro ⟨_, digits, ⟨rfl, _⟩ | rfl, hdigits, rfl⟩
    · exact ⟨digits, hdigits, Or.inr rfl⟩
    · exact ⟨_, hdigits, Or.inl rfl⟩
  · rintro ⟨digits, hdigits, rfl | rfl⟩
    · exact ⟨[], taken, Or.inr rfl, hdigits, rfl⟩
    · exact ⟨['-'], digits, Or.inl ⟨rfl, List.cons_ne_nil _ _⟩, hdigits, rfl⟩

/-- `\(%[^)]*\)` -/
def IsRegisters (text : Text) : Prop :=
  ∃ inside, ')' ∉ inside ∧ text = "(%".toList ++ (inside ++ [')'])

theorem reads_registers :
    Regex.Reads (.sequence [.literal "(%", .star true (.char (· != ')')), .literal ")"])
      IsRegisters := by
  apply ((Regex.reads_literal "(%").seq
    (Regex.reads_star_char.seq ((Regex.reads_literal ")").seq Regex.reads_empty))).congr
  intro taken
  constructor
  · rintro ⟨_, _, rfl, ⟨inside, _, hinside, ⟨_, _, rfl, rfl, rfl⟩, rfl⟩, rfl⟩
    exact ⟨inside, fun hmem => by simpa using hinside ')' hmem, rfl⟩
  · rintro ⟨inside, hinside, rfl⟩
    refine ⟨_, _, rfl, ⟨inside, _, fun c hc => ?_, ⟨_, _, rfl, rfl, rfl⟩, rfl⟩, rfl⟩
    simpa using fun heq : c = ')' => hinside (heq ▸ hc)

theorem IsHexNumber.ne_nil {text : Text} (h : IsHexNumber text) : text ≠ [] := by
  obtain ⟨digits, _, rfl⟩ := h
  exact List.cons_ne_nil _ _

theorem IsDecimalNumber.ne_nil {text : Text} (h : IsDecimalNumber text) : text ≠ [] := by
  obtain ⟨digits, ⟨hne, _⟩, rfl | rfl⟩ := h
  · exact hne
  · exact List.cons_ne_nil _ _

/-- The characters that no number has. -/
def OutsideNumbers (c : Char) : Prop :=
  isHexDigit c = false ∧ isDecimal c = false ∧ c ≠ 'x' ∧ c ≠ '-'

instance : DecidablePred OutsideNumbers :=
  fun c => inferInstanceAs
    (Decidable (isHexDigit c = false ∧ isDecimal c = false ∧ c ≠ 'x' ∧ c ≠ '-'))

theorem IsNumber.notMem {text : Text} (h : IsNumber text) {c : Char} (hc : OutsideNumbers c) :
    c ∉ text := by
  obtain ⟨hhex, hdecimal, hx, hminus⟩ := hc
  intro hmem
  rcases h with rfl | ⟨digits, ⟨_, hdigits⟩, rfl⟩ | ⟨digits, ⟨_, hdigits⟩, rfl | rfl⟩
  · cases hmem
  · rcases List.mem_cons.mp hmem with rfl | hmem
    · exact absurd hhex (by decide)
    · rcases List.mem_cons.mp hmem with rfl | hmem
      · exact hx rfl
      · exact absurd (hdigits c hmem) (by simp [hhex])
  · exact absurd (hdigits c hmem) (by simp [hdecimal])
  · rcases List.mem_cons.mp hmem with rfl | hmem
    · exact hminus rfl
    · exact absurd (hdigits c hmem) (by simp [hdecimal])

/-- No number has both a minus sign and an `x`. -/
theorem not_isNumber_of_mem {text : Text} (hminus : '-' ∈ text) (hx : 'x' ∈ text) :
    ¬ IsNumber text := by
  have hxDecimal : isDecimal 'x' = false := by decide +kernel
  rintro (rfl | ⟨digits, ⟨_, hdigits⟩, rfl⟩ | ⟨digits, ⟨_, hdigits⟩, rfl | rfl⟩)
  · cases hx
  · have hmem : '-' ∈ digits := by simpa using hminus
    exact absurd (hdigits '-' hmem) (by decide)
  · exact absurd (hdigits 'x' hx) (by simp [hxDecimal])
  · have hmem : 'x' ∈ digits := by simpa using hx
    exact absurd (hdigits 'x' hmem) (by simp [hxDecimal])

/-- The text that `mem_name` makes an integer of. -/
def rawOf (number : Text) : Text := if number = [] then ['0'] else number

/-- What the pattern matches: a number, or nothing, and the registers. -/
theorem exists_of_mem_run_memOff {position : ℕ} {text : Text} {next : Regex.State}
    (h : next ∈ memOff.run ⟨position, text, []⟩) :
    ∃ number registers after, text = number ++ (registers ++ after) ∧ IsNumber number ∧
      IsRegisters registers ∧
      (next.captured 1).getD ((next.captured 2).getD ['0']) = rawOf number := by
  obtain ⟨middle, hmiddle, hnext⟩ := Regex.mem_run_sequence_cons.mp h
  obtain ⟨registers, hregisters, after, hrest, rfl⟩ := (reads_registers middle next).mp hnext
  rw [Regex.mem_run_opt, Regex.mem_run_alt, reads_hexNumber.mem_run_group,
    reads_decimalNumber.mem_run_group] at hmiddle
  rcases hmiddle with ⟨⟨number, rest, hnumber, htext, rfl⟩ | ⟨number, rest, hnumber, htext, rfl⟩, _⟩ |
    rfl
  · obtain rfl : rest = registers ++ after := hrest
    exact ⟨number, registers, after, htext, Or.inr (Or.inl hnumber), hregisters,
      (if_neg hnumber.ne_nil).symm⟩
  · obtain rfl : rest = registers ++ after := hrest
    exact ⟨number, registers, after, htext, Or.inr (Or.inr hnumber), hregisters,
      (if_neg hnumber.ne_nil).symm⟩
  · exact ⟨[], registers, after, hrest, Or.inl rfl, hregisters, rfl⟩

theorem exists_mem_run_memOff {number registers : Text} (hnumber : IsNumber number)
    (hregisters : IsRegisters registers) (position : ℕ) (after : Text) :
    ∃ next, next ∈ memOff.run ⟨position, number ++ (registers ++ after), []⟩ := by
  have hopt : ∃ middle ∈ Regex.run (.opt (.alt
      (.group 1 (.seq (.literal "0x") (.plus (.char isHexDigit))))
      (.group 2 (.seq (.opt (.literal "-")) (.plus (.char isDecimal))))))
      ⟨position, number ++ (registers ++ after), []⟩, middle.rest = registers ++ after := by
    rcases hnumber with rfl | hhex | hdecimal
    · exact ⟨_, Regex.mem_run_opt.mpr (Or.inr rfl), rfl⟩
    · have hgroup := reads_hexNumber.group_mem_run hhex 1 position (registers ++ after) []
      exact ⟨_, Regex.mem_run_opt_of_ne_nil (Regex.mem_run_alt.mpr (Or.inl hgroup)) rfl
        hhex.ne_nil, rfl⟩
    · have hgroup := reads_decimalNumber.group_mem_run hdecimal 2 position (registers ++ after) []
      exact ⟨_, Regex.mem_run_opt_of_ne_nil (Regex.mem_run_alt.mpr (Or.inr hgroup)) rfl
        hdecimal.ne_nil, rfl⟩
  obtain ⟨middle, hmiddle, hrest⟩ := hopt
  exact ⟨_, Regex.mem_run_sequence_cons.mpr ⟨middle, hmiddle,
    (reads_registers middle _).mpr ⟨registers, hregisters, after, hrest, rfl⟩⟩⟩

theorem takeWhile_parenthesis {number registers : Text} (hnumber : '(' ∉ number)
    (hregisters : IsRegisters registers) (after : Text) :
    (number ++ (registers ++ after)).takeWhile (· ≠ '(') = number := by
  obtain ⟨inside, _, rfl⟩ := hregisters
  have hall : ∀ c ∈ number, decide (c ≠ '(') = true :=
    fun c hc => decide_eq_true fun heq => hnumber (heq ▸ hc)
  rw [List.takeWhile_append_of_pos hall]
  show number ++ [] = number
  rw [List.append_nil]

/-- What stands before the first parenthesis is determined. -/
theorem eq_of_append_registers {first second registers registers' after after' : Text}
    (hfirst : '(' ∉ first) (hregisters : IsRegisters registers) (hsecond : '(' ∉ second)
    (hregisters' : IsRegisters registers')
    (h : first ++ (registers ++ after) = second ++ (registers' ++ after')) : first = second := by
  have hsame := congrArg (List.takeWhile (· ≠ '(')) h
  rwa [takeWhile_parenthesis hfirst hregisters, takeWhile_parenthesis hsecond hregisters'] at hsame

/-- From the start of a number on, this number is matched. -/
theorem exists_head?_run_memOff {number registers : Text} (hnumber : IsNumber number)
    (hregisters : IsRegisters registers) (position : ℕ) (after : Text) :
    ∃ found, (memOff.run ⟨position, number ++ (registers ++ after), []⟩).head? = some found ∧
      (found.captured 1).getD ((found.captured 2).getD ['0']) = rawOf number := by
  obtain ⟨next, hnext⟩ := exists_mem_run_memOff hnumber hregisters position after
  obtain ⟨found, others, hrun⟩ := List.exists_cons_of_ne_nil (List.ne_nil_of_mem hnext)
  have hfound : found ∈ memOff.run ⟨position, number ++ (registers ++ after), []⟩ := by
    rw [hrun]
    exact List.mem_cons_self
  obtain ⟨other, registers', after', htext, hother, hregisters', hraw⟩ :=
    exists_of_mem_run_memOff hfound
  have hsame : number = other := eq_of_append_registers (hnumber.notMem (by decide +kernel))
    hregisters (hother.notMem (by decide +kernel)) hregisters' htext
  exact ⟨found, by rw [hrun, List.head?_cons], by rw [hraw, hsame]⟩

/-- The label that `mem_name` makes of a number. -/
def labelOf (raw : Text) : Text :=
  match toInt raw with
  | none => "MEM[".toList ++ raw ++ [']']
  | some value => "MEM[".toList ++ signedHex value ++ [']']

/-- The label is that of the number before the parenthesis that starts first. -/
theorem memName_eq {before number registers : Text} (hbefore : '(' ∉ before)
    (hnumber : IsNumber number) (hregisters : IsRegisters registers)
    (hfirst : ∀ skipped rest, before = skipped ++ rest → rest ≠ [] → ¬ IsNumber (rest ++ number))
    (after : Text) :
    memName (before ++ (number ++ (registers ++ after))) = labelOf (rawOf number) := by
  obtain ⟨found, hfound, hraw⟩ :=
    exists_head?_run_memOff hnumber hregisters (0 + before.length) after
  have hsearch : memOff.search (before ++ (number ++ (registers ++ after))) = some found := by
    rw [Regex.search, Regex.searchFrom_append, Regex.searchFrom_of_head? hfound]
    intro skipped rest hsplit hne position
    rw [← List.append_assoc, List.eq_nil_iff_forall_not_mem]
    intro next hnext
    obtain ⟨other, registers', after', htext, hother, hregisters', _⟩ :=
      exists_of_mem_run_memOff hnext
    have hclean : '(' ∉ rest ++ number := by
      rw [List.mem_append, not_or]
      refine ⟨fun hmem => hbefore ?_, hnumber.notMem (by decide +kernel)⟩
      rw [hsplit]
      exact List.mem_append_right skipped hmem
    have hsame : rest ++ number = other := eq_of_append_registers hclean hregisters
      (hother.notMem (by decide +kernel)) hregisters' htext
    exact hfirst skipped rest hsplit hne (hsame ▸ hother)
  rw [memName, hsearch]
  show labelOf _ = _
  rw [hraw]

/-- Every text ends in a number that starts first. -/
theorem exists_number (text : Text) :
    ∃ before number, text = before ++ number ∧ IsNumber number ∧
      ∀ skipped rest, before = skipped ++ rest → rest ≠ [] → ¬ IsNumber (rest ++ number) := by
  induction text with
  | nil =>
      refine ⟨[], [], rfl, Or.inl rfl, fun skipped rest hsplit hne => ?_⟩
      exact absurd (List.append_eq_nil_iff.mp hsplit.symm).2 hne
  | cons c text ih =>
      by_cases hnumber : IsNumber (c :: text)
      · refine ⟨[], c :: text, rfl, hnumber, fun skipped rest hsplit hne => ?_⟩
        exact absurd (List.append_eq_nil_iff.mp hsplit.symm).2 hne
      · obtain ⟨before, number, rfl, hnum, hfirst⟩ := ih
        refine ⟨c :: before, number, rfl, hnum, fun skipped rest hsplit hne => ?_⟩
        cases skipped with
        | nil =>
            obtain rfl : c :: before = rest := hsplit
            exact hnumber
        | cons first skipped => exact hfirst skipped rest (List.cons.inj hsplit).2 hne

/-! ## Memory operands -/

/-- The value of a hexadecimal digit in either case. -/
def hexDigitValue (c : Char) : ℕ := hexValue c.toLower

/-- How a displacement is printed: not at all if it is zero, in decimal, or in hexadecimal
behind `0x`. -/
inductive Spells : ℤ → Text → Prop
  | omitted : Spells 0 []
  | decimal (d : ℤ) : Spells d (decimal d)
  | hexadecimal (d : ℤ) (digits : Text) (hne : digits ≠ [])
      (hdigits : ∀ c ∈ digits, isHexDigitIgnoringCase c)
      (hvalue : numeralValue 16 hexDigitValue digits = d.natAbs) :
      Spells d (sign d ++ '0' :: 'x' :: digits)

/-- An operand `segment:displacement(%base,%index,scale)`. -/
structure MemOperand where
  /-- The segment register and its colon, or nothing. -/
  segment : Text
  displacement : ℤ
  /-- The displacement as it is printed. -/
  written : Text
  base : Text
  /-- What follows the base register in the parentheses. -/
  index : Text
  isSegment : segment = [] ∨ ∃ name, '(' ∉ name ∧ segment = name ++ [':']
  spells : Spells displacement written
  closed : ')' ∉ base ++ index

def MemOperand.text (operand : MemOperand) : Text :=
  operand.segment ++ (operand.written ++ ("(%".toList ++ (operand.base ++ operand.index ++ [')'])))

/-- The label of a displacement. -/
def label (d : ℤ) : Text := "MEM[".toList ++ signedHex d ++ [']']

/-- Displacements without a minus sign before `0x` and without a capital letter. -/
def IsPlain (written : Text) : Prop :=
  ¬ "-0x".toList <+: written ∧ ∀ c ∈ written, ¬ ('A' ≤ c ∧ c ≤ 'F')

theorem isPlain_nil : IsPlain [] := ⟨by decide, fun _ hc => absurd hc List.not_mem_nil⟩

theorem label_injective : Function.Injective label := by
  intro x y h
  rw [label, label, List.append_assoc, List.append_assoc] at h
  exact signedHex_injective (List.append_cancel_right (List.append_cancel_left h))

theorem labelOf_eq_label {raw : Text} {d : ℤ} (h : toInt raw = some d) : labelOf raw = label d := by
  rw [labelOf, h]
  rfl

/-- The label of a decimal numeral with a smaller value is another one. -/
theorem labelOf_ne_label {raw : Text} (hne : raw ≠ []) (hraw : ∀ c ∈ raw, isDecimal c) {d : ℤ}
    (hsmall : numeralValue 10 decimalDigit raw < d.natAbs) : labelOf raw ≠ label d := by
  intro heq
  rw [labelOf, toInt_of_digits hraw] at heq
  cases hvalue : decimalToNat raw with
  | some n =>
      rw [hvalue] at heq
      have hd : (n : ℤ) = d := label_injective heq
      rw [← decimalToNat_eq_some hraw hvalue] at hsmall
      omega
  | none =>
      rw [hvalue] at heq
      have hsame : "MEM[".toList ++ raw ++ [']'] = label d := heq
      rw [label, List.append_assoc, List.append_assoc] at hsame
      obtain rfl : raw = signedHex d := List.append_cancel_right (List.append_cancel_left hsame)
      have hhead := hraw _ List.mem_cons_self
      split_ifs at hhead
      · exact absurd hhead (by decide +kernel)
      · exact absurd hhead (by decide +kernel)

section Operands

variable {operand : MemOperand}

theorem MemOperand.text_append (operand : MemOperand) (rest : Text) :
    operand.text ++ rest = operand.segment ++ (operand.written ++
      ("(%".toList ++ (operand.base ++ operand.index ++ [')']) ++ rest)) := by
  simp only [MemOperand.text, List.append_assoc]

theorem MemOperand.isRegisters (operand : MemOperand) :
    IsRegisters ("(%".toList ++ (operand.base ++ operand.index ++ [')'])) :=
  ⟨operand.base ++ operand.index, operand.closed, rfl⟩

theorem MemOperand.notMem_segment (operand : MemOperand) : '(' ∉ operand.segment := by
  rcases operand.isSegment with hnone | ⟨name, hname, hsegment⟩
  · rw [hnone]
    exact List.not_mem_nil
  · rw [hsegment, List.mem_append, not_or]
    exact ⟨hname, by decide⟩

/-- What is left of the segment ends in its colon. -/
theorem MemOperand.colon_mem {skipped rest : Text} (h : operand.segment = skipped ++ rest)
    (hne : rest ≠ []) : ':' ∈ rest := by
  rcases operand.isSegment with hnone | ⟨name, _, hsegment⟩
  · rw [hnone] at h
    exact absurd (List.append_eq_nil_iff.mp h.symm).2 hne
  · have hlast : rest.getLast? = some ':' := by
      have hall := congrArg List.getLast? (hsegment.symm.trans h)
      rw [List.getLast?_append_of_ne_nil _ hne, List.getLast?_concat] at hall
      exact hall.symm
    exact List.mem_of_getLast? hlast

/-- A displacement that is all of a number is read. -/
theorem MemOperand.memName_of_isNumber (hnumber : IsNumber operand.written) (rest : Text) :
    memName (operand.text ++ rest) = labelOf (rawOf operand.written) := by
  rw [operand.text_append]
  apply memName_eq operand.notMem_segment hnumber operand.isRegisters
  intro skipped left hsplit hne hisNumber
  exact hisNumber.notMem (by decide +kernel)
    (List.mem_append_left _ (MemOperand.colon_mem hsplit hne))

/-! ## The spellings -/

theorem toNat_lt_of_isHexDigit {c : Char} (hc : isHexDigitIgnoringCase c) : c.toNat < 128 := by
  simp only [isHexDigitIgnoringCase, isHexDigit, isDigit, Bool.or_eq_true, Bool.and_eq_true,
    decide_eq_true_eq, Char.le_def, UInt32.le_iff_toNat_le] at hc
  have hval : c.toNat = c.val.toNat := rfl
  have hnine : ('9' : Char).val.toNat = 57 := rfl
  have hf : ('f' : Char).val.toNat = 102 := rfl
  have hF : ('F' : Char).val.toNat = 70 := rfl
  omega

/-- What holds of the hexadecimal digits of either case. -/
theorem hexDigit_cases {c : Char} (hc : isHexDigitIgnoringCase c) :
    (isHexDigit c ∧ ¬ ('A' ≤ c ∧ c ≤ 'F') ∧ hexDigitValue c = hexValue c ∨
      ('A' ≤ c ∧ c ≤ 'F') ∧ 10 ≤ hexDigitValue c ∧ OutsideNumbers c) ∧
    hexDigitValue c < 16 ∧ c ≠ 'x' ∧ c ≠ '-' ∧ c ≠ '(' := by
  have hall : ∀ n < 128, isHexDigitIgnoringCase (Char.ofNat n) →
      (isHexDigit (Char.ofNat n) ∧ ¬ ('A' ≤ Char.ofNat n ∧ Char.ofNat n ≤ 'F') ∧
          hexDigitValue (Char.ofNat n) = hexValue (Char.ofNat n) ∨
        ('A' ≤ Char.ofNat n ∧ Char.ofNat n ≤ 'F') ∧ 10 ≤ hexDigitValue (Char.ofNat n) ∧
          OutsideNumbers (Char.ofNat n)) ∧
      hexDigitValue (Char.ofNat n) < 16 ∧ Char.ofNat n ≠ 'x' ∧ Char.ofNat n ≠ '-' ∧
        Char.ofNat n ≠ '(' := by
    decide +kernel
  have hchar := hall c.toNat (toNat_lt_of_isHexDigit hc)
  rw [Char.ofNat_toNat] at hchar
  exact hchar hc

theorem isPlain_decimal (d : ℤ) : IsPlain (decimal d) := by
  have hdigits : ∀ c ∈ Nat.toDigits 10 d.natAbs, ¬ ('A' ≤ c ∧ c ≤ 'F') ∧ c ≠ 'x' := by
    intro c hc
    obtain ⟨digit, hdigit, rfl⟩ := mem_toDigits (by decide) hc
    have hall : ∀ digit < 10, ¬ ('A' ≤ Nat.digitChar digit ∧ Nat.digitChar digit ≤ 'F') ∧
        Nat.digitChar digit ≠ 'x' := by decide +kernel
    exact hall digit hdigit
  have hsign : ∀ c ∈ sign d, c = '-' := by
    intro c hc
    rw [sign] at hc
    split_ifs at hc
    · exact List.mem_singleton.mp hc
    · cases hc
  constructor
  · intro hleading
    have hx : 'x' ∈ decimal d := hleading.subset (by decide)
    cases List.mem_append.mp hx with
    | inl hmem => exact absurd (hsign 'x' hmem) (by decide)
    | inr hmem => exact (hdigits 'x' hmem).2 rfl
  · intro c hc
    cases List.mem_append.mp hc with
    | inl hmem =>
        rw [hsign c hmem]
        decide
    | inr hmem => exact (hdigits c hmem).1

/-- A decimal displacement is a number. -/
theorem isDecimalNumber_decimal (d : ℤ) : IsDecimalNumber (decimal d) := by
  refine ⟨Nat.toDigits 10 d.natAbs, ⟨Nat.toDigits_ne_nil, fun c hc => ?_⟩, ?_⟩
  · obtain ⟨digit, hdigit, rfl⟩ := mem_toDigits (by decide) hc
    exact (digitChar_decimal digit hdigit).1
  · rw [decimal, sign]
    split_ifs
    · exact Or.inr rfl
    · exact Or.inl rfl

/-- In lower case the digits have the value that `int` takes. -/
theorem numeralValue_of_isHexDigit {digits : Text} (hdigits : ∀ c ∈ digits, isHexDigit c) :
    numeralValue 16 hexValue digits = numeralValue 16 hexDigitValue digits := by
  have hsame : digits.map hexValue = digits.map hexDigitValue := by
    apply List.map_congr_left
    intro c hc
    have hhex : isHexDigitIgnoringCase c := by simp [isHexDigitIgnoringCase, hdigits c hc]
    rcases (hexDigit_cases hhex).1 with ⟨_, _, hvalue⟩ | ⟨_, _, hnone, _⟩
    · exact hvalue.symm
    · exact absurd (hdigits c hc) (by simp [hnone])
  rw [numeralValue, hsame]
  rfl

theorem toInt_hexadecimal {digits : Text} (hdigits : ∀ c ∈ digits, isHexDigit c) :
    toInt ('0' :: 'x' :: digits) = some (numeralValue 16 hexDigitValue digits : ℤ) := by
  rw [toInt, ← numeralValue_of_isHexDigit hdigits, numeralValue, Nat.coe_ofDigits]
  rfl

theorem notMem_hexadecimal {digits : Text} (hdigits : ∀ c ∈ digits, isHexDigitIgnoringCase c)
    {d : ℤ} : '(' ∉ sign d ++ '0' :: 'x' :: digits := by
  have hsign : '(' ∉ sign d := by
    rw [sign]
    split_ifs <;> decide
  have hrest : '(' ∉ digits := fun hmem => (hexDigit_cases (hdigits '(' hmem)).2.2.2.2 rfl
  simp [hsign, hrest]

theorem outside_of_capital {c : Char} (hc : isHexDigitIgnoringCase c) (hcapital : 'A' ≤ c ∧ c ≤ 'F') :
    10 ≤ hexDigitValue c ∧ OutsideNumbers c := by
  rcases (hexDigit_cases hc).1 with ⟨_, hlower, _⟩ | hupper
  · exact absurd hcapital hlower
  · exact hupper.2

/-- In decimal the last digits of a hexadecimal numeral have a smaller value. -/
theorem numeralValue_lt_of_capital {capital : Char} (hlarge : 10 ≤ hexDigitValue capital)
    (high middle number : Text) :
    numeralValue 10 decimalDigit number <
      numeralValue 16 hexDigitValue (high ++ capital :: (middle ++ number)) := by
  calc numeralValue 10 decimalDigit number
      < 10 ^ number.length := numeralValue_lt (by decide) fun c _ => decimalDigit_lt c
    _ ≤ 16 ^ number.length := Nat.pow_le_pow_left (by decide) _
    _ ≤ 16 ^ (middle ++ number).length :=
      Nat.pow_le_pow_right (by decide) (by rw [List.length_append]; exact Nat.le_add_left _ _)
    _ ≤ numeralValue 16 hexDigitValue (high ++ capital :: (middle ++ number)) :=
      pow_le_numeralValue (Nat.lt_of_lt_of_le (by decide) hlarge) _ _

/-- A number of hexadecimal digits alone is one of decimal digits. -/
theorem isDecimal_of_isNumber {number : Text} (hnumber : IsNumber number)
    (hdigits : ∀ c ∈ number, isHexDigitIgnoringCase c) : ∀ c ∈ number, isDecimal c := by
  have hx : 'x' ∉ number := fun hmem => (hexDigit_cases (hdigits 'x' hmem)).2.2.1 rfl
  have hminus : '-' ∉ number := fun hmem => (hexDigit_cases (hdigits '-' hmem)).2.2.2.1 rfl
  rcases hnumber with rfl | ⟨digits, _, rfl⟩ | ⟨digits, ⟨_, hdecimal⟩, rfl | rfl⟩
  · exact fun c hc => absurd hc List.not_mem_nil
  · exact absurd (by simp) hx
  · exact hdecimal
  · exact absurd List.mem_cons_self hminus

theorem isPlain_hexadecimal_iff {digits : Text} (hdigits : ∀ c ∈ digits, isHexDigitIgnoringCase c)
    {d : ℤ} : IsPlain (sign d ++ '0' :: 'x' :: digits) ↔ 0 ≤ d ∧ ∀ c ∈ digits, isHexDigit c := by
  constructor
  · intro hplain
    constructor
    · by_contra hneg
      apply hplain.1
      rw [sign, if_pos (not_le.mp hneg)]
      exact ⟨digits, rfl⟩
    · intro c hc
      rcases (hexDigit_cases (hdigits c hc)).1 with ⟨hlower, _⟩ | ⟨hcapital, _⟩
      · exact hlower
      · exact absurd hcapital (hplain.2 c (by simp [hc]))
  · rintro ⟨hnonneg, hlower⟩
    rw [sign, if_neg (not_lt.mpr hnonneg), List.nil_append]
    constructor
    · rintro ⟨_, hleading⟩
      cases hleading
    · intro c hc hcapital
      rcases List.mem_cons.mp hc with rfl | hc
      · exact absurd hcapital (by decide)
      · rcases List.mem_cons.mp hc with rfl | hc
        · exact absurd hcapital (by decide)
        · have houtside := (outside_of_capital (hdigits c hc) hcapital).2
          exact absurd (hlower c hc) (by simp [houtside.1])

theorem exists_append_of_notMem {α : Type} {first rest before after : List α} {x : α}
    (h : first ++ x :: rest = before ++ after) (hx : x ∉ after) :
    ∃ middle, rest = middle ++ after := by
  rcases List.append_eq_append_iff.mp h with ⟨cut, _, hcut⟩ | ⟨cut, _, hcut⟩
  · cases cut with
    | nil =>
        rw [List.nil_append] at hcut
        exact absurd (hcut ▸ List.mem_cons_self) hx
    | cons c cut => exact ⟨cut, (List.cons.inj hcut).2⟩
  · rw [hcut, List.mem_append, not_or] at hx
    exact absurd List.mem_cons_self hx.2

section Hexadecimal

variable {digits : Text}
  (hvalue : numeralValue 16 hexDigitValue digits = operand.displacement.natAbs)
  (hwritten : operand.written = sign operand.displacement ++ '0' :: 'x' :: digits)
include hvalue hwritten

/-- Behind a minus sign the digits are read alone. -/
theorem MemOperand.memName_ne_of_neg (hne : digits ≠ []) (hlower : ∀ c ∈ digits, isHexDigit c)
    (hneg : operand.displacement < 0) (rest : Text) :
    memName (operand.text ++ rest) ≠ label operand.displacement := by
  have hnumber : IsHexNumber ('0' :: 'x' :: digits) := ⟨digits, ⟨hne, hlower⟩, rfl⟩
  have hsplit : operand.segment ++ (operand.written ++
      ("(%".toList ++ (operand.base ++ operand.index ++ [')']) ++ rest)) =
      operand.segment ++ ['-'] ++ ('0' :: 'x' :: digits ++
        ("(%".toList ++ (operand.base ++ operand.index ++ [')']) ++ rest)) := by
    rw [hwritten, sign, if_pos hneg]
    simp only [List.append_assoc]
  have hparenthesis : '(' ∉ operand.segment ++ ['-'] := by
    rw [List.mem_append, not_or]
    exact ⟨operand.notMem_segment, by decide⟩
  have hread : memName (operand.text ++ rest) = labelOf (rawOf ('0' :: 'x' :: digits)) := by
    rw [operand.text_append, hsplit]
    apply memName_eq hparenthesis (Or.inr (Or.inl hnumber)) operand.isRegisters
    intro skipped left hleft hleftne
    have hminus : '-' ∈ left := by
      have hlast := congrArg List.getLast? hleft
      rw [List.getLast?_concat, List.getLast?_append_of_ne_nil _ hleftne] at hlast
      exact List.mem_of_getLast? hlast.symm
    exact not_isNumber_of_mem (List.mem_append_left _ hminus) (List.mem_append_right _ (by simp))
  have hraw : rawOf ('0' :: 'x' :: digits) = '0' :: 'x' :: digits := if_neg (List.cons_ne_nil _ _)
  rw [hread, hraw, labelOf_eq_label (toInt_hexadecimal hlower)]
  intro heq
  have hsame := label_injective heq
  omega

/-- A capital letter cuts off what comes before it. -/
theorem MemOperand.memName_ne_of_capital (hdigits : ∀ c ∈ digits, isHexDigitIgnoringCase c)
    {capital : Char} (hmem : capital ∈ digits) (hcapital : 'A' ≤ capital ∧ capital ≤ 'F')
    (rest : Text) : memName (operand.text ++ rest) ≠ label operand.displacement := by
  obtain ⟨before, number, hsplit, hnumber, hfirst⟩ :=
    exists_number (operand.segment ++ operand.written)
  have hread : memName (operand.text ++ rest) = labelOf (rawOf number) := by
    have hparenthesis : '(' ∉ before := by
      intro h
      have hall : '(' ∈ operand.segment ++ operand.written := hsplit ▸ List.mem_append_left _ h
      cases List.mem_append.mp hall with
      | inl hsegment => exact operand.notMem_segment hsegment
      | inr hin => exact notMem_hexadecimal hdigits (hwritten ▸ hin)
    rw [operand.text_append, ← List.append_assoc, hsplit, List.append_assoc]
    exact memName_eq hparenthesis hnumber operand.isRegisters hfirst rest
  obtain ⟨hlarge, houtside⟩ := outside_of_capital (hdigits capital hmem) hcapital
  -- The number stands behind the capital letter.
  obtain ⟨high, low, rfl⟩ := List.mem_iff_append.mp hmem
  obtain ⟨middle, rfl⟩ : ∃ middle, low = middle ++ number := by
    have hcut : (operand.segment ++ (sign operand.displacement ++ '0' :: 'x' :: high)) ++
        capital :: low = before ++ number := by
      rw [← hsplit, hwritten]
      simp only [List.append_assoc, List.cons_append]
    exact exists_append_of_notMem hcut (hnumber.notMem houtside)
  have hdecimal : ∀ c ∈ number, isDecimal c :=
    isDecimal_of_isNumber hnumber fun c hc => hdigits c (by simp [hc])
  have hsmall : numeralValue 10 decimalDigit number < operand.displacement.natAbs :=
    hvalue ▸ numeralValue_lt_of_capital hlarge high middle number
  rw [hread, rawOf]
  split_ifs with hnone
  · have hzero : numeralValue 10 decimalDigit ['0'] = 0 := by decide +kernel
    apply labelOf_ne_label (by decide) (List.forall_mem_singleton.mpr (by decide +kernel))
    rw [hzero]
    exact Nat.zero_lt_of_lt hsmall
  · exact labelOf_ne_label hnone hdecimal hsmall

theorem MemOperand.memName_iff_of_hexadecimal (hne : digits ≠ [])
    (hdigits : ∀ c ∈ digits, isHexDigitIgnoringCase c) (rest : Text) :
    memName (operand.text ++ rest) = label operand.displacement ↔ IsPlain operand.written := by
  rw [hwritten, isPlain_hexadecimal_iff hdigits]
  by_cases hlower : ∀ c ∈ digits, isHexDigit c
  · rcases lt_or_ge operand.displacement 0 with hneg | hnonneg
    · exact iff_of_false (memName_ne_of_neg hvalue hwritten hne hlower hneg rest)
        fun h => absurd h.1 (not_le.mpr hneg)
    · have hnone : operand.written = '0' :: 'x' :: digits := by
        rw [hwritten, sign, if_neg (not_lt.mpr hnonneg), List.nil_append]
      have hnumber : IsNumber operand.written := Or.inr (Or.inl ⟨digits, ⟨hne, hlower⟩, hnone⟩)
      refine iff_of_true ?_ ⟨hnonneg, hlower⟩
      rw [memName_of_isNumber hnumber, hnone, rawOf, if_neg (List.cons_ne_nil _ _),
        labelOf_eq_label (toInt_hexadecimal hlower), hvalue, Int.natAbs_of_nonneg hnonneg]
  · have hcapital : ∃ c ∈ digits, 'A' ≤ c ∧ c ≤ 'F' := by
      by_contra hnone
      refine hlower fun c hc => ?_
      rcases (hexDigit_cases (hdigits c hc)).1 with ⟨hhex, _⟩ | ⟨hcapital, _⟩
      · exact hhex
      · exact absurd ⟨c, hc, hcapital⟩ hnone
    obtain ⟨capital, hmem, hcapital⟩ := hcapital
    exact iff_of_false (memName_ne_of_capital hvalue hwritten hdigits hmem hcapital rest)
      fun h => hlower h.2

end Hexadecimal

/-- `mem_name` returns the label of exactly the displacement if that is printed plainly, and
only then. -/
theorem MemOperand.memName_iff (operand : MemOperand) (rest : Text) :
    memName (operand.text ++ rest) = label operand.displacement ↔ IsPlain operand.written := by
  have hspells := operand.spells
  generalize hd : operand.displacement = d at hspells
  generalize hwritten : operand.written = written at hspells
  cases hspells with
  | omitted =>
      have hnumber : IsNumber operand.written := Or.inl hwritten
      rw [memName_of_isNumber hnumber, hwritten]
      exact iff_of_true (labelOf_eq_label (by decide +kernel)) isPlain_nil
  | decimal =>
      have hdecimal := isDecimalNumber_decimal d
      have hnumber : IsNumber operand.written := Or.inr (Or.inr (hwritten ▸ hdecimal))
      rw [memName_of_isNumber hnumber, hwritten, rawOf, if_neg hdecimal.ne_nil]
      exact iff_of_true (labelOf_eq_label (toInt_decimal d)) (isPlain_decimal d)
  | hexadecimal _ digits hne hdigits hvalue =>
      subst hd
      rw [← hwritten]
      exact memName_iff_of_hexadecimal hvalue hwritten hne hdigits rest

end Operands

/-! ## Loads -/

/-- A row that `analyze` takes for a load, with the operand that it starts with. -/
structure Load where
  row : Row
  dst : Text
  operand : MemOperand
  rest : Text
  isLoad : row.branch = .load dst
  args : row.args = operand.text ++ rest

/-- The label that the register of a load has after it. -/
def Load.label (load : Load) (analysis : Analysis) : Option Text :=
  (analysis.step load.row).state load.dst

theorem Load.label_eq (load : Load) (analysis : Analysis) :
    load.label analysis = some (memName (load.operand.text ++ load.rest)) := by
  rw [Load.label, Analysis.step, load.isLoad, load.args]
  exact Function.update_self _ _ _

/-- The label of an operand is that of its displacement exactly if this is printed plainly.
For two loads, wherever they stand, both labels are right, and so equal for equal
displacements only, exactly if both displacements are. -/
theorem labels_of_displacements_iff (operand : MemOperand) (first second : Load)
    (before between : Analysis) :
    (memName operand.text = label operand.displacement ↔ IsPlain operand.written) ∧
    ((first.label before = some (label first.operand.displacement) ∧
        second.label between = some (label second.operand.displacement) ∧
        (first.label before = second.label between ↔
          first.operand.displacement = second.operand.displacement)) ↔
      IsPlain first.operand.written ∧ IsPlain second.operand.written) := by
  constructor
  · have hiff := operand.memName_iff []
    rwa [List.append_nil] at hiff
  · have hfirst := first.operand.memName_iff first.rest
    have hsecond := second.operand.memName_iff second.rest
    rw [first.label_eq, second.label_eq, Option.some.injEq, Option.some.injEq, Option.some.injEq]
    constructor
    · rintro ⟨hleft, hright, _⟩
      exact ⟨hfirst.mp hleft, hsecond.mp hright⟩
    · rintro ⟨hleft, hright⟩
      refine ⟨hfirst.mpr hleft, hsecond.mpr hright, ?_⟩
      rw [hfirst.mpr hleft, hsecond.mpr hright]
      exact label_injective.eq_iff

/-- The load of `-0x8(%rbp)`. -/
def negativeLoad : Load where
  row := ⟨1, "vmovsd".toList, "-0x8(%rbp),%xmm0".toList, []⟩
  dst := "%xmm0".toList
  operand :=
    { segment := []
      displacement := -8
      written := "-0x8".toList
      base := "rbp".toList
      index := []
      isSegment := Or.inl rfl
      spells := .hexadecimal (-8) ['8'] (by decide) (List.forall_mem_singleton.mpr (by decide))
        (by decide +kernel)
      closed := by decide }
  rest := ",%xmm0".toList
  isLoad := by decide +kernel
  args := by decide +kernel

/-- The load of `0x8(%rbp)`. -/
def positiveLoad : Load where
  row := ⟨2, "vmovsd".toList, "0x8(%rbp),%xmm1".toList, []⟩
  dst := "%xmm1".toList
  operand :=
    { segment := []
      displacement := 8
      written := "0x8".toList
      base := "rbp".toList
      index := []
      isSegment := Or.inl rfl
      spells := .hexadecimal 8 ['8'] (by decide) (List.forall_mem_singleton.mpr (by decide))
        (by decide +kernel)
      closed := by decide }
  rest := ",%xmm1".toList
  isLoad := by decide +kernel
  args := by decide +kernel

/-- `mem_name` drops the minus sign of `-0x8(%rbp)`, which gets the label of `0x8(%rbp)`. -/
theorem not_forall_labels_of_displacements :
    (¬ ∀ operand : MemOperand, memName operand.text = label operand.displacement) ∧
    ¬ ∀ (first second : Load) (before between : Analysis),
      first.label before = second.label between ↔
        first.operand.displacement = second.operand.displacement := by
  constructor
  · intro hall
    exact absurd (hall negativeLoad.operand) (by decide +kernel)
  · intro hall
    have hsame : negativeLoad.label .initial = positiveLoad.label .initial := by
      rw [negativeLoad.label_eq, positiveLoad.label_eq]
      decide +kernel
    exact absurd ((hall negativeLoad positiveLoad .initial .initial).mp hsame) (by decide)

end Colata.CompareMaxShape
