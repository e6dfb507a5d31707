/-
# Java's integer operators

The binary and unary operators of `int` and `long`, as operations on integers: the exact
result wrapped to the width of the type, division towards zero, and shift counts of which
the type's width keeps the low bits.
-/

import Colata.Languages.Java.Basic
import Mathlib.Algebra.Order.Group.Unbundled.Abs

namespace Colata.Java

/-- The values of an `int`. -/
def InInt (x : ℤ) : Prop := -2 ^ 31 ≤ x ∧ x < 2 ^ 31

instance (x : ℤ) : Decidable (InInt x) := inferInstanceAs (Decidable (_ ∧ _))

theorem wrapInt_eq_self_iff {x : ℤ} : wrapInt x = x ↔ InInt x := by
  constructor
  · intro h
    rw [← h]
    exact ⟨Int.le_bmod (by decide), Int.bmod_lt (by decide)⟩
  · exact fun h => wrapInt_of_bounds h.1 h.2

theorem inInt_wrapInt (x : ℤ) : InInt (wrapInt x) :=
  ⟨Int.le_bmod (by decide), Int.bmod_lt (by decide)⟩

theorem InInt.natAbs_le {a : ℤ} (ha : InInt a) : a.natAbs ≤ 2 ^ 31 := by
  have hlow := ha.1
  have hhigh := ha.2
  omega

/-- Dividing, with the quotient rounded down, keeps an `int` in range. -/
theorem InInt.div {a divisor : ℤ} (ha : InInt a) (hdivisor : 0 < divisor) :
    InInt (a / divisor) := by
  constructor
  · rw [Int.le_ediv_iff_mul_le hdivisor]
    have hlow := ha.1
    omega
  · rw [Int.ediv_lt_iff_lt_mul hdivisor]
    have hhigh := ha.2
    omega

/-- The remainder of an `int` is between zero and the dividend. -/
theorem InInt.tmod {a : ℤ} (ha : InInt a) (divisor : ℤ) : InInt (a.tmod divisor) := by
  have hle : (a.tmod divisor).natAbs ≤ a.natAbs := by
    rw [Int.natAbs_tmod]
    exact Nat.mod_le _ _
  have hlow := ha.1
  have hhigh := ha.2
  rcases Int.le_total 0 a with hpos | hneg
  · have hsign := Int.tmod_nonneg divisor hpos
    constructor <;> omega
  · have hsign := Int.tmod_nonneg divisor (Int.neg_nonneg_of_nonpos hneg)
    rw [Int.neg_tmod] at hsign
    constructor <;> omega

/-- Only the quotient of the least `int` by `-1` leaves the range. -/
theorem InInt.tdiv_iff {a b : ℤ} (ha : InInt a) (hb : b ≠ 0) :
    InInt (a.tdiv b) ↔ ¬ (a = intMin ∧ b = -1) := by
  have hlow := ha.1
  have hhigh := ha.2
  have hmin : intMin = -2 ^ 31 := rfl
  have habs : (a.tdiv b).natAbs = a.natAbs / b.natAbs := Int.natAbs_tdiv a b
  rcases Nat.lt_or_ge 1 b.natAbs with hlarge | hunit
  · have hhalf : a.natAbs / b.natAbs ≤ a.natAbs / 2 := Nat.div_le_div_left hlarge (by decide)
    have hrange : InInt (a.tdiv b) := by constructor <;> omega
    exact iff_of_true hrange fun hleast => by omega
  · have hone : b = 1 ∨ b = -1 := by omega
    rcases hone with rfl | rfl
    · rw [Int.tdiv_one]
      exact iff_of_true ha fun hleast => absurd hleast.2 (by decide)
    · rw [Int.tdiv_neg, Int.tdiv_one]
      constructor
      · rintro ⟨_, hlt⟩ ⟨heq, _⟩
        omega
      · intro hnot
        have hne : a ≠ intMin := fun heq => hnot ⟨heq, rfl⟩
        constructor <;> omega

/-- The unsigned shift of an `int` fits unless a negative one is not shifted at all. -/
theorem InInt.ushift_iff {a : ℤ} (ha : InInt a) (count : ℕ) :
    InInt (a % 2 ^ 32 / 2 ^ count) ↔ ¬ (a < 0 ∧ count = 0) := by
  have hlow := ha.1
  have hhigh := ha.2
  have hnonneg : 0 ≤ a % 2 ^ 32 := Int.emod_nonneg a (by decide)
  have hlt : a % 2 ^ 32 < 2 ^ 32 := Int.emod_lt_of_pos a (by decide)
  cases count with
  | zero =>
      rw [pow_zero, Int.ediv_one]
      constructor
      · rintro ⟨_, hsmall⟩ ⟨hneg, _⟩
        omega
      · intro hnot
        have hpos : 0 ≤ a := not_lt.mp fun hneg => hnot ⟨hneg, rfl⟩
        constructor <;> omega
  | succ count =>
      have hpow : (0 : ℤ) < 2 ^ count := Int.pow_pos (by decide)
      have hhalf : a % 2 ^ 32 / 2 < 2 ^ 31 := by omega
      have hle : a % 2 ^ 32 / 2 / 2 ^ count ≤ a % 2 ^ 32 / 2 :=
        Int.ediv_le_self _ (by omega)
      have hzero : 0 ≤ a % 2 ^ 32 / 2 / 2 ^ count := Int.ediv_nonneg (by omega) hpow.le
      have hsplit : a % 2 ^ 32 / 2 ^ (count + 1) = a % 2 ^ 32 / 2 / 2 ^ count := by
        rw [pow_succ' (2 : ℤ) count, Int.ediv_ediv_of_nonneg (Int.zero_le_ofNat 2)]
      rw [hsplit]
      exact iff_of_true ⟨by omega, by omega⟩ fun hcount => absurd hcount.2 (Nat.succ_ne_zero _)

inductive BinaryOp
  | add | sub | mul | div | mod | lShift | rShift | urShift | and | or | xor
  deriving DecidableEq

inductive UnaryOp
  | neg | abs
  deriving DecidableEq

namespace BinaryOp

/-- The result for operands of a type with this many bits; the divisor is not zero. -/
def result (width : ℕ) : BinaryOp → ℤ → ℤ → ℤ
  | .add, a, b => (a + b).bmod (2 ^ width)
  | .sub, a, b => (a - b).bmod (2 ^ width)
  | .mul, a, b => (a * b).bmod (2 ^ width)
  | .div, a, b => (a.tdiv b).bmod (2 ^ width)
  | .mod, a, b => a.tmod b
  | .lShift, a, b => (a * 2 ^ (b % width).toNat).bmod (2 ^ width)
  | .rShift, a, b => a / 2 ^ (b % width).toNat
  | .urShift, a, b => (a % 2 ^ width / 2 ^ (b % width).toNat).bmod (2 ^ width)
  | .and, a, b => (BitVec.ofInt width a &&& BitVec.ofInt width b).toInt
  | .or, a, b => (BitVec.ofInt width a ||| BitVec.ofInt width b).toInt
  | .xor, a, b => (BitVec.ofInt width a ^^^ BitVec.ofInt width b).toInt

/-- The result for `int` operands. -/
def onInt (op : BinaryOp) : ℤ → ℤ → ℤ := op.result 32

/-- The result for `long` operands. -/
def onLong (op : BinaryOp) : ℤ → ℤ → ℤ := op.result 64

end BinaryOp

namespace UnaryOp

/-- The result for an `int` operand. -/
def onInt : UnaryOp → ℤ → ℤ
  | .neg, a => wrapInt (-a)
  | .abs, a => wrapInt |a|

end UnaryOp

/-- The result of an operator on `int` operands is an `int`. -/
theorem BinaryOp.inInt_onInt (op : BinaryOp) {a b : ℤ} (ha : InInt a) : InInt (op.onInt a b) := by
  have hvector : ∀ x : BitVec 32, InInt x.toInt := fun x => ⟨x.le_toInt, x.toInt_lt⟩
  cases op with
  | add | sub | mul | div | lShift | urShift => exact inInt_wrapInt _
  | mod => exact ha.tmod b
  | rShift => exact ha.div (Int.pow_pos (by decide))
  | and | or | xor => exact hvector _

theorem UnaryOp.inInt_onInt (op : UnaryOp) (a : ℤ) : InInt (op.onInt a) := by
  cases op with
  | neg | abs => exact inInt_wrapInt _

end Colata.Java
