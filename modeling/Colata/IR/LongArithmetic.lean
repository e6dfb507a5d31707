/-
# Bitwise and shift nodes on `long`

`computeValue` evaluates these nodes with the JavaScript operators, which keep the low
word of an operand and the low five bits of a count. Below a count of 32 the result is
right as long as the high word does not matter; from 32 on the places of the high word
are taken from the low word.
-/

import Colata.IR.Arithmetic

namespace Colata.IR

open Colata.Java Colata.JavaScript Colata.Math

/-! ## Quotients by powers of two -/

theorem sub_two_pow_mul_ediv (a j : ℤ) {count width : ℕ} (hle : count ≤ width) :
    (a - 2 ^ width * j) / 2 ^ count = a / 2 ^ count - 2 ^ (width - count) * j := by
  have hpos : (2 : ℤ) ^ count ≠ 0 := pow_ne_zero _ (by decide)
  have hsplit : a - 2 ^ width * j = a + 2 ^ count * (-(2 ^ (width - count) * j)) := by
    rw [← Nat.sub_add_cancel hle, pow_add, Nat.add_sub_cancel]
    ring
  rw [hsplit, Int.add_mul_ediv_left _ _ hpos, ← sub_eq_add_neg]

/-- Shifting the low bits of a word shows its middle bits. -/
theorem emod_two_pow_ediv (a : ℤ) {count width : ℕ} (hle : count ≤ width) :
    a % 2 ^ width / 2 ^ count = a / 2 ^ count % 2 ^ (width - count) := by
  have hpow : (2 : ℤ) ^ width = 2 ^ count * 2 ^ (width - count) := by
    rw [← pow_add, Nat.add_sub_cancel' hle]
  have hnonneg : (0 : ℤ) ≤ 2 ^ count := (Int.pow_pos (by decide)).le
  rw [Int.emod_def a, sub_two_pow_mul_ediv a _ hle, Int.emod_def (a / 2 ^ count), hpow,
    Int.ediv_ediv_of_nonneg hnonneg]

theorem ediv_two_pow_bounds {a : ℤ} {count width : ℕ} (hle : count ≤ width)
    (hlow : -2 ^ width ≤ a) (hhigh : a < 2 ^ width) :
    -2 ^ (width - count) ≤ a / 2 ^ count ∧ a / 2 ^ count < 2 ^ (width - count) := by
  have hpos : (0 : ℤ) < 2 ^ count := Int.pow_pos (by decide)
  have hpow : (2 : ℤ) ^ (width - count) * 2 ^ count = 2 ^ width := by
    rw [← pow_add, Nat.sub_add_cancel hle]
  constructor
  · rw [Int.le_ediv_iff_mul_le hpos, neg_mul, hpow]
    exact hlow
  · rw [Int.ediv_lt_iff_lt_mul hpos, hpow]
    exact hhigh

/-- Signed words of one width with the same low bits are equal. -/
theorem eq_of_emod_eq {a b : ℤ} {width : ℕ} (ha : -2 ^ width ≤ a ∧ a < 2 ^ width)
    (hb : -2 ^ width ≤ b ∧ b < 2 ^ width)
    (heq : a % 2 ^ (width + 1) = b % 2 ^ (width + 1)) : a = b := by
  have hself : ∀ c : ℤ, -2 ^ width ≤ c ∧ c < 2 ^ width → c.bmod (2 ^ (width + 1)) = c := by
    intro c hc
    apply Int.bmod_eq_of_le_mul_two
    · push_cast
      rw [pow_succ]
      omega
    · push_cast
      rw [pow_succ]
      omega
  have hcast : ((2 ^ (width + 1) : ℕ) : ℤ) = 2 ^ (width + 1) := by norm_cast
  rw [← hself a ha, ← hself b hb, ← Int.emod_bmod a, ← Int.emod_bmod b, hcast, heq]

/-- What wrapping to 32 bits takes away. -/
theorem wrapInt_eq_sub (a : ℤ) : wrapInt a = a - 2 ^ 32 * a.bdiv (2 ^ 32) :=
  Int.bmod_eq_self_sub_mul_bdiv a (2 ^ 32)

/-! ## Which operands fit -/

/-- The operators on bits. -/
def isLogical : BinaryOp → Bool
  | .and | .or | .xor => true
  | _ => false

def isShift : BinaryOp → Bool
  | .lShift | .rShift | .urShift => true
  | _ => false

/-- The bits of `a` from position `count` on, as many as a `long` has there, are those
32 places further down. -/
def RepeatsWord (a : ℤ) (count : ℕ) : Prop :=
  a / 2 ^ (count - 32) % 2 ^ (64 - count) = a / 2 ^ count % 2 ^ (64 - count)

/-- The operands for which the JavaScript operator gives the `long` result. -/
def FitsLong : BinaryOp → ℤ → ℤ → Prop
  | .lShift, a, b =>
      if b < 32 then InInt (BinaryOp.onLong .lShift a b) else 2 ^ (64 - b).toNat ∣ a
  | .rShift, a, b => if b < 32 then InInt a else RepeatsWord a b.toNat
  | .urShift, a, b => if b < 32 then 0 ≤ a ∧ a < 2 ^ 32 else RepeatsWord a b.toNat
  | op, a, b => InInt (op.onLong a b)

/-- The low word of a `long`. -/
theorem setWidth_ofInt (a : ℤ) : (BitVec.ofInt 64 a).setWidth 32 = BitVec.ofInt 32 a := by
  apply BitVec.eq_of_toNat_eq
  rw [BitVec.toNat_setWidth, BitVec.toNat_ofInt, BitVec.toNat_ofInt]
  omega

theorem toInt_setWidth (bits : BitVec 64) : (bits.setWidth 32).toInt = wrapInt bits.toInt := by
  rw [BitVec.toInt_setWidth, wrapInt, BitVec.toInt_eq_toNat_bmod,
    Int.bmod_bmod_of_dvd (by decide)]

/-- An operator on bits gives the low word of the `long` result. -/
theorem isInt_onNumbers_logical {op : BinaryOp} (hop : isLogical op = true) {x y : Binary64}
    {a b : ℤ} (hx : x.IsInt a) (hy : y.IsInt b) :
    (onNumbers op x y).IsInt (wrapInt (op.onLong a b)) := by
  cases op with
  | and =>
      have h := isInt_bitAnd hx hy
      rwa [← setWidth_ofInt a, ← setWidth_ofInt b, ← BitVec.setWidth_and, toInt_setWidth] at h
  | or =>
      have h := isInt_bitOr hx hy
      rwa [← setWidth_ofInt a, ← setWidth_ofInt b, ← BitVec.setWidth_or, toInt_setWidth] at h
  | xor =>
      have h := isInt_bitXor hx hy
      rwa [← setWidth_ofInt a, ← setWidth_ofInt b, ← BitVec.setWidth_xor, toInt_setWidth] at h
  | _ => cases hop

theorem isInt_iff_of_wrapInt {z : Binary64} {value : ℤ} (hz : z.IsInt (wrapInt value)) :
    z.IsInt value ↔ InInt value := by
  rw [hz.isInt_iff, wrapInt_eq_self_iff]

/-! ## Shifts by a count below 32 -/

theorem lShift_low (a : ℤ) (count : ℕ) :
    (a * 2 ^ count).bmod (2 ^ 32) = wrapInt ((a * 2 ^ count).bmod (2 ^ 64)) :=
  (Int.bmod_bmod_of_dvd (by decide)).symm

theorem rShift_low {count : ℕ} (hcount : count < 32) (a : ℤ) :
    wrapInt a / 2 ^ count = a / 2 ^ count ↔ InInt a := by
  have hpow : (2 : ℤ) ^ (32 - count) ≠ 0 := pow_ne_zero _ (by decide)
  have hself : wrapInt a = a ↔ a.bdiv (2 ^ 32) = 0 := by
    rw [wrapInt_eq_sub]
    omega
  rw [← wrapInt_eq_self_iff, hself, wrapInt_eq_sub, sub_two_pow_mul_ediv a _ hcount.le,
    sub_eq_self, mul_eq_zero, or_iff_right hpow]

theorem urShift_low {count : ℕ} (hcount : count < 32) {a : ℤ} (ha : a.natAbs < 2 ^ 53) :
    a % 2 ^ 32 / 2 ^ count = (a % 2 ^ 64 / 2 ^ count).bmod (2 ^ 64) ↔ 0 ≤ a ∧ a < 2 ^ 32 := by
  have hpos : (0 : ℤ) < 2 ^ count := Int.pow_pos (by decide)
  have hword : 0 ≤ a % 2 ^ 32 / 2 ^ count ∧ a % 2 ^ 32 / 2 ^ count ≤ a % 2 ^ 32 :=
    ⟨Int.ediv_nonneg (by omega) hpos.le, Int.ediv_le_self _ (by omega)⟩
  rcases lt_or_ge a 0 with hneg | hnonneg
  · -- A negative operand keeps its sign or brings in ones from the high word.
    refine iff_of_false (fun heq => ?_) (by omega)
    cases count with
    | zero =>
        have hself : (a % 2 ^ 64).bmod (2 ^ 64) = a := by
          have hmod := Int.emod_bmod a (2 ^ 64)
          push_cast at hmod
          exact hmod.trans (wrapLong_of_bounds (by omega) (by omega))
        rw [pow_zero, Int.ediv_one, Int.ediv_one, hself] at heq
        omega
    | succ count =>
        have hbounds : 2 ^ 32 ≤ a % 2 ^ 64 / 2 ^ (count + 1) ∧
            a % 2 ^ 64 / 2 ^ (count + 1) < 2 ^ 63 := by
          have hsmall : (2 : ℤ) ^ (count + 1) ≤ 2 ^ 31 :=
            pow_le_pow_right₀ (by decide) (by omega)
          have hlarge : (2 : ℤ) ≤ 2 ^ (count + 1) := by
            have hone : (1 : ℤ) ≤ 2 ^ count := one_le_pow₀ (by decide)
            rw [pow_succ]
            omega
          constructor
          · rw [Int.le_ediv_iff_mul_le hpos]
            omega
          · rw [Int.ediv_lt_iff_lt_mul hpos]
            omega
        have hself := wrapLong_of_bounds (by omega) hbounds.2
        unfold wrapLong at hself
        rw [hself] at heq
        omega
  · have hid : a % 2 ^ 64 = a := Int.emod_eq_of_lt hnonneg (by omega)
    have hquotient : 0 ≤ a / 2 ^ count ∧ a / 2 ^ count ≤ a :=
      ⟨Int.ediv_nonneg hnonneg hpos.le, Int.ediv_le_self _ hnonneg⟩
    have hself := wrapLong_of_bounds (show -2 ^ 63 ≤ a / 2 ^ count by omega) (by omega)
    have hpow : (2 : ℤ) ^ (32 - count) ≠ 0 := pow_ne_zero _ (by decide)
    unfold wrapLong at hself
    rw [hid, hself, Int.emod_def, sub_two_pow_mul_ediv a _ hcount.le, sub_eq_self, mul_eq_zero,
      or_iff_right hpow]
    omega

/-! ## Shifts by a count from 32 on -/

theorem lShift_high {count : ℕ} (hlow : 32 ≤ count) (hhigh : count < 64) (a : ℤ) :
    (a * 2 ^ (count - 32)).bmod (2 ^ 32) = (a * 2 ^ count).bmod (2 ^ 64) ↔
      2 ^ (64 - count) ∣ a := by
  have hscale : (2 : ℤ) ^ (count - 32) ≠ 0 := pow_ne_zero _ (by decide)
  have hword : ((2 ^ 32 : ℕ) : ℤ) ∣ a * 2 ^ (count - 32) ↔ 2 ^ (64 - count) ∣ a := by
    have hpow : ((2 ^ 32 : ℕ) : ℤ) = 2 ^ (64 - count) * 2 ^ (count - 32) := by
      rw [← pow_add, show 64 - count + (count - 32) = 32 by omega]
      norm_num
    rw [hpow, mul_dvd_mul_iff_right hscale]
  have hsplit : a * 2 ^ count = a * 2 ^ (count - 32) * ((2 ^ 32 : ℕ) : ℤ) := by
    rw [Nat.cast_pow, Nat.cast_ofNat, mul_assoc, ← pow_add, Nat.sub_add_cancel hlow]
  constructor
  · intro heq
    have hmultiple : ((2 ^ 32 : ℕ) : ℤ) ∣ (a * 2 ^ (count - 32)).bmod (2 ^ 32) := by
      rw [heq, Int.bmod_eq_self_sub_mul_bdiv, hsplit]
      apply Int.dvd_sub (Int.dvd_mul_left _ _)
      exact Dvd.dvd.mul_right (by norm_num) _
    have hrange : InInt ((a * 2 ^ (count - 32)).bmod (2 ^ 32)) := inInt_wrapInt _
    have hzero : (a * 2 ^ (count - 32)).bmod (2 ^ 32) = 0 := by
      unfold InInt at hrange
      omega
    exact hword.mp (Int.dvd_of_bmod_eq_zero hzero)
  · intro hdvd
    have hlowWord := hword.mpr hdvd
    have hboth : ((2 ^ 64 : ℕ) : ℤ) ∣ a * 2 ^ count := by
      rw [hsplit, show ((2 ^ 64 : ℕ) : ℤ) = (2 ^ 32 : ℕ) * (2 ^ 32 : ℕ) by norm_num]
      exact mul_dvd_mul_right hlowWord _
    rw [Int.bmod_eq_zero_of_dvd hlowWord, Int.bmod_eq_zero_of_dvd hboth]

theorem rShift_high {count : ℕ} (hlow : 32 ≤ count) (hhigh : count < 64) {a : ℤ}
    (ha : a.natAbs < 2 ^ 53) :
    wrapInt a / 2 ^ (count - 32) = a / 2 ^ count ↔ RepeatsWord a count := by
  have hle : count - 32 ≤ 32 := by omega
  have hwidth : 32 - (count - 32) = 64 - count := by omega
  have hwrap : wrapInt a / 2 ^ (count - 32) =
      a / 2 ^ (count - 32) - 2 ^ (64 - count) * a.bdiv (2 ^ 32) := by
    rw [wrapInt_eq_sub, sub_two_pow_mul_ediv a _ hle, hwidth]
  have hmod : wrapInt a / 2 ^ (count - 32) % 2 ^ (64 - count) =
      a / 2 ^ (count - 32) % 2 ^ (64 - count) := by
    rw [hwrap, Int.sub_mul_emod_self_left]
  unfold RepeatsWord
  constructor
  · intro heq
    rw [← hmod, heq]
  · intro hrepeats
    have hword := inInt_wrapInt a
    have hlowWord := ediv_two_pow_bounds (show count - 32 ≤ 31 by omega) hword.1 hword.2
    have hhighWord : -2 ^ (63 - count) ≤ a / 2 ^ count ∧ a / 2 ^ count < 2 ^ (63 - count) :=
      ediv_two_pow_bounds (by omega) (by omega) (by omega)
    have hsize : 31 - (count - 32) = 63 - count := by omega
    have hnext : 64 - count = 63 - count + 1 := by omega
    rw [hsize] at hlowWord
    rw [hnext] at hmod hrepeats
    exact eq_of_emod_eq hlowWord hhighWord (hmod.trans hrepeats)

theorem urShift_high {count : ℕ} (hlow : 32 ≤ count) (hhigh : count < 64) (a : ℤ) :
    a % 2 ^ 32 / 2 ^ (count - 32) = (a % 2 ^ 64 / 2 ^ count).bmod (2 ^ 64) ↔
      RepeatsWord a count := by
  have hwidth : 32 - (count - 32) = 64 - count := by omega
  have hpos : (0 : ℤ) < 2 ^ (64 - count) := Int.pow_pos (by decide)
  have hself : (a / 2 ^ count % 2 ^ (64 - count)).bmod (2 ^ 64) =
      a / 2 ^ count % 2 ^ (64 - count) := by
    have hnonneg := Int.emod_nonneg (a / 2 ^ count) hpos.ne'
    have hlt := Int.emod_lt_of_pos (a / 2 ^ count) hpos
    have hle : (2 : ℤ) ^ (64 - count) ≤ 2 ^ 32 := pow_le_pow_right₀ (by decide) (by omega)
    exact wrapLong_of_bounds (by omega) (by omega)
  rw [emod_two_pow_ediv a (by omega), emod_two_pow_ediv a hhigh.le, hself, hwidth, RepeatsWord]

/-! ## The nodes -/

theorem isInt_onNumbers_long_iff {op : BinaryOp} (hop : isLogical op = true ∨ isShift op = true)
    {x y : Binary64} {a b : ℤ} (hx : x.IsInt a) (hy : y.IsInt b) (ha : a.natAbs < 2 ^ 53)
    (hb : isShift op = true → 0 ≤ b ∧ b < 64) :
    (onNumbers op x y).IsInt (op.onLong a b) ↔ FitsLong op a b := by
  have hcount : 0 ≤ b ∧ b < 64 → (b % (64 : ℕ)).toNat = b.toNat := by omega
  cases op with
  | and | or | xor => exact isInt_iff_of_wrapInt (isInt_onNumbers_logical rfl hx hy)
  | lShift =>
      have hrange := hb rfl
      have hlong : BinaryOp.onLong .lShift a b = (a * 2 ^ b.toNat).bmod (2 ^ 64) := by
        rw [BinaryOp.onLong, BinaryOp.result, hcount hrange]
      have hshift := isInt_shiftLeft hx hy
      simp only [FitsLong]
      split_ifs with hlow
      · rw [show (b % 32).toNat = b.toNat by omega, lShift_low, ← hlong] at hshift
        exact isInt_iff_of_wrapInt hshift
      · rw [show (b % 32).toNat = b.toNat - 32 by omega] at hshift
        rw [hlong, show (64 - b).toNat = 64 - b.toNat by omega,
          ← lShift_high (by omega) (by omega)]
        exact hshift.isInt_iff _
  | rShift =>
      have hrange := hb rfl
      have hlong : BinaryOp.onLong .rShift a b = a / 2 ^ b.toNat := by
        rw [BinaryOp.onLong, BinaryOp.result, hcount hrange]
      have hshift : (shiftRight x y).IsInt (wrapInt a / 2 ^ (b % 32).toNat) :=
        isInt_shiftRight hx hy
      rw [hlong]
      refine (hshift.isInt_iff _).trans ?_
      simp only [FitsLong]
      split_ifs with hlow
      · rw [show (b % 32).toNat = b.toNat by omega]
        exact rShift_low (by omega) a
      · rw [show (b % 32).toNat = b.toNat - 32 by omega]
        exact rShift_high (by omega) (by omega) ha
  | urShift =>
      have hrange := hb rfl
      have hlong : BinaryOp.onLong .urShift a b = (a % 2 ^ 64 / 2 ^ b.toNat).bmod (2 ^ 64) := by
        rw [BinaryOp.onLong, BinaryOp.result, hcount hrange]
      have hshift : (unsignedShiftRight x y).IsInt (a % 2 ^ 32 / 2 ^ (b % 32).toNat) :=
        isInt_unsignedShiftRight hx hy
      rw [hlong]
      refine (hshift.isInt_iff _).trans ?_
      simp only [FitsLong]
      split_ifs with hlow
      · rw [show (b % 32).toNat = b.toNat by omega]
        exact urShift_low (by omega) ha
      · rw [show (b % 32).toNat = b.toNat - 32 by omega]
        exact urShift_high (by omega) (by omega) a
  | add | sub | mul | div | mod => simp [isLogical, isShift] at hop

/-- The bitwise and shift nodes on `long` compute Java's result exactly on these operands:
the result of a bitwise operator or of a left shift by less than 32 is an `int`; the
operand of a right shift by less than 32 is an `int`, or an unsigned one; a left shift
from 32 on shifts all bits out; and for a right shift from 32 on the low word repeats the
bits that the high word leaves. -/
theorem computeValue_long_iff {node : Node} {op : BinaryOp}
    (hop : isLogical op = true ∨ isShift op = true) (htype : node.type = longType op)
    {inputs : List (Option Value)} {x y : Binary64} (hnumbers : numbers inputs = [x, y])
    {a b : ℤ} (hx : x.IsInt a) (hy : y.IsInt b) (ha : a.natAbs < 2 ^ 53)
    (hb : isShift op = true → 0 ≤ b ∧ b < 64) (paramValues : ParamValues) :
    Computes node inputs paramValues (op.onLong a b) ↔ FitsLong op a b := by
  have hoperator : IsOperatorType node.type := htype ▸ isOperatorType_longType op
  have hdivides : divides op = false := by
    cases op <;> first | rfl | simp [isLogical, isShift] at hop
  have hvalue : binaryValue node.type x y = some (.num (onNumbers op x y)) := by
    rw [htype]
    exact binaryValue_longType op fun htrue => by
      rw [hdivides] at htrue
      cases htrue
  rw [computes_iff_of_binaryValue hoperator hnumbers hvalue]
  exact isInt_onNumbers_long_iff hop hx hy ha hb

/-- A bitwise conjunction of the values on two input slots. -/
def andNode : Node := plainNode 3 "AndL" [none, some 1, some 2]

theorem computeValue_long_iff_six_and_three :
    Computes andNode (operands 6 3) (fun _ => none) 2 := by
  have hop : isLogical .and = true ∨ isShift .and = true := Or.inl rfl
  have htype : andNode.type = longType .and := rfl
  have hnumbers : numbers (operands 6 3) = [.ofInt 6, .ofInt 3] := rfl
  have hresult := computeValue_long_iff hop htype hnumbers (Binary64.isInt_ofInt (by decide))
    (Binary64.isInt_ofInt (by decide)) (by decide) (fun hshift => by cases hshift) fun _ => none
  have hfits : FitsLong .and 6 3 := by
    show InInt _
    decide
  exact hresult.mpr hfits

/-- The high word is lost. -/
theorem not_forall_computes_long :
    ¬ ∀ (node : Node) (op : BinaryOp) (inputs : List (Option Value)) (x y : Binary64) (a b : ℤ)
        (paramValues : ParamValues), (isLogical op = true ∨ isShift op = true) →
        node.type = longType op → numbers inputs = [x, y] → x.IsInt a → y.IsInt b →
        a.natAbs < 2 ^ 53 → (if isShift op = true then 0 ≤ b ∧ b < 64 else b.natAbs < 2 ^ 53) →
        (op.onLong a b).natAbs < 2 ^ 53 → Computes node inputs paramValues (op.onLong a b) := by
  intro hclaim
  have hx : (Binary64.ofInt (2 ^ 32)).IsInt (2 ^ 32) := Binary64.isInt_ofInt (by decide)
  have hcomputes := hclaim andNode .and (operands (2 ^ 32) (2 ^ 32)) _ _ (2 ^ 32) (2 ^ 32)
    (fun _ => none) (Or.inl rfl) rfl rfl hx hx (by decide) (by decide) (by decide)
  have hvalue : binaryValue andNode.type (.ofInt (2 ^ 32)) (.ofInt (2 ^ 32)) =
      some (.num (onNumbers .and (.ofInt (2 ^ 32)) (.ofInt (2 ^ 32)))) :=
    binaryValue_longType .and fun hdivides => by cases hdivides
  have hnumbers : numbers (operands (2 ^ 32) (2 ^ 32)) = [.ofInt (2 ^ 32), .ofInt (2 ^ 32)] := rfl
  rw [computes_iff_of_binaryValue (isOperatorType_longType .and) hnumbers hvalue] at hcomputes
  have hfits := (isInt_onNumbers_long_iff (Or.inl rfl) hx hx (by decide)
    (fun hshift => by cases hshift)).mp hcomputes
  have hwide : ¬ InInt (BinaryOp.onLong .and (2 ^ 32) (2 ^ 32)) := by decide
  exact hwide hfits

end Colata.IR
