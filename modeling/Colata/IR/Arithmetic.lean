/-
# The arithmetic of the nodes

The operator nodes carry the names of Java's operators, `computeValue` evaluates them on
JavaScript numbers. On the operands of an `int` node the sum, the difference, the
product and the quotient are exact and not wrapped, so they are right as long as they
stay in range; the shift without sign gives an unsigned number. The `long` nodes use the
same operators, which keep 32 bits.
-/

import Colata.IR.Value
import Colata.Languages.Java.Operators

namespace Colata.IR

open Colata.Java Colata.JavaScript Colata.Math

/-! ## Operator nodes -/

/-- The node type of a binary operator on `int`. -/
def intType : BinaryOp → String
  | .add => "AddI"
  | .sub => "SubI"
  | .mul => "MulI"
  | .div => "DivI"
  | .mod => "ModI"
  | .lShift => "LShiftI"
  | .rShift => "RShiftI"
  | .urShift => "URShiftI"
  | .and => "AndI"
  | .or => "OrI"
  | .xor => "XorI"

/-- The node type of a binary operator on `long`. -/
def longType : BinaryOp → String
  | .add => "AddL"
  | .sub => "SubL"
  | .mul => "MulL"
  | .div => "DivL"
  | .mod => "ModL"
  | .lShift => "LShiftL"
  | .rShift => "RShiftL"
  | .urShift => "URShiftL"
  | .and => "AndL"
  | .or => "OrL"
  | .xor => "XorL"

/-- The node type of a unary operator on `int`. -/
def unaryIntType : UnaryOp → String
  | .neg => "NegI"
  | .abs => "AbsI"

/-- What the `switch` computes for a binary operator, on a divisor that is not zero. -/
def onNumbers : BinaryOp → Binary64 → Binary64 → Binary64
  | .add, x, y => x + y
  | .sub, x, y => x - y
  | .mul, x, y => x * y
  | .div, x, y => (x / y).trunc
  | .mod, x, y => x % y
  | .lShift, x, y => shiftLeft x y
  | .rShift, x, y => shiftRight x y
  | .urShift, x, y => unsignedShiftRight x y
  | .and, x, y => bitAnd x y
  | .or, x, y => bitOr x y
  | .xor, x, y => bitXor x y

/-- The operators that look at their divisor first. -/
def divides : BinaryOp → Bool
  | .div | .mod => true
  | _ => false

theorem binaryValue_intType (op : BinaryOp) {x y : Binary64}
    (hdivisor : divides op = true → y.isTruthy = true) :
    binaryValue (intType op) x y = some (.num (onNumbers op x y)) := by
  cases op with
  | div | mod => exact congrArg some (if_pos (hdivisor rfl))
  | add | sub | mul | lShift | rShift | urShift | and | or | xor => rfl

theorem binaryValue_longType (op : BinaryOp) {x y : Binary64}
    (hdivisor : divides op = true → y.isTruthy = true) :
    binaryValue (longType op) x y = some (.num (onNumbers op x y)) := by
  cases op with
  | div | mod => exact congrArg some (if_pos (hdivisor rfl))
  | add | sub | mul | lShift | rShift | urShift | and | or | xor => rfl

/-- A type that is not decided before the inputs are looked at. -/
def IsOperatorType (t : String) : Prop := ignoresInputs t = false ∧ t ≠ "Return"

theorem computeValue_of_isOperatorType {node : Node} (h : IsOperatorType node.type)
    (inputs : List (Option Value)) (paramValues : ParamValues) :
    computeValue node inputs paramValues = numericValue node.type (numbers inputs) := by
  simp only [IsOperatorType, ignoresInputs, Bool.or_eq_false_iff, decide_eq_false_iff_not] at h
  obtain ⟨⟨⟨⟨hstart, hroot⟩, hparm⟩, hcon⟩, hreturn⟩ := h
  simp [computeValue, hstart, hroot, hparm, hcon, hreturn]

theorem isOperatorType_intType (op : BinaryOp) : IsOperatorType (intType op) := by
  cases op <;> exact ⟨by decide +kernel, by decide⟩

theorem isOperatorType_longType (op : BinaryOp) : IsOperatorType (longType op) := by
  cases op <;> exact ⟨by decide +kernel, by decide⟩

theorem isOperatorType_unaryIntType (op : UnaryOp) : IsOperatorType (unaryIntType op) := by
  cases op <;> exact ⟨by decide +kernel, by decide⟩

/-- The node is evaluated to a number with this integer value. -/
def Computes (node : Node) (inputs : List (Option Value)) (paramValues : ParamValues)
    (value : ℤ) : Prop :=
  ∃ z, computeValue node inputs paramValues = some (.num z) ∧ z.IsInt value

theorem computes_iff_of_binaryValue {node : Node} (h : IsOperatorType node.type)
    {inputs : List (Option Value)} {x y z : Binary64} (hnumbers : numbers inputs = [x, y])
    (hvalue : binaryValue node.type x y = some (.num z)) (paramValues : ParamValues) (value : ℤ) :
    Computes node inputs paramValues value ↔ z.IsInt value := by
  have hcompute : computeValue node inputs paramValues = some (.num z) := by
    rw [computeValue_of_isOperatorType h, hnumbers, numericValue, hvalue, Option.some_or,
      Option.some_or]
  simp [Computes, hcompute]

theorem computes_iff_of_unaryValue {node : Node} (h : IsOperatorType node.type)
    {inputs : List (Option Value)} {x z : Binary64} (hnumbers : numbers inputs = [x])
    (hvalue : unaryValue node.type x = some (.num z)) (paramValues : ParamValues) (value : ℤ) :
    Computes node inputs paramValues value ↔ z.IsInt value := by
  have hcompute : computeValue node inputs paramValues = some (.num z) := by
    rw [computeValue_of_isOperatorType h, hnumbers, numericValue, hvalue, Option.some_or]
  simp [Computes, hcompute]

/-! ## Nodes on `int` -/

/-- The operands for which the JavaScript operator gives the `int` result. -/
def FitsInt : BinaryOp → ℤ → ℤ → Prop
  | .add, a, b => InInt (a + b)
  | .sub, a, b => InInt (a - b)
  | .mul, a, b => InInt (a * b)
  | .div, a, b => ¬ (a = intMin ∧ b = -1)
  | .urShift, a, b => ¬ (a < 0 ∧ 32 ∣ b)
  | .mod, _, _ | .lShift, _, _ | .rShift, _, _ | .and, _, _ | .or, _, _ | .xor, _, _ => True

/-- A value that is not wrapped is right exactly when it is in range. -/
theorem isInt_wrapInt_iff {z : Binary64} {value : ℤ} (hz : z.IsInt value) :
    z.IsInt (wrapInt value) ↔ InInt value := by
  rw [hz.isInt_iff, ← wrapInt_eq_self_iff, eq_comm]

theorem isInt_onNumbers_mul_iff {x y : Binary64} {a b : ℤ} (hx : x.IsInt a) (hy : y.IsInt b) :
    (x * y).IsInt (wrapInt (a * b)) ↔ InInt (a * b) := by
  rcases Nat.le_total (a * b).natAbs (2 ^ 53) with hexact | hbeyond
  · exact isInt_wrapInt_iff (hx.mul hy hexact)
  · constructor
    · intro hwrap
      have hfar := hx.le_natAbs_of_mul hy hbeyond hwrap
      have hnear := (inInt_wrapInt (a * b)).natAbs_le
      omega
    · intro hrange
      have hnear := hrange.natAbs_le
      omega

theorem isInt_onNumbers_iff (op : BinaryOp) {x y : Binary64} {a b : ℤ} (hx : x.IsInt a)
    (hy : y.IsInt b) (ha : InInt a) (hb : InInt b) (hdivisor : divides op = true → b ≠ 0) :
    (onNumbers op x y).IsInt (op.onInt a b) ↔ FitsInt op a b := by
  have hlowA := ha.1
  have hhighA := ha.2
  have hlowB := hb.1
  have hhighB := hb.2
  have hself : a.bmod (2 ^ 32) = a := wrapInt_of_bounds hlowA hhighA
  cases op with
  | add => exact isInt_wrapInt_iff (hx.add hy (by omega))
  | sub => exact isInt_wrapInt_iff (hx.sub hy (by omega))
  | mul => exact isInt_onNumbers_mul_iff hx hy
  | div =>
      have hne := hdivisor rfl
      exact (isInt_wrapInt_iff (hx.trunc_div hy ha.natAbs_le hb.natAbs_le hne)).trans
        (ha.tdiv_iff hne)
  | mod =>
      have hle : a.natAbs ≤ 2 ^ 53 := ha.natAbs_le.trans (by decide)
      exact iff_of_true (hx.rem hy (hdivisor rfl) hle) trivial
  | lShift => exact iff_of_true (isInt_shiftLeft hx hy) trivial
  | rShift =>
      have hshift := isInt_shiftRight hx hy
      rw [hself] at hshift
      exact iff_of_true hshift trivial
  | urShift =>
      have hcount : (b % 32).toNat = 0 ↔ 32 ∣ b := by omega
      refine (isInt_wrapInt_iff (isInt_unsignedShiftRight hx hy)).trans ?_
      rw [ha.ushift_iff, hcount, FitsInt]
  | and => exact iff_of_true (isInt_bitAnd hx hy) trivial
  | or => exact iff_of_true (isInt_bitOr hx hy) trivial
  | xor => exact iff_of_true (isInt_bitXor hx hy) trivial

theorem isTruthy_of_isInt {y : Binary64} {b : ℤ} (hy : y.IsInt b) (hb : b ≠ 0) :
    y.isTruthy = true := by
  obtain ⟨negative, natural, valid, rfl, rfl⟩ := hy
  have hne : natural ≠ 0 := by
    rintro rfl
    cases negative <;> exact hb rfl
  exact bne_iff_ne.mpr (Nat.mul_ne_zero hne Binary64.one_pos.ne')

theorem computes_intType_iff {node : Node} {op : BinaryOp} (htype : node.type = intType op)
    {inputs : List (Option Value)} {x y : Binary64} (hnumbers : numbers inputs = [x, y])
    {a b : ℤ} (hx : x.IsInt a) (hy : y.IsInt b) (ha : InInt a) (hb : InInt b)
    (hdivisor : divides op = true → b ≠ 0) (paramValues : ParamValues) :
    Computes node inputs paramValues (op.onInt a b) ↔ FitsInt op a b := by
  have hoperator : IsOperatorType node.type := htype ▸ isOperatorType_intType op
  have hvalue : binaryValue node.type x y = some (.num (onNumbers op x y)) := by
    rw [htype]
    exact binaryValue_intType op fun hdivides => isTruthy_of_isInt hy (hdivisor hdivides)
  rw [computes_iff_of_binaryValue hoperator hnumbers hvalue]
  exact isInt_onNumbers_iff op hx hy ha hb hdivisor

theorem computes_unaryIntType_iff {node : Node} {op : UnaryOp}
    (htype : node.type = unaryIntType op) {inputs : List (Option Value)} {x : Binary64}
    (hnumbers : numbers inputs = [x]) {a : ℤ} (hx : x.IsInt a) (ha : InInt a)
    (paramValues : ParamValues) :
    Computes node inputs paramValues (op.onInt a) ↔ a ≠ intMin := by
  have hoperator : IsOperatorType node.type := htype ▸ isOperatorType_unaryIntType op
  have hlow := ha.1
  have hhigh := ha.2
  have hmin : intMin = -2 ^ 31 := rfl
  cases op with
  | neg =>
      have hvalue : unaryValue node.type x = some (.num (-x)) := by rw [htype]; rfl
      have hrange : InInt (-a) ↔ a ≠ intMin := by
        unfold InInt
        omega
      exact (computes_iff_of_unaryValue hoperator hnumbers hvalue paramValues _).trans
        ((isInt_wrapInt_iff hx.neg).trans hrange)
  | abs =>
      have hvalue : unaryValue node.type x = some (.num x.abs) := by rw [htype]; rfl
      have hrange : InInt |a| ↔ a ≠ intMin := by
        unfold InInt
        rcases abs_cases a with ⟨heq, _⟩ | ⟨heq, _⟩ <;> omega
      exact (computes_iff_of_unaryValue hoperator hnumbers hvalue paramValues _).trans
        ((isInt_wrapInt_iff hx.abs).trans hrange)

/-- The `int` nodes compute Java's result, which is an `int` again, exactly on these
operands: sum, difference and product are in range, the least `int` is not divided by
`-1`, negated or stripped of its sign, and no negative number is shifted without sign by
a multiple of 32. -/
theorem computeValue_int_iff (node : Node) (inputs : List (Option Value))
    (paramValues : ParamValues) :
    (∀ (op : BinaryOp) (x y : Binary64) (a b : ℤ), node.type = intType op →
      numbers inputs = [x, y] → x.IsInt a → y.IsInt b → InInt a → InInt b →
      (divides op = true → b ≠ 0) →
        InInt (op.onInt a b) ∧
          (Computes node inputs paramValues (op.onInt a b) ↔ FitsInt op a b)) ∧
    ∀ (op : UnaryOp) (x : Binary64) (a : ℤ), node.type = unaryIntType op →
      numbers inputs = [x] → x.IsInt a → InInt a →
        InInt (op.onInt a) ∧
          (Computes node inputs paramValues (op.onInt a) ↔ a ≠ intMin) := by
  constructor
  · intro op x y a b htype hnumbers hx hy ha hb hdivisor
    exact ⟨op.inInt_onInt ha,
      computes_intType_iff htype hnumbers hx hy ha hb hdivisor paramValues⟩
  · intro op x a htype hnumbers hx ha
    exact ⟨op.inInt_onInt a, computes_unaryIntType_iff htype hnumbers hx ha paramValues⟩

/-- The operands `a` and `b` on two input slots. -/
def operands (a b : ℤ) : List (Option Value) :=
  [none, some (.num (.ofInt a)), some (.num (.ofInt b))]

theorem computeValue_int_iff_five_two :
    Computes (plainNode 3 "SubI" [none, some 1, some 2]) (operands 5 2) (fun _ => none) 3 := by
  have hrange : InInt 5 ∧ InInt 2 := by
    unfold InInt
    omega
  have hresult := ((computeValue_int_iff (plainNode 3 "SubI" [none, some 1, some 2])
    (operands 5 2) fun _ => none).1 .sub (.ofInt 5) (.ofInt 2) 5 2 rfl rfl
    (Binary64.isInt_ofInt (by decide)) (Binary64.isInt_ofInt (by decide)) hrange.1 hrange.2
    (fun hdivides => by cases hdivides)).2
  refine hresult.mpr ?_
  unfold FitsInt InInt
  omega

/-- The largest `int` plus one is not wrapped. -/
theorem not_forall_computes_int :
    ¬ ∀ (node : Node) (inputs : List (Option Value)) (paramValues : ParamValues)
        (op : BinaryOp) (x y : Binary64) (a b : ℤ), node.type = intType op →
        numbers inputs = [x, y] → x.IsInt a → y.IsInt b → InInt a → InInt b →
        (divides op = true → b ≠ 0) → Computes node inputs paramValues (op.onInt a b) := by
  intro hclaim
  have hrange : InInt 2147483647 ∧ InInt 1 := by
    unfold InInt
    omega
  have hx : (Binary64.ofInt 2147483647).IsInt 2147483647 := Binary64.isInt_ofInt (by decide)
  have hy : (Binary64.ofInt 1).IsInt 1 := Binary64.isInt_ofInt (by decide)
  have hcomputes := hclaim (plainNode 3 "AddI" [none, some 1, some 2]) (operands 2147483647 1)
    (fun _ => none) .add _ _ _ _ rfl rfl hx hy hrange.1 hrange.2 (fun hdivides => by cases hdivides)
  have hfits := (computes_intType_iff rfl rfl hx hy hrange.1 hrange.2
    (fun hdivides => by cases hdivides) fun _ => none).mp hcomputes
  unfold FitsInt InInt at hfits
  omega

end Colata.IR
