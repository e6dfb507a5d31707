/-
# Exclusive or of narrow integers

`TestXorByte`, `TestXorShort`, `TestXor`, `TestByteXorBig` and `TestCharXorBig` reduce three
arrays of a type below `int`. The arithmetic is that of `int`: every element is widened
first, and every result is cast back. Casts respect the operators that are used, so that a
single cast behind the loop does what the casts inside do, and the turns may be dealt out
to lanes in any order.
-/

import Colata.Languages.Java.ForLoop
import Colata.Math.Reduction
import Mathlib.Data.List.Perm.Basic

namespace Colata.ReassocChain

open Colata.Java Colata.Java.ForLoop Colata.Math

/-- An integer type of Java that is widened to `int`. -/
structure NarrowType where
  width : ℕ
  signed : Bool
  width_le : width ≤ 32

/-- `byte` -/
def NarrowType.byte : NarrowType := ⟨8, true, by decide⟩

/-- `short` -/
def NarrowType.short : NarrowType := ⟨16, true, by decide⟩

/-- `char` -/
def NarrowType.char : NarrowType := ⟨16, false, by decide⟩

namespace NarrowType

variable (type : NarrowType)

abbrev Value := BitVec type.width

/-- The conversion to `int`. -/
def widen (x : type.Value) : BitVec 32 := if type.signed then x.signExtend 32 else x.setWidth 32

/-- The cast of an `int`. -/
def cast (x : BitVec 32) : type.Value := x.setWidth type.width

def read (array : List type.Value) (i : ℕ) : Except Failure type.Value :=
  array[i]?.elim (.error .outOfBounds) .ok

/-- `result ^= val`, which casts too. -/
def xorAssign (result val : type.Value) : type.Value :=
  type.cast (type.widen result ^^^ type.widen val)

/-- `(a1[i] * a2[i]) + (a1[i] * a3[i]) + (a2[i] * a3[i])` -/
def sumOfProducts (elements : type.Value × type.Value × type.Value) : BitVec 32 :=
  let (x1, x2, x3) := elements
  type.widen x1 * type.widen x2 + type.widen x1 * type.widen x3 + type.widen x2 * type.widen x3

def xorTurn (a1 a2 a3 : List type.Value) (result : type.Value) (i : ℕ) :
    Except Failure type.Value := do
  let x1 ← type.read a1 i
  let x2 ← type.read a2 i
  let x3 ← type.read a3 i
  let val := type.cast (type.sumOfProducts (x1, x2, x3))
  .ok (type.xorAssign result val)

/-- The loop from 0 to `a1.length`. -/
def xorReduction (a1 a2 a3 : List type.Value) : Except Failure type.Value :=
  (List.range a1.length).foldlM (type.xorTurn a1 a2 a3) 0

end NarrowType

/-- `testByte` and `expectB` in `TestXorByte` and `TestXor`, `test` and `expect` in
`TestByteXorBig`. -/
def testByte : List (BitVec 8) → List (BitVec 8) → List (BitVec 8) → Except Failure (BitVec 8) :=
  NarrowType.byte.xorReduction

/-- `testShort` and `expectS` in `TestXorShort` and `TestXor`. -/
def testShort :
    List (BitVec 16) → List (BitVec 16) → List (BitVec 16) → Except Failure (BitVec 16) :=
  NarrowType.short.xorReduction

/-- `test` and `expect` in `TestCharXorBig`. -/
def testChar :
    List (BitVec 16) → List (BitVec 16) → List (BitVec 16) → Except Failure (BitVec 16) :=
  NarrowType.char.xorReduction

namespace NarrowType

variable {type : NarrowType}

/-! ## Casts -/

theorem cast_widen (x : type.Value) : type.cast (type.widen x) = x := by
  rw [cast, widen]
  split_ifs with hsigned
  · apply BitVec.eq_of_getLsbD_eq
    intro i hi
    have hle : i < 32 := hi.trans_le type.width_le
    rw [BitVec.getLsbD_setWidth, BitVec.getLsbD_signExtend]
    simp only [hi, hle, decide_true, Bool.true_and, if_true]
  · rw [BitVec.setWidth_setWidth_of_le x type.width_le, BitVec.setWidth_eq]

theorem cast_xor (x y : BitVec 32) : type.cast (x ^^^ y) = type.cast x ^^^ type.cast y :=
  BitVec.setWidth_xor

theorem cast_add (x y : BitVec 32) : type.cast (x + y) = type.cast x + type.cast y :=
  BitVec.setWidth_add x y type.width_le

theorem cast_mul (x y : BitVec 32) : type.cast (x * y) = type.cast x * type.cast y :=
  BitVec.setWidth_mul x y type.width_le

theorem xorAssign_eq (result val : type.Value) : type.xorAssign result val = result ^^^ val := by
  rw [xorAssign, cast_xor, cast_widen, cast_widen]

/-- The arithmetic of `int` is that of the narrow type, but for the bits a cast drops. -/
theorem cast_sumOfProducts (x1 x2 x3 : type.Value) :
    type.cast (type.sumOfProducts (x1, x2, x3)) = x1 * x2 + x1 * x3 + x2 * x3 := by
  rw [sumOfProducts, cast_add, cast_add, cast_mul, cast_mul, cast_mul, cast_widen, cast_widen,
    cast_widen]

/-! ## The loop -/

/-- What the three arrays hold at each index that all of them have. -/
def elements (a1 a2 a3 : List type.Value) : List (type.Value × type.Value × type.Value) :=
  a1.zip (a2.zip a3)

/-- The turns one after the other. -/
def reduce (list : List (type.Value × type.Value × type.Value)) : type.Value :=
  list.foldl (fun result x => type.xorAssign result (type.cast (type.sumOfProducts x))) 0

theorem reduce_concat (list : List (type.Value × type.Value × type.Value))
    (x : type.Value × type.Value × type.Value) :
    reduce (list ++ [x]) =
      type.xorAssign (reduce list) (type.cast (type.sumOfProducts x)) := by
  rw [reduce, List.foldl_append]
  rfl

/-- The turns as operands of one exclusive or. -/
theorem reduce_eq (list : List (type.Value × type.Value × type.Value)) :
    reduce list = (list.map (type.cast ∘ type.sumOfProducts)).foldl (· ^^^ ·) 0 := by
  rw [reduce, List.foldl_map]
  congr 1
  funext result x
  exact xorAssign_eq _ _

theorem read_eq_ok {array : List type.Value} {i : ℕ} (hi : i < array.length) :
    type.read array i = .ok array[i] := by
  rw [read, List.getElem?_eq_getElem hi]
  rfl

theorem read_eq_error {array : List type.Value} {i : ℕ} (hi : array.length ≤ i) :
    type.read array i = .error .outOfBounds := by
  rw [read, List.getElem?_eq_none hi]
  rfl

theorem xorTurn_eq_ok {a1 a2 a3 : List type.Value} {i : ℕ} (h1 : i < a1.length)
    (h2 : i < a2.length) (h3 : i < a3.length) (result : type.Value) :
    type.xorTurn a1 a2 a3 result i =
      .ok (type.xorAssign result (type.cast (type.sumOfProducts (a1[i], a2[i], a3[i])))) := by
  rw [xorTurn, read_eq_ok h1, ok_bind, read_eq_ok h2, ok_bind, read_eq_ok h3, ok_bind]

/-- A turn throws exactly where one of the other two arrays has ended. -/
theorem xorTurn_eq_error {a1 a2 a3 : List type.Value} {i : ℕ} (h1 : i < a1.length)
    (h : a2.length ≤ i ∨ a3.length ≤ i) (result : type.Value) :
    type.xorTurn a1 a2 a3 result i = .error .outOfBounds := by
  rw [xorTurn, read_eq_ok h1, ok_bind]
  by_cases h2 : i < a2.length
  · rw [read_eq_ok h2, ok_bind, read_eq_error (h.resolve_left (not_le.mpr h2))]
    rfl
  · rw [read_eq_error (not_lt.mp h2)]
    rfl

theorem elements_take_succ {a1 a2 a3 : List type.Value} {i : ℕ} (h1 : i < a1.length)
    (h2 : i < a2.length) (h3 : i < a3.length) :
    (elements a1 a2 a3).take (i + 1) = (elements a1 a2 a3).take i ++ [(a1[i], a2[i], a3[i])] := by
  have hlength : i < (elements a1 a2 a3).length := by
    simp only [elements, List.length_zip]
    omega
  rw [List.take_succ_eq_append_getElem hlength]
  simp [elements]

theorem xorReduction_eq_ok {a1 a2 a3 : List type.Value} (h2 : a1.length ≤ a2.length)
    (h3 : a1.length ≤ a3.length) :
    type.xorReduction a1 a2 a3 = .ok (reduce (elements a1 a2 a3)) := by
  have hturn : ∀ i, 0 ≤ i → i < 0 + a1.length → ∀ result,
      result = reduce ((elements a1 a2 a3).take i) →
      ∃ next, type.xorTurn a1 a2 a3 result i = .ok next ∧
        next = reduce ((elements a1 a2 a3).take (i + 1)) := by
    rintro i - hi result rfl
    rw [Nat.zero_add] at hi
    refine ⟨_, xorTurn_eq_ok hi (hi.trans_le h2) (hi.trans_le h3) _, ?_⟩
    rw [elements_take_succ hi (hi.trans_le h2) (hi.trans_le h3), reduce_concat]
  obtain ⟨final, hrun, hfinal⟩ := exists_foldlM_range' (by rfl) hturn
  have hall : (elements a1 a2 a3).length ≤ 0 + a1.length := by
    simp only [elements, List.length_zip]
    omega
  rw [List.take_of_length_le hall] at hfinal
  rw [xorReduction, List.range_eq_range', ← hfinal]
  exact hrun

/-- The loop throws in the turn where one of the other two arrays has ended. -/
theorem xorReduction_eq_error {a1 a2 a3 : List type.Value}
    (h : a2.length < a1.length ∨ a3.length < a1.length) :
    type.xorReduction a1 a2 a3 = .error .outOfBounds := by
  apply foldlM_eq_error
  · intro i hi result
    have h1 : i < a1.length := List.mem_range.mp hi
    by_cases hend : a2.length ≤ i ∨ a3.length ≤ i
    · exact .inr (xorTurn_eq_error h1 hend result)
    · rw [not_or, not_le, not_le] at hend
      exact .inl ⟨_, xorTurn_eq_ok h1 hend.1 hend.2 result⟩
  · refine ⟨min a2.length a3.length, List.mem_range.mpr (by omega), fun result => ?_⟩
    exact xorTurn_eq_error (by omega) (by omega) result

/-! ## Other ways to compute it -/

/-- The reduction without casts: all of it in `int`, on the widened elements. -/
def intReduce (list : List (type.Value × type.Value × type.Value)) : BitVec 32 :=
  list.foldl (fun result x => result ^^^ type.sumOfProducts x) 0

/-- The conversion to another type, through `int`. -/
def convert (type other : NarrowType) (x : type.Value) : other.Value := other.cast (type.widen x)

/-- One cast behind the loop does what the casts inside do. -/
theorem cast_intReduce (list : List (type.Value × type.Value × type.Value)) :
    type.cast (intReduce list) = reduce list := by
  have hstep (result : BitVec 32) (x : type.Value × type.Value × type.Value) :
      type.xorAssign (type.cast result) (type.cast (type.sumOfProducts x)) =
        type.cast (result ^^^ type.sumOfProducts x) := by
    rw [xorAssign_eq, cast_xor]
  have hstart : type.cast 0 = 0 := BitVec.setWidth_zero type.width 32
  rw [intReduce, reduce, ← hstart]
  exact (List.foldl_hom type.cast hstep).symm

/-- The conversion back from a wider type drops the upper bits. -/
theorem convert_eq_setWidth {other : NarrowType} (h : type.width ≤ other.width)
    (x : other.Value) : other.convert type x = BitVec.setWidth type.width x := by
  conv_rhs => rw [← cast_widen x]
  exact (BitVec.setWidth_setWidth_of_le _ h).symm

theorem convert_convert {other : NarrowType} (h : type.width ≤ other.width) (x : type.Value) :
    other.convert type (type.convert other x) = x := by
  rw [convert_eq_setWidth h, convert, cast, BitVec.setWidth_setWidth_of_le _ h]
  exact cast_widen x

/-- The elements of a narrow type may be reduced as those of a wider one. -/
theorem convert_reduce {other : NarrowType} (h : type.width ≤ other.width)
    (list : List (type.Value × type.Value × type.Value)) :
    let conv := type.convert other
    other.convert type (reduce (list.map (Prod.map conv (Prod.map conv conv)))) = reduce list := by
  intro conv
  have hback (x : type.Value) : BitVec.setWidth type.width (conv x) = x := by
    rw [← convert_eq_setWidth h]
    exact convert_convert h x
  have hstep (result : other.Value) (x : type.Value × type.Value × type.Value) :
      type.xorAssign (BitVec.setWidth type.width result) (type.cast (type.sumOfProducts x)) =
        BitVec.setWidth type.width (other.xorAssign result
          (other.cast (other.sumOfProducts (Prod.map conv (Prod.map conv conv) x)))) := by
    obtain ⟨x1, x2, x3⟩ := x
    simp only [Prod.map, xorAssign_eq, cast_sumOfProducts, BitVec.setWidth_xor,
      BitVec.setWidth_add _ _ h, BitVec.setWidth_mul _ _ h, hback]
  have hstart : BitVec.setWidth type.width (0 : other.Value) = 0 := BitVec.setWidth_zero _ _
  rw [convert_eq_setWidth h, reduce, reduce, List.foldl_map, ← hstart]
  exact (List.foldl_hom (BitVec.setWidth type.width) hstep).symm

/-- A lane is one operand in place of those it took. -/
theorem gathers_reduce (list : List (type.Value × type.Value × type.Value)) :
    Gathers (· ^^^ ·) (list.map (type.cast ∘ type.sumOfProducts)) (reduce list) := by
  rw [reduce_eq]
  exact gathers_foldl (fun _ => BitVec.xor_zero) _

/-- Lanes that take the turns in any order, combined at the end. -/
theorem foldl_lanes (lanes : List (List (type.Value × type.Value × type.Value)))
    (start : type.Value) :
    (lanes.map reduce).foldl type.xorAssign start =
      (lanes.flatten.map (type.cast ∘ type.sumOfProducts)).foldl (· ^^^ ·) start := by
  induction lanes generalizing start with
  | nil => rfl
  | cons lane lanes ih =>
      rw [List.map_cons, List.foldl_cons, ih, xorAssign_eq, List.flatten_cons, List.map_append,
        List.foldl_append, ← gathers_reduce lane start]

theorem reduce_perm {list other : List (type.Value × type.Value × type.Value)}
    (h : list.Perm other) : reduce list = reduce other := by
  rw [reduce_eq, reduce_eq]
  exact (h.map _).foldl_op_eq

/-- The reduction returns on exactly the arrays of which the first is not the longest one.
Then it is what comes of all products in `int` with one cast at the end, of the reduction of
a wider type, and of any lanes that share the turns among them. -/
theorem xorReduction_agrees (type : NarrowType) (a1 a2 a3 : List type.Value) :
    type.xorReduction a1 a2 a3 =
        (if a1.length ≤ a2.length ∧ a1.length ≤ a3.length then
          .ok (type.cast (intReduce (elements a1 a2 a3))) else .error .outOfBounds) ∧
      (∀ other : NarrowType, type.width ≤ other.width →
        let conv := type.convert other
        (other.xorReduction (a1.map conv) (a2.map conv) (a3.map conv)).map (other.convert type) =
          type.xorReduction a1 a2 a3) ∧
      ∀ lanes : List (List (type.Value × type.Value × type.Value)),
        lanes.flatten.Perm (elements a1 a2 a3) →
        ∀ result, type.xorReduction a1 a2 a3 = .ok result →
          result = (lanes.map reduce).foldl type.xorAssign 0 := by
  have hvalue : type.xorReduction a1 a2 a3 =
      if a1.length ≤ a2.length ∧ a1.length ≤ a3.length then
        .ok (reduce (elements a1 a2 a3)) else .error .outOfBounds := by
    split_ifs with h
    · exact xorReduction_eq_ok h.1 h.2
    · exact xorReduction_eq_error (by omega)
  refine ⟨by rw [hvalue, cast_intReduce], ?_, ?_⟩
  · intro other hwidth conv
    have hzip : elements (a1.map conv) (a2.map conv) (a3.map conv) =
        (elements a1 a2 a3).map (Prod.map conv (Prod.map conv conv)) := by
      rw [elements, elements, List.zip_map, List.zip_map]
    rw [hvalue]
    split_ifs with h
    · rw [xorReduction_eq_ok (by simpa using h.1) (by simpa using h.2), hzip]
      exact congrArg Except.ok (convert_reduce hwidth _)
    · rw [xorReduction_eq_error (by simp only [List.length_map]; omega)]
      rfl
  · intro lanes hlanes result hresult
    rw [hvalue] at hresult
    split_ifs at hresult with h
    rw [← Except.ok.inj hresult, foldl_lanes, ← reduce_eq]
    exact (reduce_perm hlanes).symm

/-- Bytes that are reduced as shorts, and in two lanes from behind. -/
theorem xorReduction_agrees_bytes :
    (testShort [3, -7] [100, 5] [-128, 9]).map (short.convert byte) =
        testByte [3, -7] [100, 5] [-128, 9] ∧
      ∀ result, testByte [3, -7] [100, 5] [-128, 9] = .ok result →
        result = byte.xorAssign (byte.xorAssign 0 (byte.reduce [(-7, 5, 9)]))
          (byte.reduce [(3, 100, -128)]) := by
  obtain ⟨-, hwider, hlanes⟩ := xorReduction_agrees byte [3, -7] [100, 5] [-128, 9]
  refine ⟨hwider short (by decide), hlanes [[(-7, 5, 9)], [(3, 100, -128)]] ?_⟩
  exact List.Perm.swap _ _ _

end NarrowType

end Colata.ReassocChain
