/-
# Unrolled methods

The methods `test` of seven reproducers reduce an array block by block into one accumulator:
along the chain, from the left, or with the elements of a block combined on their own. Each
is compared with a method that takes one element at a time. The last block has to be whole;
on other arrays they throw.
-/

import Colata.ReassocChain.DualReductions

namespace Colata.ReassocChain

open Colata.Java Colata.Java.ForLoop Colata.Math

/-- `a + b` on `long`s. -/
def addLong (a b : ℤ) : ℤ := wrapLong (a + b)

namespace PrimitiveAndIf

def turn (array : LongArray) (i x : ℤ) : Except Failure ℤ := do
  let v ← array.read i 0
  .ok (max x v)

def test (array : LongArray) (fuel : ℕ) : Except Failure ℤ :=
  forBlocks array 1 (turn array) fuel 0 intMin

end PrimitiveAndIf

namespace PrimitiveAndIfUnrolled

def turn (array : LongArray) (i x : ℤ) : Except Failure ℤ := do
  let v0 ← array.read i 0
  let v1 ← array.read i 1
  let v2 ← array.read i 2
  let v3 ← array.read i 3
  let t0 := max v0 x
  let t1 := max v1 t0
  let t2 := max v2 t1
  .ok (max v3 t2)

def test (array : LongArray) (fuel : ℕ) : Except Failure ℤ :=
  forBlocks array 4 (turn array) fuel 0 intMin

end PrimitiveAndIfUnrolled

namespace PrimitiveAndIfReassociatedBasic

def turn (array : LongArray) (i x : ℤ) : Except Failure ℤ := do
  let v0 ← array.read i 0
  let v1 ← array.read i 1
  let v2 ← array.read i 2
  let v3 ← array.read i 3
  let t0 := max v1 v0
  let t1 := max v2 t0
  let t2 := max v3 t1
  .ok (max x t2)

def test (array : LongArray) (fuel : ℕ) : Except Failure ℤ :=
  forBlocks array 4 (turn array) fuel 0 intMin

end PrimitiveAndIfReassociatedBasic

namespace PrimitiveAndIfReassociatedOptimal

def turn (array : LongArray) (i x : ℤ) : Except Failure ℤ := do
  let v0 ← array.read i 0
  let v1 ← array.read i 1
  let v2 ← array.read i 2
  let v3 ← array.read i 3
  let t0 := max v0 v1
  let t1 := max v2 v3
  let t2 := max t0 t1
  .ok (max x t2)

def test (array : LongArray) (fuel : ℕ) : Except Failure ℤ :=
  forBlocks array 4 (turn array) fuel 0 intMin

end PrimitiveAndIfReassociatedOptimal

namespace TestCommute

def turn (array : LongArray) (i result : ℤ) : Except Failure ℤ := do
  let v0 ← array.read i 0
  let v1 ← array.read i 1
  let v2 ← array.read i 2
  let v3 ← array.read i 3
  let t0 := max result v0
  let t1 := max t0 v1
  let t2 := max t1 v2
  let t3 := max t2 v3
  .ok t3

def test (array : LongArray) (fuel : ℕ) : Except Failure ℤ :=
  forBlocks array 4 (turn array) fuel 0 intMin

def expect (array : LongArray) (fuel : ℕ) : Except Failure ℤ :=
  forBlocks array 1 (TestPlain.expectTurn array) fuel 0 intMin

end TestCommute

namespace Unroll5

def turn (array : LongArray) (i result : ℤ) : Except Failure ℤ := do
  let v0 ← array.read i 0
  let v1 ← array.read i 1
  let v2 ← array.read i 2
  let v3 ← array.read i 3
  let v4 ← array.read i 4
  let t0 := max v0 result
  let t1 := max v1 t0
  let t2 := max v2 t1
  let t3 := max v3 t2
  let t4 := max v4 t3
  .ok t4

def test (array : LongArray) (fuel : ℕ) : Except Failure ℤ :=
  forBlocks array 5 (turn array) fuel 0 intMin

def expect (array : LongArray) (fuel : ℕ) : Except Failure ℤ :=
  forBlocks array 1 (TestPlain.expectTurn array) fuel 0 intMin

end Unroll5

namespace TestUseMiddle

/-- The accumulator and what the method has printed. -/
structure Printing where
  result : ℤ
  printed : List String

/-- `if (value == array.hashCode()) System.out.print(".")`. -/
def printIf (hashCode value : ℤ) (printed : List String) : List String :=
  if value = hashCode then printed ++ ["."] else printed

def turn (hashCode : ℤ) (array : LongArray) (i : ℤ) (state : Printing) :
    Except Failure Printing := do
  let v0 ← array.read i 0
  let v1 ← array.read i 1
  let v2 ← array.read i 2
  let v3 ← array.read i 3
  let v4 ← array.read i 4
  let v5 ← array.read i 5
  let v6 ← array.read i 6
  let v7 ← array.read i 7
  let v8 ← array.read i 8
  let v9 ← array.read i 9
  let v10 ← array.read i 10
  let v11 ← array.read i 11
  let v12 ← array.read i 12
  let v13 ← array.read i 13
  let v14 ← array.read i 14
  let v15 ← array.read i 15
  let t0 := max v0 state.result
  let t1 := max v1 t0
  let t2 := max v2 t1
  let t3 := max v3 t2
  let t4 := max v4 t3
  let t5 := max v5 t4
  let t6 := max v6 t5
  let t7 := max v7 t6
  let printed := printIf hashCode t7 state.printed
  let t8 := max v8 t7
  let t9 := max v9 t8
  let t10 := max v10 t9
  let t11 := max v11 t10
  let t12 := max v12 t11
  let t13 := max v13 t12
  let t14 := max v14 t13
  let t15 := max v15 t14
  .ok ⟨t15, printed⟩

def test (hashCode : ℤ) (array : LongArray) (fuel : ℕ) : Except Failure Printing :=
  forBlocks array 16 (turn hashCode array) fuel 0 ⟨intMin, []⟩

def expect (array : LongArray) (fuel : ℕ) : Except Failure ℤ :=
  forBlocks array 1 (TestPlain.expectTurn array) fuel 0 intMin

end TestUseMiddle

namespace TestUnrollLongAdd

def turn (array : LongArray) (i result : ℤ) : Except Failure ℤ := do
  let v0 ← array.read i 0
  let v1 ← array.read i 1
  let v2 ← array.read i 2
  let v3 ← array.read i 3
  let t0 := addLong v0 result
  let t1 := addLong v1 t0
  let t2 := addLong v2 t1
  let t3 := addLong v3 t2
  .ok t3

def test (array : LongArray) (fuel : ℕ) : Except Failure ℤ :=
  forBlocks array 4 (turn array) fuel 0 intMin

def expectTurn (array : LongArray) (i result : ℤ) : Except Failure ℤ := do
  let v ← array.read i 0
  let t := addLong v result
  .ok t

def expect (array : LongArray) (fuel : ℕ) : Except Failure ℤ :=
  forBlocks array 1 (expectTurn array) fuel 0 intMin

end TestUnrollLongAdd

/-! ## One turn -/

instance : Std.Commutative addLong where
  comm a b := congrArg wrapLong (add_comm a b)

instance : Std.Associative addLong where
  assoc a b c := by
    rw [addLong, addLong, addLong, addLong, wrapLong, wrapLong, wrapLong, wrapLong,
      Int.bmod_add_bmod, Int.add_bmod_bmod, add_assoc]

/-- A chain that takes its operands in from the right is the fold. -/
theorem chained_eq (op : ℤ → ℤ → ℤ) [Std.Commutative op] (block : ℕ → ℤ) (count : ℕ) (result : ℤ) :
    chained op block count result = ((List.range count).map block).foldl op result :=
  foldl_flip _ _

/-- A turn on one accumulator that takes its block in. -/
abbrev Takes (op : ℤ → ℤ → ℤ) (stride : ℕ) (array : LongArray) (turn : ℤ → ℤ → Except Failure ℤ) :
    Prop :=
  TakesBlock op stride array turn id fun _ => True

section Turns

variable (array : LongArray)

theorem PrimitiveAndIf.takes : Takes max 1 array (turn array) := by
  intro i block x hread
  refine ⟨max x (block 0), ?_, rfl, trivial⟩
  rw [turn, hread 0 (by decide)]
  rfl

theorem PrimitiveAndIfUnrolled.takes : Takes max 4 array (turn array) := by
  intro i block x hread
  refine ⟨chained max block 4 x, ?_, chained_eq .., trivial⟩
  rw [turn, hread 0 (by decide), hread 1 (by decide), hread 2 (by decide), hread 3 (by decide)]
  rfl

theorem PrimitiveAndIfReassociatedBasic.takes : Takes max 4 array (turn array) := by
  intro i block x hread
  have hgathers : Gathers max ((List.range 4).map block)
      (max (block 3) (max (block 2) (max (block 1) (block 0)))) := by
    rw [max_comm (block 1)]
    exact gathers_four max block
  refine ⟨_, ?_, hgathers x, trivial⟩
  rw [turn, hread 0 (by decide), hread 1 (by decide), hread 2 (by decide), hread 3 (by decide)]
  rfl

theorem PrimitiveAndIfReassociatedOptimal.takes : Takes max 4 array (turn array) := by
  intro i block x hread
  have hgathers : Gathers max ((List.range 4).map block)
      (max (max (block 0) (block 1)) (max (block 2) (block 3))) :=
    ((gathers_singleton _).append (gathers_singleton _)).append
      ((gathers_singleton _).append (gathers_singleton _))
  refine ⟨_, ?_, hgathers x, trivial⟩
  rw [turn, hread 0 (by decide), hread 1 (by decide), hread 2 (by decide), hread 3 (by decide)]
  rfl

theorem TestCommute.takes : Takes max 4 array (turn array) := by
  intro i block result hread
  refine ⟨((List.range 4).map block).foldl max result, ?_, rfl, trivial⟩
  rw [turn, hread 0 (by decide), hread 1 (by decide), hread 2 (by decide), hread 3 (by decide)]
  rfl

theorem Unroll5.takes : Takes max 5 array (turn array) := by
  intro i block result hread
  refine ⟨chained max block 5 result, ?_, chained_eq .., trivial⟩
  rw [turn, hread 0 (by decide), hread 1 (by decide), hread 2 (by decide), hread 3 (by decide),
    hread 4 (by decide)]
  rfl

theorem TestUseMiddle.takes (hashCode : ℤ) :
    TakesBlock max 16 array (turn hashCode array) Printing.result fun _ => True := by
  intro i block state hread
  have hturn : turn hashCode array i state = .ok ⟨chained max block 16 state.result,
      printIf hashCode (chained max block 8 state.result) state.printed⟩ := by
    rw [turn, hread 0 (by decide), hread 1 (by decide), hread 2 (by decide), hread 3 (by decide),
      hread 4 (by decide), hread 5 (by decide), hread 6 (by decide), hread 7 (by decide),
      hread 8 (by decide), hread 9 (by decide), hread 10 (by decide), hread 11 (by decide),
      hread 12 (by decide), hread 13 (by decide), hread 14 (by decide), hread 15 (by decide)]
    rfl
  exact ⟨_, hturn, chained_eq .., trivial⟩

theorem TestUnrollLongAdd.takes : Takes addLong 4 array (turn array) := by
  intro i block result hread
  refine ⟨chained addLong block 4 result, ?_, chained_eq .., trivial⟩
  rw [turn, hread 0 (by decide), hread 1 (by decide), hread 2 (by decide), hread 3 (by decide)]
  rfl

theorem TestUnrollLongAdd.takesElement : Takes addLong 1 array (expectTurn array) := by
  intro i block result hread
  refine ⟨chained addLong block 1 result, ?_, chained_eq .., trivial⟩
  rw [expectTurn, hread 0 (by decide)]
  rfl

/-! ## A missing element -/

theorem PrimitiveAndIfUnrolled.throwsOutside : ThrowsOutside 4 array (turn array) :=
  throwsOutside_of_loads fun _ _ => by
    repeat refine .read fun _ => ?_
    exact .done

theorem PrimitiveAndIfReassociatedBasic.throwsOutside : ThrowsOutside 4 array (turn array) :=
  throwsOutside_of_loads fun _ _ => by
    repeat refine .read fun _ => ?_
    exact .done

theorem PrimitiveAndIfReassociatedOptimal.throwsOutside : ThrowsOutside 4 array (turn array) :=
  throwsOutside_of_loads fun _ _ => by
    repeat refine .read fun _ => ?_
    exact .done

theorem TestCommute.throwsOutside : ThrowsOutside 4 array (turn array) :=
  throwsOutside_of_loads fun _ _ => by
    repeat refine .read fun _ => ?_
    exact .done

theorem Unroll5.throwsOutside : ThrowsOutside 5 array (turn array) :=
  throwsOutside_of_loads fun _ _ => by
    repeat refine .read fun _ => ?_
    exact .done

theorem TestUseMiddle.throwsOutside (hashCode : ℤ) : ThrowsOutside 16 array (turn hashCode array) :=
  throwsOutside_of_loads fun _ _ => by
    repeat refine .read fun _ => ?_
    exact .done

theorem TestUnrollLongAdd.throwsOutside : ThrowsOutside 4 array (turn array) :=
  throwsOutside_of_loads fun _ _ => by
    repeat refine .read fun _ => ?_
    exact .done

end Turns

/-! ## The methods -/

inductive UnrolledTest
  | primitiveAndIfUnrolled
  | primitiveAndIfReassociatedBasic
  | primitiveAndIfReassociatedOptimal
  | commute
  | unroll5
  | useMiddle
  | unrollLongAdd

namespace UnrolledTest

/-- The unroll factor. -/
def unroll : UnrolledTest → ℕ
  | .unroll5 => 5
  | .useMiddle => 16
  | _ => 4

/-- What `test` returns for an array with this hash code. -/
def test (method : UnrolledTest) (hashCode : ℤ) (array : LongArray) (fuel : ℕ) :
    Except Failure ℤ :=
  match method with
  | .primitiveAndIfUnrolled => PrimitiveAndIfUnrolled.test array fuel
  | .primitiveAndIfReassociatedBasic => PrimitiveAndIfReassociatedBasic.test array fuel
  | .primitiveAndIfReassociatedOptimal => PrimitiveAndIfReassociatedOptimal.test array fuel
  | .commute => TestCommute.test array fuel
  | .unroll5 => Unroll5.test array fuel
  | .useMiddle => (TestUseMiddle.test hashCode array fuel).map TestUseMiddle.Printing.result
  | .unrollLongAdd => TestUnrollLongAdd.test array fuel

/-- The method that takes one element at a time. -/
def expect (method : UnrolledTest) (array : LongArray) (fuel : ℕ) : Except Failure ℤ :=
  match method with
  | .primitiveAndIfUnrolled | .primitiveAndIfReassociatedBasic
  | .primitiveAndIfReassociatedOptimal => PrimitiveAndIf.test array fuel
  | .commute => TestCommute.expect array fuel
  | .unroll5 => Unroll5.expect array fuel
  | .useMiddle => TestUseMiddle.expect array fuel
  | .unrollLongAdd => TestUnrollLongAdd.expect array fuel

/-- The operation that the method reduces with. -/
def op : UnrolledTest → ℤ → ℤ → ℤ
  | .unrollLongAdd => addLong
  | _ => max

variable {array : LongArray} {fuel : ℕ}

theorem test_eq (method : UnrolledTest) (hashCode : ℤ) (hfuel : array.values.length < fuel) :
    method.test hashCode array fuel =
      if method.unroll ∣ array.values.length then .ok (array.values.foldl method.op intMin)
      else .error .outOfBounds := by
  have hid (outcome : Except Failure ℤ) : outcome.map id = outcome := by cases outcome <;> rfl
  have hsingle {op stride turn} (htakes : Takes op stride array turn)
      (hthrows : ThrowsOutside stride array turn) (hstride : 0 < stride) :
      forBlocks array stride turn fuel 0 intMin =
        if stride ∣ array.values.length then .ok (array.values.foldl op intMin)
        else .error .outOfBounds := by
    rw [← hid (forBlocks array stride turn fuel 0 intMin)]
    exact htakes.map_forBlocks hthrows hstride hfuel intMin
  cases method with
  | primitiveAndIfUnrolled =>
      exact hsingle (PrimitiveAndIfUnrolled.takes array)
        (PrimitiveAndIfUnrolled.throwsOutside array) (by decide)
  | primitiveAndIfReassociatedBasic =>
      exact hsingle (PrimitiveAndIfReassociatedBasic.takes array)
        (PrimitiveAndIfReassociatedBasic.throwsOutside array) (by decide)
  | primitiveAndIfReassociatedOptimal =>
      exact hsingle (PrimitiveAndIfReassociatedOptimal.takes array)
        (PrimitiveAndIfReassociatedOptimal.throwsOutside array) (by decide)
  | commute =>
      exact hsingle (TestCommute.takes array) (TestCommute.throwsOutside array) (by decide)
  | unroll5 => exact hsingle (Unroll5.takes array) (Unroll5.throwsOutside array) (by decide)
  | useMiddle =>
      exact (TestUseMiddle.takes array hashCode).map_forBlocks
        (TestUseMiddle.throwsOutside array hashCode) (by decide) hfuel ⟨intMin, []⟩
  | unrollLongAdd =>
      exact hsingle (TestUnrollLongAdd.takes array) (TestUnrollLongAdd.throwsOutside array)
        (by decide)

theorem expect_eq (method : UnrolledTest) (hfuel : array.values.length < fuel) :
    method.expect array fuel = .ok (array.values.foldl method.op intMin) := by
  have hsingle {op turn} (htakes : Takes op 1 array turn) :
      forBlocks array 1 turn fuel 0 intMin = .ok (array.values.foldl op intMin) := by
    obtain ⟨final, hfinal, hresult, -⟩ :=
      htakes.exists_forBlocks one_pos (one_dvd _) hfuel intMin
    rw [hfinal]
    exact congrArg Except.ok hresult
  cases method with
  | primitiveAndIfUnrolled => exact hsingle (PrimitiveAndIf.takes array)
  | primitiveAndIfReassociatedBasic => exact hsingle (PrimitiveAndIf.takes array)
  | primitiveAndIfReassociatedOptimal => exact hsingle (PrimitiveAndIf.takes array)
  | commute => exact hsingle (TestPlain.takesElement array)
  | unroll5 => exact hsingle (TestPlain.takesElement array)
  | useMiddle => exact hsingle (TestPlain.takesElement array)
  | unrollLongAdd => exact hsingle (TestUnrollLongAdd.takesElement array)

end UnrolledTest

/-- An unrolled method returns what the plain method returns if the array consists of whole
blocks, and throws otherwise. -/
theorem unrolled_agrees (method : UnrolledTest) (hashCode : ℤ) (array : LongArray) {fuel : ℕ}
    (hfuel : array.values.length < fuel) :
    ∃ expected, method.expect array fuel = .ok expected ∧
      method.test hashCode array fuel =
        if method.unroll ∣ array.values.length then .ok expected else .error .outOfBounds :=
  ⟨_, method.expect_eq hfuel, method.test_eq hashCode hfuel⟩

theorem unrolled_agrees_six :
    ∃ expected, Unroll5.expect ⟨[3, 1, 4, 1, 5, 9], by decide⟩ 7 = .ok expected ∧
      Unroll5.test ⟨[3, 1, 4, 1, 5, 9], by decide⟩ 7 =
        if 5 ∣ [3, 1, 4, 1, 5, 9].length then .ok expected else .error .outOfBounds :=
  unrolled_agrees .unroll5 0 ⟨[3, 1, 4, 1, 5, 9], by decide⟩ (by decide)

/-! ## Two accumulators of an addition -/

namespace TestCommonLongAdd

def turn (input : LongArray) (i : ℤ) (state : Accumulators) : Except Failure Accumulators := do
  let v0 ← input.read i 0
  let v1 ← input.read i 1
  let v2 ← input.read i 2
  let v3 ← input.read i 3
  let u0 := addLong v0 state.result
  let u1 := addLong v1 u0
  let u2 := addLong v2 u1
  let u3 := addLong v3 u2
  let result := u3
  let t0 := addLong v0 v1
  let t1 := addLong v2 t0
  let t2 := addLong v3 t1
  let t3 := addLong result t2
  .ok { state with result, result2 := t3 }

def test (input : LongArray) (fuel : ℕ) : Except Failure Accumulators :=
  forBlocks input 4 (turn input) fuel 0 ⟨longMin, longMin, []⟩

/-- The elements of the last turn. -/
def lastBlock (input : List ℤ) : List ℤ := input.drop (input.length - 4)

theorem foldl_addLong (list : List ℤ) (start : ℤ) :
    list.foldl addLong (wrapLong start) = wrapLong (start + list.sum) := by
  induction list generalizing start with
  | nil => rw [List.foldl_nil, List.sum_nil, add_zero]
  | cons v list ih =>
      have hstep : addLong (wrapLong start) v = wrapLong (start + v) := Int.bmod_add_bmod
      rw [List.foldl_cons, hstep, ih, List.sum_cons, add_assoc]

/-- The second accumulator takes the block in once more than the first one. -/
theorem turn_eq {input : LongArray} {i : ℤ} {block : ℕ → ℤ} (state : Accumulators)
    (hread : ∀ offset < 4, input.read i offset = .ok (block offset)) :
    turn input i state =
      .ok ⟨((List.range 4).map block).foldl addLong state.result,
        ((List.range 4).map block ++ (List.range 4).map block).foldl addLong state.result,
        state.printed⟩ := by
  rw [List.foldl_append, ← gathers_four addLong block (((List.range 4).map block).foldl _ _),
    ← chained_eq addLong block 4 state.result, turn, hread 0 (by decide), hread 1 (by decide),
    hread 2 (by decide), hread 3 (by decide)]
  rfl

theorem takes (input : LongArray) :
    TakesBlock addLong 4 input (turn input) Accumulators.result fun _ => True :=
  fun _ _ state hread => ⟨_, turn_eq state hread, rfl, trivial⟩

theorem throwsOutside (input : LongArray) : ThrowsOutside 4 input (turn input) :=
  throwsOutside_of_loads fun _ _ => by
    repeat refine .read fun _ => ?_
    exact .done

/-- The sums that the accumulators hold after these elements. -/
def sums (elements : List ℤ) : Accumulators :=
  ⟨wrapLong (longMin + elements.sum),
    wrapLong (longMin + elements.sum + (lastBlock elements).sum), []⟩

theorem exists_turn {input : LongArray} {i : ℕ} (hi : i + 4 ≤ input.values.length)
    {state : Accumulators} (hstate : state = sums (input.values.take i)) :
    ∃ next, turn input i state = .ok next ∧ next = sums (input.values.take (i + 4)) := by
  have hread : ∀ offset < 4, input.read i offset = .ok (input.values[i + offset]?.getD 0) :=
    fun offset hoffset => input.read_of_lt (by omega)
  have hblock := input.map_range_eq i 4 hi
  have hlast : lastBlock (input.values.take (i + 4)) = (input.values.drop i).take 4 := by
    rw [lastBlock, List.length_take, min_eq_left hi, Nat.add_sub_cancel, List.drop_take,
      Nat.add_sub_cancel_left]
  refine ⟨_, turn_eq state hread, ?_⟩
  rw [hblock, hstate, sums, sums, hlast, List.take_add, List.sum_append]
  simp only [foldl_addLong, List.sum_append, add_assoc]

theorem test_eq (input : LongArray) {fuel : ℕ} (hfuel : input.values.length < fuel) :
    test input fuel =
      if 4 ∣ input.values.length then .ok (sums input.values) else .error .outOfBounds := by
  by_cases hdvd : 4 ∣ input.values.length
  · have hturn : ∀ (i : ℕ) (state : Accumulators), i + 4 ≤ input.values.length →
        state = sums (input.values.take i) →
        ∃ next, turn input i state = .ok next ∧ next = sums (input.values.take (i + 4)) :=
      fun _ _ hi => exists_turn hi
    have hstart : (⟨longMin, longMin, []⟩ : Accumulators) = sums (input.values.take 0) := rfl
    obtain ⟨final, hfinal, hsums⟩ :=
      ForLoop.exists_forBlocks (by decide) hturn (Nat.zero_le _) hdvd hfuel hstart
    rw [List.take_length] at hsums
    rw [if_pos hdvd, ← hsums]
    exact hfinal
  · rw [if_neg hdvd]
    exact (takes input).forBlocks_eq_error (throwsOutside input) (by decide) _ (Nat.zero_le _)
      hdvd hfuel

theorem sums_agree_iff (elements : List ℤ) :
    (sums elements).Agree ↔ (2 ^ 64 : ℤ) ∣ (lastBlock elements).sum := by
  show wrapLong (longMin + elements.sum) =
    wrapLong (longMin + elements.sum + (lastBlock elements).sum) ↔ _
  rw [wrapLong, wrapLong, Int.bmod_eq_bmod_iff_bmod_sub_eq_zero, ← Int.dvd_iff_bmod_eq_zero,
    sub_add_cancel_left, Int.dvd_neg]
  rfl

end TestCommonLongAdd

/-- On whole blocks the first accumulator of `TestCommonLongAdd` is the wrapped sum, and the
second one agrees with it exactly if the elements of the last turn add up to zero. On any
other array the method throws. -/
theorem commonLongAdd_agree_iff (input : LongArray) {fuel : ℕ}
    (hfuel : input.values.length < fuel) :
    (4 ∣ input.values.length ∧ ∃ final, TestCommonLongAdd.test input fuel = .ok final ∧
      final.result = wrapLong (longMin + input.values.sum) ∧
      (final.result = final.result2 ↔
        (2 ^ 64 : ℤ) ∣ (input.values.drop (input.values.length - 4)).sum)) ∨
    (¬ 4 ∣ input.values.length ∧ TestCommonLongAdd.test input fuel = .error .outOfBounds) := by
  have htest := TestCommonLongAdd.test_eq input hfuel
  by_cases hdvd : 4 ∣ input.values.length
  · rw [if_pos hdvd] at htest
    exact Or.inl ⟨hdvd, TestCommonLongAdd.sums input.values, htest, rfl,
      TestCommonLongAdd.sums_agree_iff _⟩
  · rw [if_neg hdvd] at htest
    exact Or.inr ⟨hdvd, htest⟩

theorem commonLongAdd_agree_iff_four :
    (4 ∣ [3, 1, 4, 1].length ∧ ∃ final,
      TestCommonLongAdd.test ⟨[3, 1, 4, 1], by decide⟩ 5 = .ok final ∧
      final.result = wrapLong (longMin + 9) ∧
      (final.result = final.result2 ↔ (2 ^ 64 : ℤ) ∣ 9)) ∨
    (¬ 4 ∣ [3, 1, 4, 1].length ∧
      TestCommonLongAdd.test ⟨[3, 1, 4, 1], by decide⟩ 5 = .error .outOfBounds) :=
  commonLongAdd_agree_iff ⟨[3, 1, 4, 1], by decide⟩ (by decide)

end Colata.ReassocChain
