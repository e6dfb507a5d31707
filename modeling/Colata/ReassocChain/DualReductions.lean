/-
# Methods that reduce an array twice

The methods `test` of four reproducers keep two accumulators. One takes the elements of a
block in along a chain; the other one is set in every turn from the first one, after or
before its own update, and from the elements of the block combined on their own. Both
hold the same after every turn. Before the first turn they hold what they start with,
which differs in one of the methods.
-/

import Colata.Languages.Java.BlockLoop
import Colata.Math.Reduction

namespace Colata.ReassocChain

open Colata.Java Colata.Java.ForLoop Colata.Math

/-- `Long.MIN_VALUE`. -/
def longMin : ℤ := -2 ^ 63

/-- `Long.MAX_VALUE`. -/
def longMax : ℤ := 2 ^ 63 - 1

/-- The accumulators, which `test` returns, and what the method has printed. -/
structure Accumulators where
  result : ℤ
  result2 : ℤ
  printed : List String
  deriving DecidableEq

namespace TestPlain

def turn (array : LongArray) (i : ℤ) (state : Accumulators) : Except Failure Accumulators := do
  let v0 ← array.read i 0
  let v1 ← array.read i 1
  let v2 ← array.read i 2
  let v3 ← array.read i 3
  let u0 := max v0 state.result
  let u1 := max v1 u0
  let u2 := max v2 u1
  let u3 := max v3 u2
  let result := u3
  let t0 := max v0 v1
  let t1 := max v2 v3
  let t2 := max t0 t1
  let t3 := max result t2
  .ok { state with result, result2 := t3 }

def test (array : LongArray) (fuel : ℕ) : Except Failure Accumulators :=
  forBlocks array 4 (turn array) fuel 0 ⟨intMin, intMin, []⟩

def expectTurn (array : LongArray) (i result : ℤ) : Except Failure ℤ := do
  let v ← array.read i 0
  let t := max v result
  .ok t

/-- The reduction that `validate` compares both accumulators with. -/
def expect (array : LongArray) (fuel : ℕ) : Except Failure ℤ :=
  forBlocks array 1 (expectTurn array) fuel 0 intMin

end TestPlain

namespace TestCommonRolandLongMax

def turn (input : LongArray) (i : ℤ) (state : Accumulators) : Except Failure Accumulators := do
  let v0 ← input.read i 0
  let v1 ← input.read i 1
  let v2 ← input.read i 2
  let v3 ← input.read i 3
  let u0 := max v0 state.result
  let u1 := max v1 u0
  let u2 := max v2 u1
  let u3 := max v3 u2
  let t0 := max v0 v1
  let t1 := max v2 t0
  let t2 := max v3 t1
  -- `result` is updated after this.
  let t3 := max state.result t2
  .ok { state with result := u3, result2 := t3 }

def test (input : LongArray) (fuel : ℕ) : Except Failure Accumulators :=
  forBlocks input 4 (turn input) fuel 0 ⟨longMin, longMin, []⟩

end TestCommonRolandLongMax

namespace TestCommonLongMin

def turn (input : LongArray) (i : ℤ) (state : Accumulators) : Except Failure Accumulators := do
  let v0 ← input.read i 0
  let v1 ← input.read i 1
  let v2 ← input.read i 2
  let v3 ← input.read i 3
  let u0 := min v0 state.result
  let u1 := min v1 u0
  let u2 := min v2 u1
  let u3 := min v3 u2
  let result := u3
  let t0 := min v0 v1
  let t1 := min v2 t0
  let t2 := min v3 t1
  let t3 := min result t2
  .ok { state with result, result2 := t3 }

def test (input : LongArray) (fuel : ℕ) : Except Failure Accumulators :=
  forBlocks input 4 (turn input) fuel 0 ⟨longMax, longMax, []⟩

end TestCommonLongMin

namespace TestCommonLongMaxMiddle

/-- `if (value == input.hashCode()) System.out.print("")`. -/
def printIf (hashCode value : ℤ) (printed : List String) : List String :=
  if value = hashCode then printed ++ [""] else printed

def turn (hashCode : ℤ) (input : LongArray) (i : ℤ) (state : Accumulators) :
    Except Failure Accumulators := do
  let v0 ← input.read i 0
  let v1 ← input.read i 1
  let v2 ← input.read i 2
  let v3 ← input.read i 3
  let v4 ← input.read i 4
  let v5 ← input.read i 5
  let v6 ← input.read i 6
  let v7 ← input.read i 7
  let u0 := max v0 state.result
  let u1 := max v1 u0
  let u2 := max v2 u1
  let u3 := max v3 u2
  let printed := printIf hashCode u3 state.printed
  let u4 := max v4 u3
  let u5 := max v5 u4
  let u6 := max v6 u5
  let u7 := max v7 u6
  let t0 := max v0 v1
  let t1 := max v2 t0
  let t2 := max v3 t1
  let t3 := max state.result t2
  let printed := printIf hashCode t3 printed
  let t4 := max v4 t3
  let t5 := max v5 t4
  let t6 := max v6 t5
  let t7 := max v7 t6
  .ok ⟨u7, t7, printed⟩

def test (hashCode : ℤ) (input : LongArray) (fuel : ℕ) : Except Failure Accumulators :=
  forBlocks input 8 (turn hashCode input) fuel 0 ⟨intMin, longMin, []⟩

end TestCommonLongMaxMiddle

/-! ## One turn -/

/-- After a turn both accumulators hold the same. -/
def Accumulators.Agree (state : Accumulators) : Prop := state.result = state.result2

instance : DecidablePred Accumulators.Agree :=
  fun state => inferInstanceAs (Decidable (state.result = state.result2))

/-- The elements of a block, taken in along a chain. -/
def chained (op : ℤ → ℤ → ℤ) (block : ℕ → ℤ) (count : ℕ) (result : ℤ) : ℤ :=
  ((List.range count).map block).foldl (fun result v => op v result) result

theorem TestPlain.takesBlock (array : LongArray) :
    TakesBlock max 4 array (turn array) Accumulators.result Accumulators.Agree := by
  intro i block state hread
  have hchain : chained max block 4 state.result = _ := foldl_flip _ _
  let tree := max (max (block 0) (block 1)) (max (block 2) (block 3))
  have htree : Gathers max ((List.range 4).map block) tree :=
    ((gathers_singleton _).append (gathers_singleton _)).append
      ((gathers_singleton _).append (gathers_singleton _))
  have hturn : turn array i state = .ok ⟨chained max block 4 state.result,
      max (chained max block 4 state.result) tree, state.printed⟩ := by
    rw [turn, hread 0 (by decide), hread 1 (by decide), hread 2 (by decide), hread 3 (by decide)]
    rfl
  refine ⟨_, hturn, hchain, ?_⟩
  show _ = max _ _
  rw [hchain, htree.absorb]

theorem TestPlain.takesElement (array : LongArray) :
    TakesBlock max 1 array (expectTurn array) id fun _ => True := by
  intro i block result hread
  have hchain : chained max block 1 result = _ := foldl_flip _ _
  have hturn : expectTurn array i result = .ok (chained max block 1 result) := by
    rw [expectTurn, hread 0 (by decide)]
    rfl
  exact ⟨_, hturn, hchain, trivial⟩

/-- Four elements, combined from the left. -/
theorem gathers_four (op : ℤ → ℤ → ℤ) [Std.Associative op] [Std.Commutative op] (block : ℕ → ℤ) :
    Gathers op ((List.range 4).map block)
      (op (block 3) (op (block 2) (op (block 0) (block 1)))) :=
  (((gathers_singleton _).append (gathers_singleton _)).concat _).concat _

theorem TestCommonRolandLongMax.takesBlock (input : LongArray) :
    TakesBlock max 4 input (turn input) Accumulators.result Accumulators.Agree := by
  intro i block state hread
  have hchain : chained max block 4 state.result = _ := foldl_flip _ _
  have hturn : turn input i state = .ok ⟨chained max block 4 state.result,
      max state.result (max (block 3) (max (block 2) (max (block 0) (block 1)))),
      state.printed⟩ := by
    rw [turn, hread 0 (by decide), hread 1 (by decide), hread 2 (by decide), hread 3 (by decide)]
    rfl
  refine ⟨_, hturn, hchain, ?_⟩
  show _ = max _ _
  rw [hchain, gathers_four max block]

theorem TestCommonLongMin.takesBlock (input : LongArray) :
    TakesBlock min 4 input (turn input) Accumulators.result Accumulators.Agree := by
  intro i block state hread
  have hchain : chained min block 4 state.result = _ := foldl_flip _ _
  have hturn : turn input i state = .ok ⟨chained min block 4 state.result,
      min (chained min block 4 state.result)
        (min (block 3) (min (block 2) (min (block 0) (block 1)))), state.printed⟩ := by
    rw [turn, hread 0 (by decide), hread 1 (by decide), hread 2 (by decide), hread 3 (by decide)]
    rfl
  refine ⟨_, hturn, hchain, ?_⟩
  show _ = min _ _
  rw [hchain, (gathers_four min block).absorb]

theorem TestCommonLongMaxMiddle.takesBlock (hashCode : ℤ) (input : LongArray) :
    TakesBlock max 8 input (turn hashCode input) Accumulators.result Accumulators.Agree := by
  intro i block state hread
  have hchain : chained max block 8 state.result = _ := foldl_flip _ _
  let t3 := max state.result (max (block 3) (max (block 2) (max (block 0) (block 1))))
  -- Halfway the second accumulator has caught up with the first one.
  have hmiddle : t3 = chained max block 4 state.result := by
    have hhalf : chained max block 4 state.result = _ := foldl_flip _ _
    rw [hhalf]
    exact gathers_four max block state.result
  have hturn : turn hashCode input i state = .ok ⟨chained max block 8 state.result,
      max (block 7) (max (block 6) (max (block 5) (max (block 4) t3))),
      printIf hashCode t3 (printIf hashCode (chained max block 4 state.result) state.printed)⟩ := by
    rw [turn, hread 0 (by decide), hread 1 (by decide), hread 2 (by decide), hread 3 (by decide),
      hread 4 (by decide), hread 5 (by decide), hread 6 (by decide), hread 7 (by decide)]
    rfl
  refine ⟨_, hturn, hchain, ?_⟩
  show _ = max _ _
  rw [hmiddle]
  rfl

/-! ## The methods -/

inductive DualTest
  | plain
  | commonRolandLongMax
  | commonLongMin
  | commonLongMaxMiddle
  deriving DecidableEq

/-- The unroll factor. -/
def DualTest.unroll : DualTest → ℕ
  | .plain | .commonRolandLongMax | .commonLongMin => 4
  | .commonLongMaxMiddle => 8

/-- What `test` returns for an array with this hash code. -/
def DualTest.test (method : DualTest) (hashCode : ℤ) (array : LongArray) (fuel : ℕ) :
    Except Failure Accumulators :=
  match method with
  | .plain => TestPlain.test array fuel
  | .commonRolandLongMax => TestCommonRolandLongMax.test array fuel
  | .commonLongMin => TestCommonLongMin.test array fuel
  | .commonLongMaxMiddle => TestCommonLongMaxMiddle.test hashCode array fuel

/-- The operation that the method reduces with. -/
def DualTest.op : DualTest → ℤ → ℤ → ℤ
  | .plain | .commonRolandLongMax | .commonLongMaxMiddle => max
  | .commonLongMin => min

/-- What the accumulators hold before the first turn. -/
def DualTest.start : DualTest → Accumulators
  | .plain => ⟨intMin, intMin, []⟩
  | .commonRolandLongMax => ⟨longMin, longMin, []⟩
  | .commonLongMin => ⟨longMax, longMax, []⟩
  | .commonLongMaxMiddle => ⟨intMin, longMin, []⟩

theorem DualTest.unroll_pos (method : DualTest) : 0 < method.unroll := by
  cases method <;> decide

theorem DualTest.agree_start_iff (method : DualTest) :
    method.start.Agree ↔ method ≠ .commonLongMaxMiddle := by
  cases method <;> decide

section Methods

variable {array : LongArray} {fuel : ℕ}

/-- On whole blocks a method returns, its first accumulator is the reduction of the array,
and the second one agrees with it unless there was no turn. -/
theorem DualTest.exists_test (method : DualTest) (hashCode : ℤ)
    (hdvd : method.unroll ∣ array.values.length) (hfuel : array.values.length < fuel) :
    ∃ final, method.test hashCode array fuel = .ok final ∧
      final.result = array.values.foldl method.op method.start.result ∧
      (array.values = [] → final = method.start) ∧ (array.values ≠ [] → final.Agree) := by
  have hpos := method.unroll_pos
  cases method with
  | plain => exact (TestPlain.takesBlock array).exists_forBlocks hpos hdvd hfuel _
  | commonRolandLongMax =>
      exact (TestCommonRolandLongMax.takesBlock array).exists_forBlocks hpos hdvd hfuel _
  | commonLongMin => exact (TestCommonLongMin.takesBlock array).exists_forBlocks hpos hdvd hfuel _
  | commonLongMaxMiddle =>
      exact (TestCommonLongMaxMiddle.takesBlock hashCode array).exists_forBlocks hpos hdvd hfuel _

/-- What `validate` checks holds of every array of whole blocks. -/
theorem TestPlain.test_eq_expect (hdvd : 4 ∣ array.values.length)
    (hfuel : array.values.length < fuel) :
    ∃ final expected, TestPlain.test array fuel = .ok final ∧
      TestPlain.expect array fuel = .ok expected ∧
      final.result = expected ∧ final.result2 = expected := by
  obtain ⟨expected, hexpected, hvalue, _⟩ :=
    (TestPlain.takesElement array).exists_forBlocks one_pos (one_dvd _) hfuel intMin
  obtain ⟨final, hfinal, hresult, hnone, hsome⟩ := DualTest.plain.exists_test 0 hdvd hfuel
  have hexpect : final.result = expected := hresult.trans hvalue.symm
  have hagree : final.Agree := by
    by_cases hempty : array.values = []
    · rw [hnone hempty]
      decide
    · exact hsome hempty
  exact ⟨final, expected, hfinal, hexpected, hexpect, hagree.symm.trans hexpect⟩

/-- On whole blocks the accumulators that are returned are equal, except that
`TestCommonLongMaxMiddle` starts them differently and takes no turn on an empty array. -/
theorem test_agree_iff (method : DualTest) (hashCode : ℤ)
    (hdvd : method.unroll ∣ array.values.length) (hfuel : array.values.length < fuel) :
    (∃ final, method.test hashCode array fuel = .ok final ∧ final.result = final.result2) ↔
      (method = .commonLongMaxMiddle → array.values ≠ []) := by
  obtain ⟨final, hfinal, _, hnone, hsome⟩ := method.exists_test hashCode hdvd hfuel
  constructor
  · rintro ⟨returned, hreturned, hequal⟩ hmiddle hempty
    obtain rfl : final = returned := Except.ok.inj (hfinal.symm.trans hreturned)
    rw [hnone hempty] at hequal
    exact method.agree_start_iff.mp hequal hmiddle
  · intro hcondition
    refine ⟨final, hfinal, ?_⟩
    by_cases hempty : array.values = []
    · rw [hnone hempty]
      exact method.agree_start_iff.mpr fun hmiddle => hcondition hmiddle hempty
    · exact hsome hempty

theorem test_agree_iff_four :
    (∃ final, DualTest.plain.test 7 ⟨[3, 1, 4, 1], by decide⟩ 5 = .ok final ∧
      final.result = final.result2) ↔
      (DualTest.plain = .commonLongMaxMiddle → ([3, 1, 4, 1] : List ℤ) ≠ []) :=
  test_agree_iff .plain 7 (by decide) (by decide)

/-- On an empty array the two accumulators of `TestCommonLongMaxMiddle` differ. -/
theorem not_forall_test_agree :
    ¬ ∀ (method : DualTest) (hashCode : ℤ) (array : LongArray),
      method.unroll ∣ array.values.length → ∀ fuel, array.values.length < fuel →
        ∃ final, method.test hashCode array fuel = .ok final ∧ final.result = final.result2 := by
  intro hall
  obtain ⟨final, hfinal, hequal⟩ := hall .commonLongMaxMiddle 0 ⟨[], by decide⟩ (by decide) 1 (by decide)
  obtain rfl : DualTest.commonLongMaxMiddle.start = final := Except.ok.inj hfinal
  exact absurd hequal (by decide)

end Methods

end Colata.ReassocChain
