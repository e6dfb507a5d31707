/-
# The data of the branch-probability benchmarks

`setup` fills two arrays with random numbers, so that a given percentage of the values of
the first array exceed all that come before them. `distributeLongRandomIncrement` draws
new arrays until the percentage is met. The second array keeps the maximum before each
value, and the arrays for minima are the negated ones. An earlier generator has the same
loops with another choice of the values.
-/

import Colata.Languages.Java.Basic
import Mathlib.Data.List.Basic

namespace Colata.BranchProbability

open Colata.Java

/-- How a method ends that does not return: it is still running, it throws, or an
assertion fails with its message. -/
inductive Failure
  | running
  | negativeArraySize
  | indexOutOfBounds
  | arithmetic
  | assertion (message : String)
  deriving DecidableEq

/-- A source of random numbers. A draw lies from its origin up to its bound and moves the
source on. -/
structure RandomSource (σ : Type) where
  nextLong : ℤ → ℤ → σ → ℤ × σ
  inRange : ∀ origin bound source, origin < bound →
    origin ≤ (nextLong origin bound source).1 ∧ (nextLong origin bound source).1 < bound

/-! ## Arrays -/

/-- `new long[size]`. -/
def newLongs (size : ℤ) : Except Failure (List ℤ) :=
  if size < 0 then .error .negativeArraySize else .ok (List.replicate size.toNat 0)

/-- `array[i]`. -/
def read {α : Type} (array : List α) (i : ℕ) : Except Failure α :=
  array[i]?.elim (.error .indexOutOfBounds) .ok

theorem read_eq_ok {α : Type} {array : List α} {i : ℕ} (hi : i < array.length) :
    read array i = .ok array[i] := by
  rw [read, List.getElem?_eq_getElem hi, Option.elim_some]

/-- `array[i] = value`. -/
def store (array : List ℤ) (i : ℕ) (value : ℤ) : Except Failure (List ℤ) :=
  if i < array.length then .ok (array.set i value) else .error .indexOutOfBounds

/-- The quotient of two `int`s. -/
def divInt (dividend divisor : ℤ) : Except Failure ℤ :=
  if divisor = 0 then .error .arithmetic else .ok (wrapInt (dividend.tdiv divisor))

/-! ## Drawing the arrays -/

/-- The local variables of `distributeLongRandomIncrement`. -/
structure Distribution where
  result0 : List ℤ
  result1 : List ℤ
  max : ℤ
  aboveCount : ℤ

section Loops

variable {σ : Type}

/-- One turn of the `for` loop, for a choice of the next value. -/
def fillStep (choose : ℤ → ℤ → σ → ℤ × ℤ × σ) (state : Distribution × σ) (i : ℕ) :
    Except Failure (Distribution × σ) := do
  let next := choose state.1.max state.1.aboveCount state.2
  let result0 ← store state.1.result0 i next.1
  let result1 ← store state.1.result1 i state.1.max
  .ok (⟨result0, result1, Max.max state.1.max next.1, next.2.1⟩, next.2.2)

/-- The body of the `do` loop without the percentage, for the draw of the first value and
the count that it starts with. -/
def fillOnce (draw : σ → ℤ × σ) (aboveCount : ℤ) (choose : ℤ → ℤ → σ → ℤ × ℤ × σ) (size : ℤ)
    (source : σ) : Except Failure (Distribution × σ) := do
  let max := draw source
  let longs ← newLongs size
  let result0 ← store longs 0 max.1
  let result1 ← store longs 0 (wrapLong (max.1 - 1))
  (List.range' 1 (result0.length - 1)).foldlM (fillStep choose)
    (⟨result0, result1, max.1, aboveCount⟩, max.2)

/-- `do { … } while (abovePercent != probability)`, for the percentage of a count. -/
def fillUntil (once : σ → Except Failure (Distribution × σ)) (percent : ℤ → Except Failure ℤ)
    (probability : ℤ) : ℕ → σ → Except Failure ((List ℤ × List ℤ) × σ)
  | 0, _ => .error .running
  | fuel + 1, source => do
      let next ← once source
      let abovePercent ← percent next.1.aboveCount
      if abovePercent ≠ probability then fillUntil once percent probability fuel next.2
      else .ok ((next.1.result0, next.1.result1), next.2)

end Loops

section Source

variable {σ : Type} (random : RandomSource σ)

/-- The choice of the next value: a new maximum, counted, or a value below the maximum. -/
def nextValue (probability max aboveCount : ℤ) (source : σ) : ℤ × ℤ × σ :=
  let percent := random.nextLong 0 101 source
  if percent.1 ≤ probability then
    let increment := random.nextLong 1 10 percent.2
    (wrapLong (max + increment.1), wrapInt (aboveCount + 1), increment.2)
  else
    let diffToMax := random.nextLong 1 10 percent.2
    (wrapLong (max - diffToMax.1), aboveCount, diffToMax.2)

/-- The body of the `do` loop. The first value counts. -/
def distributeOnce (size probability : ℤ) : σ → Except Failure (Distribution × σ) :=
  fillOnce (random.nextLong 1 10) 1 (nextValue random probability) size

def distributeLongRandomIncrement (size probability : ℤ) :
    ℕ → σ → Except Failure ((List ℤ × List ℤ) × σ) :=
  fillUntil (distributeOnce random size probability)
    (fun aboveCount => divInt (wrapInt (aboveCount * 100)) size) probability

structure LoopState where
  size : ℤ
  probability : ℤ
  maxLongA : List ℤ
  maxLongB : List ℤ
  minLongA : List ℤ
  minLongB : List ℤ

def negate (nums : List ℤ) : List ℤ := nums.map fun l => wrapLong (-l)

def setup (size probability : ℤ) (fuel : ℕ) (source : σ) :
    Except Failure (LoopState × σ) := do
  let longs ← distributeLongRandomIncrement random size probability fuel source
  .ok (⟨size, probability, longs.1.1, longs.1.2, negate longs.1.1, negate longs.1.2⟩, longs.2)

end Source

end Colata.BranchProbability
