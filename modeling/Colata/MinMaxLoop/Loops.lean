/-
# What the loops compute

A `setup` that returns has the percentage it was asked for, in the arrays for maxima as in
those for minima. The loops over two arrays compute running extrema. The numbers are small
enough for `int`s to agree with `long`s, and minima mirror maxima.
-/

import Colata.MinMaxLoop.LoopState
import Mathlib.Algebra.Order.Group.MinMax

namespace Colata.MinMaxLoop

open Colata.Java Colata.Math
open Colata.BranchProbability (Failure RandomSource read read_eq_ok store newLongs_natCast counting)

/-! ## Loops over arrays -/

/-- The loop over one array is a fold. -/
theorem reduction_eq (op : ℤ → ℤ → ℤ) (wrap : ℤ → ℤ) (array : List ℤ) :
    reduction op wrap array array.length =
      .ok (array.foldl (fun result x => op result (wrap (11 * x))) 0) := by
  rw [reduction, Int.toNat_natCast]
  exact foldlM_range_read (fun _ => read_eq_ok) (fun result x => op result (wrap (11 * x))) 0

/-- The loop over two arrays combines them element by element. -/
theorem loop_eq (op : ℤ → ℤ → ℤ) {a b result : List ℤ} (hb : b.length = a.length)
    (hresult : result.length = a.length) :
    loop op a b result a.length = .ok (List.zipWith op a b) := by
  let target := List.zipWith op a b
  have htarget : target.length = a.length := by
    rw [List.length_zipWith, hb, min_self]
  have hturn : ∀ i, 0 ≤ i → i < 0 + a.length → ∀ current : List ℤ,
      current = target.take i ++ result.drop i →
      ∃ next, (do
        let x ← read a i
        let y ← read b i
        store current i (op x y)) = (.ok next : Except Failure (List ℤ)) ∧
        next = target.take (i + 1) ++ result.drop (i + 1) := by
    rintro i _ hi current rfl
    rw [Nat.zero_add] at hi
    have htake : (target.take i).length = i := by
      rw [List.length_take, htarget]
      omega
    have hread : read a i >>= (fun x => read b i >>= fun y =>
        store (target.take i ++ result.drop i) i (op x y)) =
          store (target.take i ++ result.drop i) i (op a[i] b[i]) := by
      rw [read_eq_ok hi, ok_bind, read_eq_ok (by omega), ok_bind]
    have hlength : i < (target.take i ++ result.drop i).length := by
      rw [List.length_append, htake, List.length_drop]
      omega
    refine ⟨_, by rw [hread, store, if_pos hlength], ?_⟩
    rw [List.set_append_right _ _ htake.le, htake, Nat.sub_self, List.drop_eq_getElem_cons (by omega),
      List.set_cons_zero, List.take_succ_eq_append_getElem (by omega), List.append_assoc]
    simp [target]
  have hinit : result = target.take 0 ++ result.drop 0 := by simp
  obtain ⟨final, hrun, hfinal⟩ := exists_foldlM_range' hinit hturn
  rw [Nat.zero_add, List.take_of_length_le htarget.le, List.drop_of_length_le hresult.le,
    List.append_nil] at hfinal
  rw [loop, Int.toNat_natCast, List.range_eq_range', hrun, hfinal]

/-- Minima of negated arrays are negated maxima. -/
theorem zipWith_min_neg (a b : List ℤ) :
    List.zipWith min (a.map fun x => -x) (b.map fun x => -x) =
      (List.zipWith max a b).map fun x => -x := by
  rw [List.zipWith_map, List.map_zipWith]
  exact congrArg (fun op => List.zipWith op a b) (funext₂ fun x y => min_neg_neg x y)

theorem foldl_min_neg (array : List ℤ) (start : ℤ) :
    (array.map fun x => -x).foldl (fun result x => min result (11 * x)) (-start) =
      -array.foldl (fun result x => max result (11 * x)) start := by
  induction array generalizing start with
  | nil => rfl
  | cons first array ih =>
      rw [List.map_cons, List.foldl_cons, mul_neg, min_neg_neg, ih, List.foldl_cons]

theorem foldl_max_mul (array : List ℤ) (start : ℤ) :
    array.foldl (fun result x => max result (11 * x)) (11 * start) =
      11 * array.foldl max start := by
  induction array generalizing start with
  | nil => rfl
  | cons first array ih =>
      rw [List.foldl_cons, ← mul_max_of_nonneg _ _ (by decide), ih, List.foldl_cons]

/-! ## Small numbers -/

/-- Eleven times the value is an `int`, also when it is negated. -/
def Small (value : ℤ) : Prop := -2 ^ 31 < 11 * value ∧ 11 * value < 2 ^ 31

theorem Small.neg {value : ℤ} (h : Small value) : Small (-value) := by
  unfold Small at h ⊢
  omega

theorem Small.wrapInt_mul {value : ℤ} (h : Small value) : wrapInt (11 * value) = 11 * value :=
  wrapInt_of_bounds h.1.le h.2

theorem Small.wrapLong_mul {value : ℤ} (h : Small value) : wrapLong (11 * value) = 11 * value := by
  unfold Small at h
  exact wrapLong_of_bounds (by omega) (by omega)

section Arrays

variable {array : List ℤ} (h : ∀ value ∈ array, Small value)

include h

theorem negate_eq : negate array = array.map fun x => -x := by
  apply List.map_congr_left
  intro value hvalue
  have hsmall := h value hvalue
  unfold Small at hsmall
  exact wrapLong_of_bounds (by omega) (by omega)

theorem toInts_eq : toInts array = array := by
  have hnarrow : ∀ value ∈ array, wrapInt value = id value := by
    intro value hvalue
    have hsmall := h value hvalue
    unfold Small at hsmall
    exact wrapInt_of_bounds (by omega) (by omega)
  rw [toInts, List.map_congr_left hnarrow, List.map_id]

theorem small_map_neg : ∀ value ∈ array.map fun x => -x, Small value := by
  intro value hvalue
  obtain ⟨x, hx, rfl⟩ := List.mem_map.mp hvalue
  exact (h x hx).neg

/-- On small numbers no product overflows, whatever the type. -/
theorem reduction_small {wrap : ℤ → ℤ} (hwrap : ∀ value, Small value → wrap (11 * value) = 11 * value)
    (op : ℤ → ℤ → ℤ) : reduction op wrap array array.length =
      .ok (array.foldl (fun result x => op result (11 * x)) 0) := by
  rw [reduction_eq]
  refine congrArg Except.ok (List.foldl_ext _ _ _ fun result value hvalue => ?_)
  rw [hwrap value (h value hvalue)]

end Arrays

/-! ## After a setup -/

/-- The percentage is met for maxima and for minima, the loops compute extrema of the values
so far, with `int`s as with `long`s, and minima mirror maxima. -/
structure Balanced (size : ℕ) (probability : ℤ) (state : LoopState) : Prop where
  maxPercent : (((state.maxLongA.zip state.maxLongB).countP (fun pair => pair.2 ≤ pair.1) * 100 /
    size : ℕ) : ℤ) = probability
  minPercent : (((state.minLongA.zip state.minLongB).countP (fun pair => pair.1 ≤ pair.2) * 100 /
    size : ℕ) : ℤ) = probability
  loopMax : ∃ maxima : List ℤ, maxima.length = size ∧
    (∀ i < size, ∃ max, maxima[i]? = some max ∧
      IsGreatest {value | value ∈ state.maxLongA.take (i + 1)} max) ∧
    longLoopMax state = .ok maxima ∧ intLoopMax state = .ok maxima ∧
    longLoopMin state = .ok (maxima.map fun x => -x) ∧
    intLoopMin state = .ok (maxima.map fun x => -x)
  reductionMax : ∃ max, IsGreatest {value | value ∈ state.maxLongA} max ∧
    longReductionMax state = .ok (11 * max) ∧ intReductionMax state = .ok (11 * max) ∧
    longReductionMin state = .ok (-(11 * max)) ∧ intReductionMin state = .ok (-(11 * max))

namespace Drawn

variable (drawn : Drawn)

/-- The state with the drawn arrays. -/
def state (probability : ℤ) : LoopState where
  size := drawn.size
  probability := probability
  minIntA := drawn.maxLongA.map fun x => -x
  minIntB := drawn.maxLongB.map fun x => -x
  minLongA := drawn.maxLongA.map fun x => -x
  minLongB := drawn.maxLongB.map fun x => -x
  maxIntA := drawn.maxLongA
  maxIntB := drawn.maxLongB
  maxLongA := drawn.maxLongA
  maxLongB := drawn.maxLongB
  resultIntArray := List.replicate drawn.size 0
  resultLongArray := List.replicate drawn.size 0

/-- The loop over both arrays computes the maximum up to each index. -/
theorem zipWith_max_isGreatest {i : ℕ} (hi : i < drawn.size) :
    ∃ max, (List.zipWith Max.max drawn.maxLongA drawn.maxLongB)[i]? = some max ∧
      IsGreatest {value | value ∈ drawn.maxLongA.take (i + 1)} max := by
  cases i with
  | zero =>
      refine ⟨Max.max drawn.first (drawn.first - 1), rfl, ?_⟩
      rw [max_eq_left (sub_one_lt drawn.first).le]
      refine ⟨List.mem_singleton_self _, fun value hvalue => ?_⟩
      exact (List.mem_singleton.mp hvalue).le
  | succ i =>
      obtain ⟨max, hmax, hmem, hupper⟩ := drawn.maxLongB_isGreatest (Nat.succ_pos i) hi
      have hi' : i + 1 < drawn.maxLongA.length := hi
      have hread : drawn.maxLongA[i + 1]? = some drawn.maxLongA[i + 1] :=
        List.getElem?_eq_getElem hi'
      refine ⟨Max.max drawn.maxLongA[i + 1] max, ?_, ?_⟩
      · rw [List.getElem?_zipWith, hread, hmax]
      · rw [List.take_succ_eq_append_getElem hi']
        constructor
        · rcases max_choice drawn.maxLongA[i + 1] max with heq | heq
          · rw [heq]
            exact List.mem_append_right _ (List.mem_singleton_self _)
          · rw [heq]
            exact List.mem_append_left _ hmem
        · intro value hvalue
          rcases List.mem_append.mp hvalue with hbefore | hlast
          · exact (hupper hbefore).trans (le_max_right _ _)
          · rw [List.mem_singleton.mp hlast]
            exact le_max_left _ _

/-- The reduction starts from zero, which no array of maxima stays below. -/
theorem foldl_max_zero :
    drawn.maxLongA.foldl (fun result x => Max.max result (11 * x)) 0 = 11 * drawn.max := by
  have hfirst : Max.max 0 drawn.first = drawn.first := max_eq_right drawn.first_nonneg
  have hmul := foldl_max_mul drawn.maxLongA 0
  rwa [mul_zero, maxLongA, List.foldl_cons (b := 0) (f := Max.max), hfirst] at hmul

section Small

variable (hsize : 100 * drawn.size < 2 ^ 31)

include hsize

theorem small_maxLongA : ∀ value ∈ drawn.maxLongA, Small value := by
  intro value hvalue
  have hbound := drawn.bounded value hvalue
  have hpos := drawn.size_pos
  rw [size] at hsize
  unfold Small
  omega

theorem small_maxLongB : ∀ value ∈ drawn.maxLongB, Small value := by
  intro value hvalue
  have hbound := drawn.bounded_maxLongB value hvalue
  unfold Small
  omega

theorem balanced {probability : ℤ}
    (hpercent : (((drawn.aboveCount + 1) * 100 / drawn.size : ℕ) : ℤ) = probability) :
    Balanced drawn.size probability (drawn.state probability) := by
  have hA := drawn.small_maxLongA hsize
  have hloopMax : loop Max.max drawn.maxLongA drawn.maxLongB (List.replicate drawn.size 0)
      drawn.size = .ok (List.zipWith Max.max drawn.maxLongA drawn.maxLongB) :=
    loop_eq _ drawn.length_maxLongB List.length_replicate
  have hlength : (drawn.maxLongA.map fun x => -x).length = drawn.size := List.length_map _
  have hloopMin : loop Min.min (drawn.maxLongA.map fun x => -x) (drawn.maxLongB.map fun x => -x)
      (List.replicate drawn.size 0) (drawn.maxLongA.map fun x => -x).length =
        .ok (List.zipWith Min.min (drawn.maxLongA.map fun x => -x)
          (drawn.maxLongB.map fun x => -x)) :=
    loop_eq _ (by rw [List.length_map, hlength, drawn.length_maxLongB])
      (by rw [List.length_replicate, hlength])
  rw [hlength, zipWith_min_neg] at hloopMin
  have hmin : (drawn.maxLongA.map fun x => -x).foldl (fun result x => Min.min result (11 * x)) 0 =
      -(11 * drawn.max) := by
    have hneg := foldl_min_neg drawn.maxLongA 0
    rwa [neg_zero, foldl_max_zero] at hneg
  have hreduceMax : ∀ wrap : ℤ → ℤ, (∀ value, Small value → wrap (11 * value) = 11 * value) →
      reduction Max.max wrap drawn.maxLongA drawn.size = .ok (11 * drawn.max) := by
    intro wrap hwrap
    rw [← drawn.foldl_max_zero]
    exact reduction_small hA hwrap _
  have hreduceMin : ∀ wrap : ℤ → ℤ, (∀ value, Small value → wrap (11 * value) = 11 * value) →
      reduction Min.min wrap (drawn.maxLongA.map fun x => -x) drawn.size =
        .ok (-(11 * drawn.max)) := by
    intro wrap hwrap
    rw [← hmin, ← hlength]
    exact reduction_small (small_map_neg hA) hwrap _
  constructor
  · show ((((drawn.maxLongA.zip drawn.maxLongB).countP _ * 100 / drawn.size : ℕ)) : ℤ) = _
    rw [drawn.countP_zip]
    exact hpercent
  · show (((((drawn.maxLongA.map fun x => -x).zip (drawn.maxLongB.map fun x => -x)).countP _ * 100 /
      drawn.size : ℕ)) : ℤ) = _
    rw [List.zip_map, List.countP_map]
    have hsame : (fun pair : ℤ × ℤ => decide (pair.1 ≤ pair.2)) ∘
        Prod.map (fun x => -x) (fun x => -x) = fun pair => decide (pair.2 ≤ pair.1) := by
      funext pair
      simp
    rw [hsame, drawn.countP_zip]
    exact hpercent
  · refine ⟨List.zipWith Max.max drawn.maxLongA drawn.maxLongB, ?_,
      fun i => drawn.zipWith_max_isGreatest, hloopMax, hloopMax, hloopMin, hloopMin⟩
    rw [List.length_zipWith, drawn.length_maxLongA, drawn.length_maxLongB, min_self]
  · exact ⟨drawn.max, isGreatest_foldl_max drawn.first drawn.rest,
      hreduceMax wrapLong fun _ h => h.wrapLong_mul, hreduceMax wrapInt fun _ h => h.wrapInt_mul,
      hreduceMin wrapLong fun _ h => h.wrapLong_mul, hreduceMin wrapInt fun _ h => h.wrapInt_mul⟩

end Small

end Drawn

/-- Whatever the random numbers are, the arrays of a `setup` that returns are balanced. -/
theorem setup_balanced {σ : Type} (random : RandomSource σ) {size fuel : ℕ} {probability : ℤ}
    {source next : σ} {state : LoopState} (hpos : 1 ≤ size) (hsize : 100 * size < 2 ^ 31)
    (hsetup : LoopState.setup random size probability fuel source = .ok (state, next)) :
    Balanced size probability state := by
  obtain ⟨longs, hlongs, hrest⟩ := bind_eq_ok.mp hsetup
  obtain ⟨drawn, rfl, harrays, hpercent⟩ := exists_drawn random hpos hsize hlongs
  have hA := drawn.small_maxLongA hsize
  have hB := drawn.small_maxLongB hsize
  rw [harrays] at hrest
  simp only [negate_eq hA, negate_eq hB, toInts_eq hA, toInts_eq hB, toInts_eq (small_map_neg hA),
    toInts_eq (small_map_neg hB), newLongs_natCast, ok_bind]
    at hrest
  obtain ⟨hstate, _⟩ := Prod.mk.inj (Except.ok.inj hrest)
  obtain rfl : drawn.state probability = state := hstate
  exact drawn.balanced hsize hpercent

/-- A state in which one value equals the maximum before it. -/
def tied : LoopState where
  size := 4
  probability := 50
  minIntA := [-8, -8, -5, -3]
  minIntB := [-7, -8, -8, -8]
  minLongA := [-8, -8, -5, -3]
  minLongB := [-7, -8, -8, -8]
  maxIntA := [8, 8, 5, 3]
  maxIntB := [7, 8, 8, 8]
  maxLongA := [8, 8, 5, 3]
  maxLongB := [7, 8, 8, 8]
  resultIntArray := [0, 0, 0, 0]
  resultLongArray := [0, 0, 0, 0]

theorem setup_counting_tied :
    LoopState.setup counting (4 : ℕ) 50 1 48 = .ok (tied, 55) := rfl

/-- The tie counts as taken. -/
theorem setup_balanced_tied : Balanced 4 50 tied :=
  setup_balanced counting (by decide) (by decide) setup_counting_tied

end Colata.MinMaxLoop
