/-
# Loops over an array whose body is a function

`for (int i = 0; i < array.length; i += stride)` with a body that takes the variables of
the method to their next values. On an array of whole blocks the loop ends, with an
invariant that every turn keeps. If every turn takes its block into an accumulator, the
loop takes in the array.
-/

import Colata.Languages.Java.ForLoop

namespace Colata.Java.ForLoop

variable {σ : Type}

/-- The loop from `i` on, where `state` holds the variables that outlive a turn. -/
def forBlocks (array : LongArray) (stride : ℕ) (turn : ℤ → σ → Except Failure σ) :
    ℕ → ℤ → σ → Except Failure σ
  | 0, _, _ => .error .running
  | fuel + 1, i, state =>
      if i < array.values.length then do
        let next ← turn i state
        forBlocks array stride turn fuel (wrapInt (i + stride)) next
      else .ok state

section Rules

variable {array : LongArray} {stride : ℕ} {turn : ℤ → σ → Except Failure σ}

/-- From the start of a block on, the loop ends with its invariant. -/
theorem exists_forBlocks {Inv : ℕ → σ → Prop} (hstride : 0 < stride)
    (hturn : ∀ (i : ℕ) (state : σ), i + stride ≤ array.values.length → Inv i state →
      ∃ next, turn i state = .ok next ∧ Inv (i + stride) next)
    {fuel i : ℕ} {state : σ} (hi : i ≤ array.values.length)
    (hdvd : stride ∣ array.values.length - i) (hfuel : array.values.length - i < fuel)
    (hinv : Inv i state) :
    ∃ final, forBlocks array stride turn fuel i state = .ok final ∧
      Inv array.values.length final := by
  have hlength := array.length_lt
  induction fuel generalizing i state with
  | zero => exact absurd hfuel (Nat.not_lt_zero _)
  | succ fuel ih =>
      by_cases hdone : i = array.values.length
      · exact ⟨state, if_neg (by omega), hdone ▸ hinv⟩
      · have hblock : i + stride ≤ array.values.length := by
          have hle := Nat.le_of_dvd (by omega) hdvd
          omega
        have hrest : stride ∣ array.values.length - (i + stride) := by
          rw [← Nat.sub_sub]
          exact Nat.dvd_sub hdvd (dvd_refl stride)
        have hnext : wrapInt ((i : ℤ) + stride) = ((i + stride : ℕ) : ℤ) := by
          rw [wrapInt_of_bounds (by omega) (by omega), Nat.cast_add]
        obtain ⟨next, hstep, hkept⟩ := hturn i state hblock hinv
        obtain ⟨final, hfinal, hend⟩ := ih hblock hrest (by omega) hkept
        refine ⟨final, ?_, hend⟩
        rw [forBlocks, if_pos (by omega), hstep, ok_bind, hnext, hfinal]

/-- A load within the array. -/
theorem LongArray.read_of_lt (array : LongArray) {i offset : ℕ}
    (h : i + offset < array.values.length) :
    array.read i offset = .ok (array.values[i + offset]?.getD 0) := by
  have hlength := array.length_lt
  rw [array.read_eq (by omega), List.getElem?_eq_getElem h, Option.elim_some, Option.getD_some]

/-- A turn takes its block into the accumulator `result` and leaves the variables in a
state of this kind. -/
def TakesBlock (op : ℤ → ℤ → ℤ) (stride : ℕ) (array : LongArray)
    (turn : ℤ → σ → Except Failure σ) (result : σ → ℤ) (After : σ → Prop) : Prop :=
  ∀ (i : ℤ) (block : ℕ → ℤ) (state : σ),
    (∀ offset < stride, array.read i offset = .ok (block offset)) →
      ∃ next, turn i state = .ok next ∧
        result next = ((List.range stride).map block).foldl op (result state) ∧ After next

/-- Then the loop takes in an array of whole blocks. -/
theorem TakesBlock.exists_forBlocks {op : ℤ → ℤ → ℤ} {result : σ → ℤ} {After : σ → Prop}
    (h : TakesBlock op stride array turn result After) (hstride : 0 < stride)
    (hdvd : stride ∣ array.values.length) {fuel : ℕ} (hfuel : array.values.length < fuel)
    (start : σ) :
    ∃ final, forBlocks array stride turn fuel 0 start = .ok final ∧
      result final = array.values.foldl op (result start) ∧
      (array.values = [] → final = start) ∧ (array.values ≠ [] → After final) := by
  let Inv : ℕ → σ → Prop := fun i state =>
    result state = (array.values.take i).foldl op (result start) ∧
      (i = 0 → state = start) ∧ (i ≠ 0 → After state)
  have hturn : ∀ (i : ℕ) (state : σ), i + stride ≤ array.values.length → Inv i state →
      ∃ next, turn i state = .ok next ∧ Inv (i + stride) next := by
    intro i state hblock hinv
    obtain ⟨next, hnext, hresult, hafter⟩ := h i (fun offset => array.values[i + offset]?.getD 0)
      state fun offset hoffset => array.read_of_lt (by omega)
    refine ⟨next, hnext, ?_, fun hzero => absurd hzero (by omega), fun _ => hafter⟩
    rw [hresult, hinv.1, array.map_range_eq i stride hblock, ← List.foldl_append,
      ← List.take_add]
  have hinit : Inv 0 start := ⟨rfl, fun _ => rfl, fun hne => absurd rfl hne⟩
  obtain ⟨final, hfinal, hresult, hnone, hsome⟩ :=
    ForLoop.exists_forBlocks hstride hturn (Nat.zero_le _) hdvd hfuel hinit
  rw [List.take_length] at hresult
  exact ⟨final, hfinal, hresult, fun hempty => hnone (List.length_eq_zero_iff.mpr hempty),
    fun hne => hsome (mt List.length_eq_zero_iff.mp hne)⟩

/-- A turn that throws if an element of its block is missing. -/
def ThrowsOutside (stride : ℕ) (array : LongArray) (turn : ℤ → σ → Except Failure σ) : Prop :=
  ∀ (i : ℤ) (state : σ) (offset : ℕ), offset < stride →
    array.read i offset = .error .outOfBounds → turn i state = .error .outOfBounds

/-- A body that starts with loads, one after the other from an offset on. -/
inductive Loads {α : Type} (array : LongArray) (i : ℤ) : ℕ → ℕ → Except Failure α → Prop
  | done {first : ℕ} {body : Except Failure α} : Loads array i first 0 body
  | read {first count : ℕ} {next : ℤ → Except Failure α}
      (h : ∀ v, Loads array i (first + 1) count (next v)) :
      Loads array i first (count + 1) (array.read i first >>= next)

/-- The loads throw at the first missing element at the latest. -/
theorem Loads.eq_error {α : Type} {i : ℤ} {first count offset : ℕ} {body : Except Failure α}
    (h : Loads array i first count body) (hfirst : first ≤ offset)
    (hoffset : offset < first + count) (herror : array.read i offset = .error .outOfBounds) :
    body = .error .outOfBounds := by
  induction h with
  | done => exact absurd hoffset (not_lt.mpr hfirst)
  | @read first count next _ ih =>
      rcases array.read_total i first with ⟨v, hv⟩ | hmissing
      · have hne : first ≠ offset := by
          rintro rfl
          cases hv.symm.trans herror
        rw [hv, ok_bind]
        exact ih v (by omega) (by omega)
      · rw [hmissing]
        rfl

theorem throwsOutside_of_loads (h : ∀ i state, Loads array i 0 stride (turn i state)) :
    ThrowsOutside stride array turn :=
  fun i state offset hoffset herror =>
    (h i state).eq_error offset.zero_le (by omega) herror

/-- On an array that ends within a block the loop throws. -/
theorem TakesBlock.forBlocks_eq_error {op : ℤ → ℤ → ℤ} {result : σ → ℤ} {After : σ → Prop}
    (h : TakesBlock op stride array turn result After)
    (hthrows : ThrowsOutside stride array turn) (hstride : 0 < stride) {fuel i : ℕ} (state : σ)
    (hi : i ≤ array.values.length) (hndvd : ¬stride ∣ array.values.length - i)
    (hfuel : array.values.length - i < fuel) :
    forBlocks array stride turn fuel i state = .error .outOfBounds := by
  have hlength := array.length_lt
  induction fuel generalizing i state with
  | zero => exact absurd hfuel (Nat.not_lt_zero _)
  | succ fuel ih =>
      have hpos : 0 < array.values.length - i :=
        Nat.pos_of_ne_zero fun hzero => hndvd (hzero ▸ dvd_zero stride)
      rw [forBlocks, if_pos (by omega)]
      by_cases hblock : i + stride ≤ array.values.length
      · obtain ⟨next, hnext, -⟩ := h i (fun offset => array.values[i + offset]?.getD 0) state
          fun offset hoffset => array.read_of_lt (by omega)
        have hadvance : wrapInt ((i : ℤ) + stride) = ((i + stride : ℕ) : ℤ) := by
          rw [wrapInt_of_bounds (by omega) (by omega), Nat.cast_add]
        have hrest : ¬stride ∣ array.values.length - (i + stride) := by
          intro hdvd
          have hsum := Nat.dvd_add hdvd (dvd_refl stride)
          exact hndvd (by rwa [show array.values.length - (i + stride) + stride =
            array.values.length - i by omega] at hsum)
        rw [hnext, ok_bind, hadvance]
        exact ih next hblock hrest (by omega)
      · have hread : array.read i (array.values.length - i) = .error .outOfBounds := by
          rw [array.read_eq (by omega), List.getElem?_eq_none (by omega), Option.elim_none]
        rw [hthrows i state _ (by omega) hread]
        rfl

/-- A loop over blocks takes in the arrays of whole blocks, and throws on the others. -/
theorem TakesBlock.map_forBlocks {op : ℤ → ℤ → ℤ} {result : σ → ℤ} {After : σ → Prop}
    (h : TakesBlock op stride array turn result After)
    (hthrows : ThrowsOutside stride array turn) (hstride : 0 < stride) {fuel : ℕ}
    (hfuel : array.values.length < fuel) (start : σ) :
    (forBlocks array stride turn fuel 0 start).map result =
      if stride ∣ array.values.length then .ok (array.values.foldl op (result start))
      else .error .outOfBounds := by
  by_cases hdvd : stride ∣ array.values.length
  · obtain ⟨final, hfinal, hresult, -⟩ := h.exists_forBlocks hstride hdvd hfuel start
    rw [hfinal, if_pos hdvd, ← hresult]
    rfl
  · rw [if_neg hdvd]
    exact congrArg (Except.map result)
      (h.forBlocks_eq_error hthrows hstride start (Nat.zero_le _) hdvd hfuel)

end Rules

end Colata.Java.ForLoop
