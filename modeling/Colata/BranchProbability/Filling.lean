/-
# Filling the arrays

The generators of two benchmarks choose and count values in their own ways, but both store
each value beside the maximum before it and start again until the percentage is met. What
every choice keeps of the values drawn so far therefore holds of the arrays that are left.
-/

import Colata.BranchProbability.LoopState
import Colata.Math.Records

namespace Colata.BranchProbability

open Colata.Java Colata.Math

/-- The next element of a partly filled array is stored behind the others. -/
theorem store_append (filled : List ℤ) (count : ℕ) (value : ℤ) :
    store (filled ++ List.replicate (count + 1) 0) filled.length value =
      .ok (filled ++ [value] ++ List.replicate count 0) := by
  have hlength : filled.length < (filled ++ List.replicate (count + 1) 0).length := by
    rw [List.length_append, List.length_replicate]
    omega
  rw [store, if_pos hlength, List.set_append_right _ _ (Nat.le_refl _), Nat.sub_self,
    List.replicate_succ, List.set_cons_zero, List.append_assoc]
  rfl

theorem newLongs_natCast (size : ℕ) : newLongs size = .ok (List.replicate size 0) := by
  rw [newLongs, if_neg (by omega), Int.toNat_natCast]

/-- The filled parts of the arrays hold the values and the maxima before them. -/
structure Fills (size : ℕ) (first : ℤ) (rest : List ℤ) (state : Distribution) : Prop where
  result0 : state.result0 = (first :: rest) ++ List.replicate (size - (rest.length + 1)) 0
  result1 : state.result1 =
    (wrapLong (first - 1) :: running first rest) ++ List.replicate (size - (rest.length + 1)) 0
  max : state.max = rest.foldl Max.max first

section Loops

variable {σ : Type} {choose : ℤ → ℤ → σ → ℤ × ℤ × σ} {Inv : ℤ → List ℤ → ℤ → Prop} {size : ℕ}

/-- Every choice for arrays of a size draws one more value. -/
def Draws (choose : ℤ → ℤ → σ → ℤ × ℤ × σ) (Inv : ℤ → List ℤ → ℤ → Prop) (size : ℕ) : Prop :=
  ∀ first rest count source, rest.length + 1 < size → Inv first rest count →
    Inv first (rest ++ [(choose (rest.foldl max first) count source).1])
      (choose (rest.foldl max first) count source).2.1

/-- The state of the `for` loop at an index. -/
def FillsUpTo (Inv : ℤ → List ℤ → ℤ → Prop) (size i : ℕ) (state : Distribution × σ) : Prop :=
  ∃ first rest, rest.length + 1 = i ∧ Fills size first rest state.1 ∧
    Inv first rest state.1.aboveCount

/-- One turn of the loop stores one more value. -/
theorem exists_fillStep (hchoose : Draws choose Inv size) {i : ℕ} (hi : i < size)
    (state : Distribution × σ) (h : FillsUpTo Inv size i state) :
    ∃ next, fillStep choose state i = .ok next ∧ FillsUpTo Inv size (i + 1) next := by
  obtain ⟨first, rest, rfl, hfills, hdrawn⟩ := h
  have hnext := hchoose first rest state.1.aboveCount state.2 hi hdrawn
  rw [← hfills.max] at hnext
  generalize hchosen : choose state.1.max state.1.aboveCount state.2 = next at hnext
  obtain ⟨count, hrest⟩ : ∃ count, size - (rest.length + 1) = count + 1 :=
    Nat.exists_eq_add_of_le' (by omega)
  have hleft : size - ((rest ++ [next.1]).length + 1) = count := by
    rw [List.length_append, List.length_singleton]
    omega
  have hstore0 := store_append (first :: rest) count next.1
  have hstore1 := store_append (wrapLong (first - 1) :: running first rest) count state.1.max
  rw [List.length_cons, length_running, ← hrest, ← hfills.result1] at hstore1
  rw [List.length_cons, ← hrest, ← hfills.result0] at hstore0
  have hstep : fillStep choose state (rest.length + 1) =
      .ok (⟨first :: rest ++ [next.1] ++ List.replicate count 0,
        wrapLong (first - 1) :: running first rest ++ [state.1.max] ++ List.replicate count 0,
        max state.1.max next.1, next.2.1⟩, next.2.2) := by
    simp only [fillStep, hchosen, hstore0, hstore1, ok_bind]
  refine ⟨_, hstep, first, rest ++ [next.1], by simp, ⟨?_, ?_, ?_⟩, hnext⟩
  · rw [hleft]
    rfl
  · rw [hleft, running_append, ← hfills.max]
    rfl
  · rw [List.foldl_append, ← hfills.max]
    rfl

/-- The body of the `do` loop draws as many values as the arrays have elements. -/
theorem exists_fillOnce {draw : σ → ℤ × σ} {start : ℤ}
    (hdraw : ∀ source, Inv (draw source).1 [] start) (hchoose : Draws choose Inv size)
    (hpos : 1 ≤ size) (source : σ) :
    ∃ next, fillOnce draw start choose size source = .ok next ∧
      FillsUpTo Inv size size next := by
  obtain ⟨count, rfl⟩ := Nat.exists_eq_add_of_le' hpos
  let first := (draw source).1
  let init : Distribution := ⟨[first] ++ List.replicate count 0,
    [wrapLong (first - 1)] ++ List.replicate count 0, first, start⟩
  have hinit : FillsUpTo Inv (count + 1) 1 (init, (draw source).2) :=
    ⟨first, [], rfl, ⟨rfl, rfl, rfl⟩, hdraw source⟩
  have hturn : ∀ i, 1 ≤ i → i < 1 + count → ∀ state, FillsUpTo Inv (count + 1) i state →
      ∃ next, fillStep choose state i = .ok next ∧ FillsUpTo Inv (count + 1) (i + 1) next :=
    fun _ _ hi => exists_fillStep hchoose (by omega)
  obtain ⟨final, hrun, hfinal⟩ := exists_foldlM_range' hinit hturn
  have hstore (value : ℤ) : store (List.replicate (count + 1) 0) 0 value =
      .ok ([value] ++ List.replicate count 0) := store_append [] count value
  have hlength : ([first] ++ List.replicate count 0).length - 1 = count := by
    rw [List.length_append, List.length_replicate, List.length_singleton, Nat.add_sub_cancel_left]
  have honce : fillOnce draw start choose (count + 1 : ℕ) source =
      (List.range' 1 (([first] ++ List.replicate count 0).length - 1)).foldlM
        (fillStep choose) (init, (draw source).2) := by
    simp only [fillOnce, newLongs_natCast, hstore, ok_bind]
    rfl
  rw [Nat.add_comm 1] at hfinal
  exact ⟨final, by rw [honce, hlength, hrun], hfinal⟩

/-- The `do` loop is left with full arrays whose count has the percentage. -/
theorem exists_of_fillUntil {once : σ → Except Failure (Distribution × σ)}
    {percent : ℤ → Except Failure ℤ} {probability : ℤ} {fuel : ℕ} {source next : σ}
    {longs : List ℤ × List ℤ}
    (honce : ∀ source, ∃ next, once source = .ok next ∧ FillsUpTo Inv size size next)
    (h : fillUntil once percent probability fuel source = .ok (longs, next)) :
    ∃ first rest count, rest.length + 1 = size ∧ Inv first rest count ∧
      longs = (first :: rest, wrapLong (first - 1) :: running first rest) ∧
      percent count = .ok probability := by
  induction fuel generalizing source with
  | zero => cases h
  | succ fuel ih =>
      obtain ⟨state, hstate, first, rest, hlength, hfills, hdrawn⟩ := honce source
      rw [fillUntil, hstate, ok_bind] at h
      obtain ⟨abovePercent, hpercent, h⟩ := bind_eq_ok.mp h
      split_ifs at h with hmet
      · exact ih h
      · cases h
        rw [not_not.mp hmet] at hpercent
        refine ⟨first, rest, state.1.aboveCount, hlength, hdrawn, ?_, hpercent⟩
        rw [hfills.result0, hfills.result1, hlength, Nat.sub_self, List.replicate_zero,
          List.append_nil, List.append_nil]

end Loops

end Colata.BranchProbability
