/-
# Java integers and failures

An `int` or a `long` is an integer in two's complement: the exact result of an
operation is wrapped to 32 or 64 bits. A computation that may throw is an `Except`,
and a sequence of computations succeeds if each of them does.
-/

import Mathlib.Data.List.Induction
import Mathlib.Tactic.NormNum

namespace Colata.Java

/-- What a 32-bit `int` keeps of an exact result. -/
def wrapInt (x : ℤ) : ℤ := x.bmod (2 ^ 32)

/-- What a 64-bit `long` keeps of an exact result. -/
def wrapLong (x : ℤ) : ℤ := x.bmod (2 ^ 64)

/-- `Integer.MIN_VALUE`. -/
def intMin : ℤ := -2 ^ 31

theorem wrapInt_of_bounds {x : ℤ} (hlow : -2 ^ 31 ≤ x) (hhigh : x < 2 ^ 31) : wrapInt x = x := by
  apply Int.bmod_eq_of_le
  · norm_num at hlow ⊢
    exact hlow
  · norm_num at hhigh ⊢
    exact hhigh

/-- A result that is too large by less than one round comes out negative. -/
theorem wrapInt_of_overflow {x : ℤ} (hlow : 2 ^ 31 ≤ x) (hhigh : x < 2 ^ 32 + 2 ^ 31) :
    wrapInt x = x - 2 ^ 32 := by
  have hround : wrapInt (x - 2 ^ 32) = wrapInt x := Int.sub_bmod_right x (2 ^ 32)
  rw [← hround]
  exact wrapInt_of_bounds (by omega) (by omega)

theorem wrapLong_of_bounds {x : ℤ} (hlow : -2 ^ 63 ≤ x) (hhigh : x < 2 ^ 63) : wrapLong x = x := by
  apply Int.bmod_eq_of_le
  · norm_num at hlow ⊢
    exact hlow
  · norm_num at hhigh ⊢
    exact hhigh

/-! ## Failures -/

theorem ok_bind {ε α β : Type} (value : α) (next : α → Except ε β) :
    Except.ok value >>= next = next value := rfl

theorem bind_eq_ok {ε α β : Type} {first : Except ε α} {next : α → Except ε β} {value : β} :
    first >>= next = .ok value ↔ ∃ middle, first = .ok middle ∧ next middle = .ok value := by
  cases first with
  | error failure =>
      constructor
      · intro h
        cases h
      · intro h
        obtain ⟨_, h, _⟩ := h
        cases h
  | ok middle =>
      constructor
      · exact fun h => ⟨middle, rfl, h⟩
      · intro h
        obtain ⟨_, hmiddle, h⟩ := h
        cases hmiddle
        exact h

/-- A counting loop ends with its invariant if each turn succeeds and keeps it. -/
theorem exists_foldlM_range' {ε σ : Type} {step : σ → ℕ → Except ε σ} {Inv : ℕ → σ → Prop}
    {start count : ℕ} {state : σ} (hinit : Inv start state)
    (hstep : ∀ i, start ≤ i → i < start + count → ∀ state, Inv i state →
      ∃ next, step state i = .ok next ∧ Inv (i + 1) next) :
    ∃ final, (List.range' start count).foldlM step state = .ok final ∧
      Inv (start + count) final := by
  induction count generalizing start state with
  | zero => exact ⟨state, rfl, hinit⟩
  | succ count ih =>
      obtain ⟨next, hnext, hinv⟩ := hstep start (Nat.le_refl _) (by omega) state hinit
      obtain ⟨final, hrun, hfinal⟩ := ih hinv fun i hlow hhigh =>
        hstep i (by omega) (by omega)
      refine ⟨final, ?_, by rwa [Nat.add_assoc, Nat.add_comm 1] at hfinal⟩
      rw [List.range'_succ, List.foldlM_cons, hnext]
      exact hrun

/-- A loop over the indices of an array that reads it once a turn folds its values. -/
theorem foldlM_range_read {ε α σ : Type} {read : ℕ → Except ε α} {array : List α}
    (hread : ∀ i (hi : i < array.length), read i = .ok array[i]) (step : σ → α → σ) (state : σ) :
    (List.range array.length).foldlM (fun state i => do
      let x ← read i
      .ok (step state x)) state = .ok (array.foldl step state) := by
  have hturn : ∀ i, 0 ≤ i → i < 0 + array.length → ∀ current,
      current = (array.take i).foldl step state →
      ∃ next, (do
        let x ← read i
        .ok (step current x)) = (.ok next : Except ε σ) ∧
        next = (array.take (i + 1)).foldl step state := by
    intro i _ hi current hcurrent
    rw [Nat.zero_add] at hi
    refine ⟨step current array[i], by rw [hread i hi, ok_bind], ?_⟩
    rw [List.take_succ_eq_append_getElem hi, List.foldl_append, ← hcurrent]
    rfl
  obtain ⟨final, hrun, hfinal⟩ := exists_foldlM_range' (by rfl) hturn
  rw [Nat.zero_add, List.take_length] at hfinal
  rw [List.range_eq_range', ← hfinal]
  exact hrun

/-- A loop whose turns fail in one way only fails if one of them always does. -/
theorem foldlM_eq_error {ε α σ : Type} {step : σ → α → Except ε σ} {failure : ε} {list : List α}
    (hstep : ∀ x ∈ list, ∀ state,
      (∃ next, step state x = .ok next) ∨ step state x = .error failure)
    (hfail : ∃ x ∈ list, ∀ state, step state x = .error failure) (state : σ) :
    list.foldlM step state = .error failure := by
  induction list generalizing state with
  | nil =>
      obtain ⟨x, hx, -⟩ := hfail
      cases hx
  | cons y list ih =>
      rw [List.forall_mem_cons] at hstep
      rw [List.foldlM_cons]
      rcases hstep.1 state with ⟨next, hnext⟩ | herror
      · rw [hnext, ok_bind]
        refine ih hstep.2 ?_ next
        obtain ⟨x, hx, hfail⟩ := hfail
        rcases List.mem_cons.mp hx with rfl | hlater
        · rw [hfail state] at hnext
          cases hnext
        · exact ⟨x, hlater, hfail⟩
      · rw [herror]
        rfl

theorem mapM_eq_ok {ε α β : Type} {visit : α → Except ε β} {f : α → β} {list : List α}
    (hvisit : ∀ x ∈ list, visit x = .ok (f x)) : list.mapM visit = .ok (list.map f) := by
  induction list with
  | nil => rfl
  | cons x list ih =>
      rw [List.forall_mem_cons] at hvisit
      rw [List.mapM_cons, hvisit.1, ok_bind, ih hvisit.2]
      rfl

/-- Loops over a list agree if each turn does. -/
theorem foldlM_congr_of_mem {ε α σ : Type} {first second : σ → α → Except ε σ} {list : List α}
    (h : ∀ x ∈ list, ∀ state, first state x = second state x) (state : σ) :
    list.foldlM first state = list.foldlM second state := by
  induction list generalizing state with
  | nil => rfl
  | cons x list ih =>
      rw [List.foldlM_cons, List.foldlM_cons, h x List.mem_cons_self]
      exact bind_congr (ih fun other hother => h other (List.mem_cons_of_mem x hother))

/-- A loop over a list ends if no turn fails. -/
theorem exists_foldlM_eq_ok {ε α σ : Type} {step : σ → α → Except ε σ} {list : List α}
    (hstep : ∀ x ∈ list, ∀ state, ∃ next, step state x = .ok next) (state : σ) :
    ∃ final, list.foldlM step state = .ok final := by
  induction list generalizing state with
  | nil => exact ⟨state, rfl⟩
  | cons x list ih =>
      rw [List.forall_mem_cons] at hstep
      obtain ⟨next, hnext⟩ := hstep.1 state
      rw [List.foldlM_cons, hnext]
      exact ih hstep.2 next

/-- A loop over the indices of a list visits the list in order. -/
theorem mapM_range_eq_ok {ε α β : Type} {visit : ℕ → Except ε β} {list : List α} {f : α → β}
    (hvisit : ∀ i element, list[i]? = some element → visit i = .ok (f element)) :
    (List.range list.length).mapM visit = .ok (list.map f) := by
  induction list using List.reverseRecOn with
  | nil => rfl
  | append_singleton list last ih =>
      have hinit := ih fun i element helement => hvisit i element (by
        rw [List.getElem?_append_left (List.getElem?_eq_some_iff.mp helement).1, helement])
      have hlast : visit list.length = .ok (f last) := hvisit list.length last (by simp)
      rw [List.length_append, List.length_singleton, List.range_succ, List.mapM_append, hinit,
        ok_bind, List.mapM_cons, hlast]
      simp [ok_bind, List.mapM_nil, pure, Except.pure]

end Colata.Java
