/-
# Machines whose steps can fail

A state machine takes an event in each step. A step that fails may end the run, or it may leave
a state from which the machine goes on, as a page goes on after one of its handlers has thrown.
Either way the states that a run reaches keep an invariant that the steps keep.
-/

import Mathlib.Data.List.Basic

namespace Colata.Math

universe u v w

variable {σ : Type u} {ε : Type v}

/-! ## Going on after a failure -/

/-- The state that a step leaves, whether or not it failed. -/
def stateLeft : Except σ σ → σ
  | .ok state => state
  | .error state => state

@[simp]
theorem stateLeft_ok (state : σ) : stateLeft (.ok state) = state := rfl

/-- The state after the events. -/
def runFrom (step : σ → ε → Except σ σ) (state : σ) (events : List ε) : σ :=
  events.foldl (fun state event => stateLeft (step state event)) state

/-- From a state with the invariant every step leaves one with it. -/
def Keeps (step : σ → ε → Except σ σ) (Inv : σ → Prop) : Prop :=
  ∀ state, Inv state → ∀ event, Inv (stateLeft (step state event))

section Keeps

variable {step : σ → ε → Except σ σ} {Inv : σ → Prop}

theorem runFrom_cons (state : σ) (event : ε) (events : List ε) :
    runFrom step state (event :: events) = runFrom step (stateLeft (step state event)) events :=
  rfl

theorem runFrom_append (state : σ) (before after : List ε) :
    runFrom step state (before ++ after) = runFrom step (runFrom step state before) after :=
  List.foldl_append

theorem Keeps.runFrom (h : Keeps step Inv) {state : σ} (hstate : Inv state) (events : List ε) :
    Inv (runFrom step state events) := by
  induction events generalizing state with
  | nil => exact hstate
  | cons event events ih => exact ih (h state hstate event)

end Keeps

/-! ## Ending with a failure -/

theorem inv_of_foldlM_eq_ok {φ : Type w} {step : σ → ε → Except φ σ} {Inv : σ → Prop}
    (hstep : ∀ state event next, Inv state → step state event = .ok next → Inv next)
    {state final : σ} {events : List ε} (hstate : Inv state)
    (h : events.foldlM step state = .ok final) : Inv final := by
  induction events generalizing state with
  | nil =>
      obtain rfl : state = final := Except.ok.inj h
      exact hstate
  | cons event events ih =>
      rw [List.foldlM_cons] at h
      cases hnext : step state event with
      | error failure =>
          rw [hnext] at h
          cases h
      | ok next =>
          rw [hnext] at h
          exact ih (hstep state event next hstate hnext) h

end Colata.Math
