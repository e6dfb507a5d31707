/-
# Search with an explicit stack

The search pops a node, records it unless it is recorded already, and pushes its
successors that are not. A node's successors are pushed at most once, which bounds
the rounds by the seeds and the successor lists together. When the stack is empty
the recorded nodes are those reachable from the seeds.
-/

import Mathlib.Algebra.Order.BigOperators.Group.List
import Mathlib.Algebra.Order.Group.Nat
import Mathlib.Algebra.Ring.Nat
import Mathlib.Logic.Relation

namespace Colata.Math.Search

open Relation

universe u

variable {α : Type u} [DecidableEq α]

/-- The top of the stack is the head of its list. -/
structure State (α : Type u) where
  stack : List α
  reached : List α

/-- One round: pop a node and, if it is new, record it and push its new successors. -/
def step (succ : α → List α) (state : State α) : State α :=
  match state.stack with
  | [] => state
  | id :: stack =>
      if id ∈ state.reached then { state with stack := stack }
      else
        let reached := state.reached ++ [id]
        { stack := ((succ id).filter fun next => next ∉ reached).reverse ++ stack
          reached := reached }

/-- Rounds until the stack is empty, at most `fuel` of them. -/
def run (succ : α → List α) : ℕ → State α → State α
  | 0, state => state
  | fuel + 1, state => if state.stack = [] then state else run succ fuel (step succ state)

/-- Push the seeds one after the other. -/
def initial (seeds : List α) : State α := ⟨seeds.reverse, []⟩

/-- What one round can do. -/
theorem step_cases (succ : α → List α) {state : State α} {id : α} {stack : List α}
    (hstack : state.stack = id :: stack) :
    (id ∈ state.reached ∧ step succ state = ⟨stack, state.reached⟩) ∨
      (id ∉ state.reached ∧ (step succ state).reached = state.reached ++ [id] ∧
        (step succ state).stack.length ≤ (succ id).length + stack.length ∧
        ∀ node, node ∈ (step succ state).stack ↔
          node ∈ succ id ∧ node ∉ state.reached ∧ node ≠ id ∨ node ∈ stack) := by
  by_cases hold : id ∈ state.reached
  · exact Or.inl ⟨hold, by simp [step, hstack, hold]⟩
  · right
    have hstep : step succ state =
        ⟨((succ id).filter fun next => next ∉ state.reached ++ [id]).reverse ++ stack,
          state.reached ++ [id]⟩ := by simp [step, hstack, hold]
    have hlength := List.length_filter_le
      (fun next => decide (next ∉ state.reached ++ [id])) (succ id)
    rw [hstep]
    exact ⟨hold, rfl, by simpa using hlength, fun node => by simp⟩

/-! ## What is recorded -/

/-- `target` is a successor of `source`. -/
def Arc (succ : α → List α) (source target : α) : Prop := target ∈ succ source

structure Invariant (succ : α → List α) (seeds : List α) (state : State α) : Prop where
  sound : ∀ node, node ∈ state.reached ∨ node ∈ state.stack →
    ∃ seed ∈ seeds, ReflTransGen (Arc succ) seed node
  seeds : ∀ seed ∈ seeds, seed ∈ state.reached ∨ seed ∈ state.stack
  closed : ∀ node ∈ state.reached, ∀ next ∈ succ node,
    next ∈ state.reached ∨ next ∈ state.stack

variable {succ : α → List α} {seeds : List α} {state : State α}

omit [DecidableEq α] in
theorem invariant_initial (succ : α → List α) (seeds : List α) :
    Invariant succ seeds (initial seeds) where
  sound := by
    intro node hnode
    have hseed : node ∈ seeds := by simpa [initial] using hnode
    exact ⟨node, hseed, ReflTransGen.refl⟩
  seeds := fun seed hseed => Or.inr (by simpa [initial] using hseed)
  closed := by
    intro node hnode
    cases hnode

theorem Invariant.step (h : Invariant succ seeds state) :
    Invariant succ seeds (step succ state) := by
  cases hstack : state.stack with
  | nil =>
      have hidle : Search.step succ state = state := by simp [Search.step, hstack]
      rwa [hidle]
  | cons id stack =>
      have hid : id ∈ state.stack := hstack ▸ List.mem_cons_self
      rcases step_cases succ hstack with ⟨hold, heq⟩ | ⟨hnew, hreached, _, hmem⟩
      · have hcovered : ∀ {node}, node ∈ state.reached ∨ node ∈ state.stack →
            node ∈ state.reached ∨ node ∈ stack := by
          intro node hnode
          rw [hstack, List.mem_cons] at hnode
          rcases hnode with hdone | rfl | hrest
          · exact Or.inl hdone
          · exact Or.inl hold
          · exact Or.inr hrest
        rw [heq]
        exact
          { sound := fun node hnode => h.sound node
              (hnode.imp_right fun hrest => hstack ▸ List.mem_cons_of_mem id hrest)
            seeds := fun seed hseed => hcovered (h.seeds seed hseed)
            closed := fun node hnode next hnext => hcovered (h.closed node hnode next hnext) }
      · have hcovered : ∀ {node}, node ∈ state.reached ∨ node ∈ state.stack ∨ node ∈ succ id →
            node ∈ (Search.step succ state).reached ∨ node ∈ (Search.step succ state).stack := by
          intro node hnode
          rw [hreached, List.mem_append, List.mem_singleton, hmem, or_assoc]
          rw [hstack, List.mem_cons] at hnode
          tauto
        refine ⟨?_, ?_, ?_⟩
        · intro node hnode
          rw [hreached, List.mem_append, List.mem_singleton, hmem] at hnode
          rcases hnode with (hdone | rfl) | ⟨hnext, _⟩ | hrest
          · exact h.sound node (Or.inl hdone)
          · exact h.sound node (Or.inr hid)
          · obtain ⟨seed, hseed, hpath⟩ := h.sound id (Or.inr hid)
            exact ⟨seed, hseed, hpath.tail hnext⟩
          · exact h.sound node (Or.inr (hstack ▸ List.mem_cons_of_mem id hrest))
        · intro seed hseed
          rcases h.seeds seed hseed with hdone | hrest
          · exact hcovered (Or.inl hdone)
          · exact hcovered (Or.inr (Or.inl hrest))
        · intro node hnode next hnext
          rw [hreached, List.mem_append, List.mem_singleton] at hnode
          rcases hnode with hdone | rfl
          · rcases h.closed node hdone next hnext with hold | hrest
            · exact hcovered (Or.inl hold)
            · exact hcovered (Or.inr (Or.inl hrest))
          · exact hcovered (Or.inr (Or.inr hnext))

theorem Invariant.run (fuel : ℕ) (h : Invariant succ seeds state) :
    Invariant succ seeds (run succ fuel state) := by
  induction fuel generalizing state with
  | zero => exact h
  | succ fuel ih =>
      unfold Search.run
      split_ifs
      · exact h
      · exact ih h.step

/-! ## How long it takes -/

/-- The pushes that a node can still cause. -/
def pushes (succ : α → List α) (reached : List α) (id : α) : ℕ :=
  if id ∈ reached then 0 else (succ id).length

/-- The pushes that the nodes of `ids` can still cause. -/
def pending (succ : α → List α) (reached ids : List α) : ℕ :=
  (ids.map (pushes succ reached)).sum

theorem pending_cons (reached ids : List α) (id : α) :
    pending succ reached (id :: ids) = pushes succ reached id + pending succ reached ids := by
  rw [pending, List.map_cons, List.sum_cons, pending]

theorem pushes_append_le (succ : α → List α) (reached : List α) (id other : α) :
    pushes succ (reached ++ [id]) other ≤ pushes succ reached other := by
  unfold pushes
  by_cases hold : other ∈ reached
  · simp [hold]
  · by_cases hself : other = id <;> simp [hold, hself]

theorem pending_append_le (succ : α → List α) (reached ids : List α) (id : α) :
    pending succ (reached ++ [id]) ids ≤ pending succ reached ids :=
  List.sum_le_sum fun other _ => pushes_append_le succ reached id other

/-- Recording a node uses up its pushes. -/
theorem pending_append_add_le (succ : α → List α) {reached ids : List α} {id : α} (hnew : id ∉ reached)
    (hid : id ∈ ids) :
    pending succ (reached ++ [id]) ids + (succ id).length ≤ pending succ reached ids := by
  induction ids with
  | nil => cases hid
  | cons other ids ih =>
      rw [pending_cons, pending_cons]
      rcases List.mem_cons.mp hid with heq | hrest
      · subst heq
        have hids := pending_append_le succ reached ids id
        have hold : pushes succ reached id = (succ id).length := by simp [pushes, hnew]
        have hdone : pushes succ (reached ++ [id]) id = 0 := by simp [pushes]
        omega
      · have hids := ih hrest
        have hother := pushes_append_le succ reached id other
        omega

/-- Enough rounds for nodes without successors outside `ids` empty the stack. -/
theorem run_stack_eq_nil {ids : List α} (hids : ∀ id, id ∉ ids → succ id = []) {fuel : ℕ}
    (hfuel : state.stack.length + pending succ state.reached ids ≤ fuel) :
    (run succ fuel state).stack = [] := by
  induction fuel generalizing state with
  | zero =>
      have hlength : state.stack.length = 0 := by omega
      exact List.length_eq_zero_iff.mp hlength
  | succ fuel ih =>
      unfold run
      split_ifs with hdone
      · exact hdone
      · apply ih
        obtain ⟨id, stack, hstack⟩ := List.exists_cons_of_ne_nil hdone
        rw [hstack, List.length_cons] at hfuel
        rcases step_cases succ hstack with ⟨_, heq⟩ | ⟨hnew, hreached, hlength, _⟩
        · rw [heq]
          show stack.length + pending succ state.reached ids ≤ fuel
          omega
        · rw [hreached]
          by_cases hid : id ∈ ids
          · have hpending := pending_append_add_le succ hnew hid
            omega
          · have hpending := pending_append_le succ state.reached ids id
            rw [hids id hid, List.length_nil] at hlength
            omega

/-- The rounds that always suffice. -/
def rounds (succ : α → List α) (seeds ids : List α) : ℕ :=
  seeds.length + pending succ [] ids

/-- The nodes that the search from `seeds` records. -/
def reachable (succ : α → List α) (seeds ids : List α) : List α :=
  (run succ (rounds succ seeds ids) (initial seeds)).reached

/-- The search records exactly the nodes reachable from the seeds. -/
theorem mem_reachable_iff {ids : List α} (hids : ∀ id, id ∉ ids → succ id = []) {node : α} :
    node ∈ reachable succ seeds ids ↔ ∃ seed ∈ seeds, ReflTransGen (Arc succ) seed node := by
  have hempty : (run succ (rounds succ seeds ids) (initial seeds)).stack = [] :=
    run_stack_eq_nil hids (by simp [rounds, initial])
  have hinvariant := (invariant_initial succ seeds).run (rounds succ seeds ids)
  unfold reachable
  constructor
  · intro hnode
    exact hinvariant.sound node (Or.inl hnode)
  · intro hpath
    obtain ⟨seed, hseed, hwalk⟩ := hpath
    induction hwalk with
    | refl => simpa [hempty] using hinvariant.seeds seed hseed
    | tail _ harc ih => simpa [hempty] using hinvariant.closed _ ih _ harc

end Colata.Math.Search
