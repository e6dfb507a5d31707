/-
# Kahn's algorithm, level by level

Each node carries the number of its arcs that are still waiting. A round emits the
queue as one level and follows every arc out of it; a node whose count drops to
zero enters the next queue. The algorithm runs on any list of arcs, cyclic or not,
and what it has emitted when the queue runs dry is a levelling.
-/

import Colata.Math.Levelling
import Mathlib.Data.List.Nodup
import Mathlib.Logic.Function.Basic
import Mathlib.Tactic.Ring

namespace Colata.Math.Kahn

universe u

variable {α : Type u} [DecidableEq α]

/-- The loop state: waiting counts, emitted levels and the queue. -/
structure State (α : Type u) where
  inDeg : α → ℤ
  levels : List (List α)
  queue : List α

/-- Follow one arc to `target`. -/
def release (state : (α → ℤ) × List α) (target : α) : (α → ℤ) × List α :=
  let inDeg := Function.update state.1 target (state.1 target - 1)
  (inDeg, if inDeg target = 0 then state.2 ++ [target] else state.2)

/-- One round: emit the queue and collect the nodes it releases. -/
def step (adj : α → List α) (state : State α) : State α :=
  let released := state.queue.foldl (fun acc id => (adj id).foldl release acc) (state.inDeg, [])
  ⟨released.1, state.levels ++ [state.queue], released.2⟩

/-- Rounds until the queue is empty, at most `fuel` of them. -/
def run (adj : α → List α) : ℕ → State α → State α
  | 0, state => state
  | fuel + 1, state => if state.queue = [] then state else run adj fuel (step adj state)

/-! ## What following arcs does to the counts -/

theorem release_inDeg (state : (α → ℤ) × List α) (target node : α) :
    (release state target).1 node = state.1 node - if target = node then 1 else 0 := by
  by_cases h : target = node
  · subst h
    simp [release]
  · simp [release, h, Function.update_of_ne (Ne.symm h)]

theorem release_queue (state : (α → ℤ) × List α) (target : α) :
    (release state target).2 =
      if state.1 target = 1 then state.2 ++ [target] else state.2 := by
  have hzero : state.1 target - 1 = 0 ↔ state.1 target = 1 := by omega
  simp [release, hzero]

theorem fold_inDeg (targets : List α) (state : (α → ℤ) × List α) (node : α) :
    (targets.foldl release state).1 node = state.1 node - targets.count node := by
  induction targets generalizing state with
  | nil => simp
  | cons target targets ih =>
      rw [List.foldl_cons, ih, release_inDeg, List.count_cons]
      by_cases h : target = node
      · simp [h]
        omega
      · simp [h]

/-- As long as no count runs below zero, the nodes released are those whose last
waiting arc is followed, each once. -/
theorem fold_queue (targets : List α) (state : (α → ℤ) × List α)
    (henough : ∀ node, (targets.count node : ℤ) ≤ state.1 node)
    (hzero : ∀ node ∈ state.2, state.1 node = 0) (hnodup : state.2.Nodup) :
    (targets.foldl release state).2.Nodup ∧
      ∀ node, node ∈ (targets.foldl release state).2 ↔
        node ∈ state.2 ∨ node ∈ targets ∧ state.1 node = targets.count node := by
  induction targets generalizing state with
  | nil => simp [hnodup]
  | cons target targets ih =>
      have hcount : ∀ node, ((target :: targets).count node : ℤ) =
          targets.count node + if target = node then 1 else 0 := fun node => by
        by_cases h : target = node <;> simp [h]
      have hself := henough target
      rw [hcount, if_pos rfl] at hself
      have hfresh : target ∉ state.2 := fun hmem => by
        have := hzero target hmem
        omega
      have hnext : ∀ node, node ∈ (release state target).2 ↔
          node ∈ state.2 ∨ node = target ∧ state.1 target = 1 := fun node => by
        rw [release_queue]
        split_ifs with hone <;> simp [hone]
      obtain ⟨hnodup', hmem⟩ := ih (release state target)
        (fun node => by
          have := henough node
          rw [hcount] at this
          rw [release_inDeg]
          omega)
        (fun node hnode => by
          rw [release_inDeg]
          rcases (hnext node).mp hnode with hold | ⟨rfl, hone⟩
          · have hne : target ≠ node := fun heq => hfresh (heq ▸ hold)
            simp [hne, hzero node hold]
          · simp [hone])
        (by
          rw [release_queue]
          split_ifs
          · simpa using hnodup.concat hfresh
          · exact hnodup)
      refine ⟨hnodup', fun node => ?_⟩
      rw [List.foldl_cons, hmem node, hnext node, hcount, release_inDeg, List.mem_cons]
      by_cases h : target = node
      · subst h
        have hpos : target ∈ targets ↔ 0 < targets.count target := List.count_pos_iff.symm
        simp only [hfresh, false_or, ↓reduceIte, true_and, true_or, hpos]
        omega
      · simp [h, Ne.symm h]

/-! ## The loop invariant -/

section Arcs

variable {arcs : List (α × α)} {ids : List α} {adj : α → List α}

/-- The arcs into `node` whose source has not been emitted. -/
def waiting (arcs : List (α × α)) (done : List α) (node : α) : ℕ :=
  arcs.countP fun arc => arc.2 = node ∧ arc.1 ∉ done

/-- What every round preserves: emitted and queued nodes are exactly the nodes no
arc is waiting for, and levels respect the arcs. -/
structure Invariant (arcs : List (α × α)) (ids : List α) (state : State α) : Prop where
  nodup : (state.levels.flatten ++ state.queue).Nodup
  subset : ∀ node ∈ state.levels.flatten ++ state.queue, node ∈ ids
  inDeg : ∀ node, state.inDeg node = waiting arcs state.levels.flatten node
  ready : ∀ node ∈ ids,
    node ∈ state.levels.flatten ++ state.queue ↔ state.inDeg node = 0
  predecessor : ∀ index node, AtLevel state.levels index node → ∀ source,
    (source, node) ∈ arcs → ∃ earlier < index, AtLevel state.levels earlier source

theorem waiting_eq_zero_iff {done : List α} {node : α} :
    waiting arcs done node = 0 ↔ ∀ source, (source, node) ∈ arcs → source ∈ done := by
  simp only [waiting, List.countP_eq_zero, decide_eq_true_eq, not_and, not_not, Prod.forall]
  constructor
  · intro h source harc
    exact h source node harc rfl
  · rintro h source target harc rfl
    exact h source harc

private theorem countP_add_of_disjoint {β : Type u} {first second either : β → Bool}
    (list : List β) (hdisjoint : ∀ x, ¬ (first x ∧ second x))
    (heither : ∀ x, either x = (first x || second x)) :
    list.countP first + list.countP second = list.countP either := by
  induction list with
  | nil => rfl
  | cons x list ih =>
      have hx := hdisjoint x
      rw [List.countP_cons, List.countP_cons, List.countP_cons, heither x, ← ih]
      cases hfirst : first x <;> cases hsecond : second x <;> simp_all <;> omega

/-- Following all arcs out of duplicate-free nodes reaches `node` once for each arc. -/
theorem count_flatMap_adj (hadj : ∀ id, adj id = (arcs.filter (·.1 = id)).map (·.2))
    {queue : List α} (hqueue : queue.Nodup) (node : α) :
    (queue.flatMap adj).count node =
      arcs.countP fun arc => arc.2 = node ∧ arc.1 ∈ queue := by
  induction queue with
  | nil => simp
  | cons id queue ih =>
      obtain ⟨hfresh, hrest⟩ := List.nodup_cons.mp hqueue
      have hhead : (adj id).count node =
          arcs.countP fun arc => arc.2 = node ∧ arc.1 = id := by
        rw [hadj, List.count_eq_countP, List.countP_map, List.countP_filter]
        apply List.countP_congr
        intro arc _
        simp
      rw [List.flatMap_cons, List.count_append, ih hrest, hhead]
      apply countP_add_of_disjoint
      · rintro arc ⟨hid, hmem⟩
        simp only [decide_eq_true_eq] at hid hmem
        exact hfresh (hid.2 ▸ hmem.2)
      · intro arc
        by_cases htarget : arc.2 = node <;> by_cases hid : arc.1 = id <;>
          simp [htarget, hid]

/-- Emitting the queue settles exactly the arcs that leave it. -/
theorem waiting_append (arcs : List (α × α)) {done queue : List α}
    (hdisjoint : (done ++ queue).Nodup) (node : α) :
    waiting arcs (done ++ queue) node +
        (arcs.countP fun arc => arc.2 = node ∧ arc.1 ∈ queue) = waiting arcs done node := by
  apply countP_add_of_disjoint
  · rintro arc ⟨hout, hin⟩
    simp only [decide_eq_true_eq] at hout hin
    exact hout.2 (List.mem_append_right _ hin.2)
  · intro arc
    have hnot : arc.1 ∈ queue → arc.1 ∉ done := fun hqueue hdone =>
      List.disjoint_of_nodup_append hdisjoint hdone hqueue
    by_cases htarget : arc.2 = node <;> by_cases hdone : arc.1 ∈ done <;>
      by_cases hqueue : arc.1 ∈ queue <;> simp_all

/-- The counts and the next queue after all arcs out of the queue. -/
def released (adj : α → List α) (state : State α) : (α → ℤ) × List α :=
  (state.queue.flatMap adj).foldl release (state.inDeg, [])

theorem step_eq (adj : α → List α) (state : State α) :
    step adj state =
      ⟨(released adj state).1, state.levels ++ [state.queue], (released adj state).2⟩ := by
  simp only [step, released, List.foldl_flatMap]

section Step

variable {state : State α}

theorem Invariant.released_inDeg (h : Invariant arcs ids state)
    (hadj : ∀ id, adj id = (arcs.filter (·.1 = id)).map (·.2)) (node : α) :
    (released adj state).1 node = waiting arcs (state.levels.flatten ++ state.queue) node := by
  have hsum := waiting_append arcs h.nodup node
  rw [released, fold_inDeg, count_flatMap_adj hadj h.nodup.of_append_right]
  dsimp only
  rw [h.inDeg]
  omega

/-- The next queue holds, each once, the nodes whose last waiting arc left the queue. -/
theorem Invariant.released_queue (h : Invariant arcs ids state)
    (hadj : ∀ id, adj id = (arcs.filter (·.1 = id)).map (·.2)) :
    (released adj state).2.Nodup ∧ ∀ node, node ∈ (released adj state).2 ↔
      node ∈ state.queue.flatMap adj ∧
        state.inDeg node = (state.queue.flatMap adj).count node := by
  obtain ⟨hnodup, hmem⟩ := fold_queue (state.queue.flatMap adj) (state.inDeg, [])
    (fun node => by
      have hsum := waiting_append arcs h.nodup node
      rw [count_flatMap_adj hadj h.nodup.of_append_right]
      dsimp only
      rw [h.inDeg]
      omega)
    (by simp) List.nodup_nil
  exact ⟨hnodup, fun node => (hmem node).trans (or_iff_right List.not_mem_nil)⟩

/-- A released node has been neither emitted nor queued before. -/
theorem Invariant.released_new (h : Invariant arcs ids state)
    (harcs : ∀ arc ∈ arcs, arc.2 ∈ ids)
    (hadj : ∀ id, adj id = (arcs.filter (·.1 = id)).map (·.2)) {node : α}
    (hnode : node ∈ (released adj state).2) :
    node ∈ ids ∧ node ∉ state.levels.flatten ++ state.queue := by
  obtain ⟨hfollowed, hlast⟩ := ((h.released_queue hadj).2 node).mp hnode
  have hpos : 0 < (state.queue.flatMap adj).count node := List.count_pos_iff.mpr hfollowed
  have hids : node ∈ ids := by
    obtain ⟨id, _, htarget⟩ := List.mem_flatMap.mp hfollowed
    rw [hadj, List.mem_map] at htarget
    obtain ⟨arc, harc, rfl⟩ := htarget
    exact harcs arc (List.mem_filter.mp harc).1
  refine ⟨hids, fun hdone => ?_⟩
  have hzero := (h.ready node hids).mp hdone
  omega

/-- The new level is the queue, whose nodes no arc was waiting for. -/
theorem Invariant.exists_predecessor (h : Invariant arcs ids state) {index : ℕ} {source node : α}
    (hnode : AtLevel (state.levels ++ [state.queue]) index node) (harc : (source, node) ∈ arcs) :
    ∃ earlier < index, AtLevel (state.levels ++ [state.queue]) earlier source := by
  rcases Nat.lt_or_ge index state.levels.length with hlt | hge
  · obtain ⟨earlier, hearlier, hat⟩ :=
      h.predecessor index node ((atLevel_append_left hlt).mp hnode) source harc
    exact ⟨earlier, hearlier, (atLevel_append_left hat.lt_length).mpr hat⟩
  · have hindex : index = state.levels.length := by
      have hlength := hnode.lt_length
      rw [List.length_append, List.length_singleton] at hlength
      omega
    subst hindex
    obtain ⟨level, hlevel, hmemLevel⟩ := hnode
    obtain rfl : state.queue = level := by simpa using hlevel
    have hzero := (h.ready node (h.subset node (List.mem_append_right _ hmemLevel))).mp
      (List.mem_append_right _ hmemLevel)
    rw [h.inDeg, Nat.cast_eq_zero, waiting_eq_zero_iff] at hzero
    obtain ⟨earlier, hat⟩ := mem_flatten_iff_atLevel.mp (hzero source harc)
    exact ⟨earlier, hat.lt_length, (atLevel_append_left hat.lt_length).mpr hat⟩

theorem Invariant.step (h : Invariant arcs ids state) (harcs : ∀ arc ∈ arcs, arc.2 ∈ ids)
    (hadj : ∀ id, adj id = (arcs.filter (·.1 = id)).map (·.2)) :
    Invariant arcs ids (step adj state) := by
  have hflat : (state.levels ++ [state.queue]).flatten = state.levels.flatten ++ state.queue := by
    rw [List.flatten_append, List.flatten_singleton]
  rw [step_eq]
  refine ⟨?_, ?_, ?_, ?_, fun index node hnode source => h.exists_predecessor hnode⟩
  · rw [hflat]
    exact h.nodup.append (h.released_queue hadj).1 fun node hdone hnode =>
      (h.released_new harcs hadj hnode).2 hdone
  · rw [hflat]
    intro node hnode
    cases List.mem_append.mp hnode with
    | inl hdone => exact h.subset node hdone
    | inr hnext => exact (h.released_new harcs hadj hnext).1
  · rw [hflat]
    exact h.released_inDeg hadj
  · rw [hflat]
    intro node hids
    have hsum := waiting_append arcs h.nodup node
    have hcount := count_flatMap_adj hadj h.nodup.of_append_right node
    have hfollowed : node ∈ state.queue.flatMap adj ↔
        0 < arcs.countP fun arc => arc.2 = node ∧ arc.1 ∈ state.queue := by
      rw [← hcount, List.count_pos_iff]
    have hready := h.ready node hids
    rw [h.inDeg] at hready
    rw [List.mem_append, hready, (h.released_queue hadj).2]
    dsimp only
    rw [h.released_inDeg hadj, hfollowed, hcount, h.inDeg]
    omega

/-- A node enters the next queue only along an arc out of the queue. -/
theorem Invariant.prompt_step (h : Invariant arcs ids state)
    (hadj : ∀ id, adj id = (arcs.filter (·.1 = id)).map (·.2))
    (hprompt : Prompt (fun source target => (source, target) ∈ arcs)
      (state.levels ++ [state.queue])) :
    Prompt (fun source target => (source, target) ∈ arcs)
      ((Kahn.step adj state).levels ++ [(Kahn.step adj state).queue]) := by
  rw [step_eq]
  intro index node hnode
  have hlength := hnode.lt_length
  simp only [List.length_append, List.length_singleton] at hlength
  by_cases hold : index + 1 < (state.levels ++ [state.queue]).length
  · obtain ⟨source, harc, hsource⟩ := hprompt index node ((atLevel_append_left hold).mp hnode)
    exact ⟨source, harc, (atLevel_append_left hsource.lt_length).mpr hsource⟩
  · rw [List.length_append, List.length_singleton] at hold
    obtain rfl : index = state.levels.length := by omega
    obtain ⟨level, hlevel, hmem⟩ := hnode
    obtain rfl : (released adj state).2 = level := by simpa using hlevel
    obtain ⟨hfollowed, _⟩ := ((h.released_queue hadj).2 node).mp hmem
    obtain ⟨source, hsource, htarget⟩ := List.mem_flatMap.mp hfollowed
    have harc : (source, node) ∈ arcs := by
      rw [hadj] at htarget
      simpa using htarget
    exact ⟨source, harc, state.queue, by simp, hsource⟩

end Step

/-- The emitted levels are without delay at the end of a run. -/
theorem Invariant.prompt_run {state : State α} (h : Invariant arcs ids state)
    (harcs : ∀ arc ∈ arcs, arc.2 ∈ ids)
    (hadj : ∀ id, adj id = (arcs.filter (·.1 = id)).map (·.2))
    (hprompt : Prompt (fun source target => (source, target) ∈ arcs)
      (state.levels ++ [state.queue])) (fuel : ℕ) :
    Prompt (fun source target => (source, target) ∈ arcs)
      (Kahn.run adj fuel state).levels := by
  induction fuel generalizing state with
  | zero => exact hprompt.of_append
  | succ fuel ih =>
      unfold Kahn.run
      split_ifs with hempty
      · exact hprompt.of_append
      · exact ih (h.step harcs hadj) (h.prompt_step hadj hprompt)

/-- Enough rounds empty the queue, since every round emits a new node. -/
theorem Invariant.run {state : State α} (h : Invariant arcs ids state)
    (harcs : ∀ arc ∈ arcs, arc.2 ∈ ids)
    (hadj : ∀ id, adj id = (arcs.filter (·.1 = id)).map (·.2)) {fuel : ℕ}
    (hfuel : ids.length ≤ state.levels.flatten.length + fuel) :
    Invariant arcs ids (run adj fuel state) ∧ (run adj fuel state).queue = [] := by
  induction fuel generalizing state with
  | zero =>
      have hlength := (h.nodup.subperm h.subset).length_le
      rw [List.length_append] at hlength
      have hempty : state.queue.length = 0 := by omega
      exact ⟨h, List.length_eq_zero_iff.mp hempty⟩
  | succ fuel ih =>
      unfold Kahn.run
      split_ifs with hempty
      · exact ⟨h, hempty⟩
      · apply ih (h.step harcs hadj)
        have hpos : 0 < state.queue.length := List.length_pos_iff.mpr hempty
        simp only [step_eq, List.flatten_append, List.flatten_singleton, List.length_append]
        omega

/-- What has been emitted when the queue is empty is a levelling. -/
theorem Invariant.levelling {state : State α} (h : Invariant arcs ids state)
    (hempty : state.queue = []) :
    Levelling (fun source target => (source, target) ∈ arcs) ids state.levels where
  nodup := by simpa [hempty] using h.nodup
  subset := by simpa [hempty] using h.subset
  predecessor := h.predecessor
  complete := fun node hnode hall => by
    have hzero : state.inDeg node = 0 := by
      rw [h.inDeg, waiting_eq_zero_iff.mpr hall, Nat.cast_zero]
    simpa [hempty] using (h.ready node hnode).mpr hzero

theorem invariant_initial {inDeg : α → ℤ} (hids : ids.Nodup)
    (hinDeg : ∀ node, inDeg node = waiting arcs [] node) :
    Invariant arcs ids ⟨inDeg, [], ids.filter fun id => inDeg id = 0⟩ where
  nodup := by simpa using hids.filter _
  subset := by
    intro node hnode
    rw [List.flatten_nil, List.nil_append] at hnode
    exact List.mem_of_mem_filter hnode
  inDeg := hinDeg
  ready := by
    intro node hnode
    simp [hnode]
  predecessor := by
    rintro index node ⟨level, hlevel, _⟩
    simp at hlevel

end Arcs

end Colata.Math.Kahn
