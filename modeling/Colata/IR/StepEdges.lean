/-
# Which nodes and edges the steps show

A step is a snapshot: its active nodes are those of its level, its active edges are
the data edges into them, and what it shows as completed are the nodes of all earlier
levels and the data edges into those. The builder collects completed edges twice, from
the active edges and by a scan between completed nodes; the scan adds nothing. On
acyclic data edges the levels moreover put the source of every edge first.
-/

import Colata.IR.LevelOrder
import Colata.IR.Steps

namespace Colata.IR

open Colata.Math

/-! ## Sets in insertion order -/

@[simp]
theorem mem_addTo {α : Type} [DecidableEq α] {set : List α} {element other : α} :
    other ∈ addTo set element ↔ other ∈ set ∨ other = element := by
  unfold addTo
  split_ifs with hold
  · constructor
    · exact Or.inl
    · rintro (hmem | rfl)
      · exact hmem
      · exact hold
  · simp

theorem mem_foldl_addTo {α : Type} [DecidableEq α] {elements set : List α} {other : α} :
    other ∈ elements.foldl addTo set ↔ other ∈ set ∨ other ∈ elements := by
  induction elements generalizing set with
  | nil => simp
  | cons element elements ih => rw [List.foldl_cons, ih, mem_addTo, or_assoc, List.mem_cons]

/-- A loop over the edges that collects the keys of those that pass a test. -/
theorem mem_foldl_addTo_key {edges : List Edge} {test : Edge → Bool} {set : List EdgeKey}
    {key : EdgeKey} :
    key ∈ edges.foldl (fun set edge => if test edge then addTo set edge.key else set) set ↔
      key ∈ set ∨ ∃ edge ∈ edges, test edge = true ∧ edge.key = key := by
  induction edges generalizing set with
  | nil => simp
  | cons edge edges ih =>
      rw [List.foldl_cons, ih, List.exists_mem_cons_iff]
      by_cases htest : test edge = true
      · rw [if_pos htest, mem_addTo, or_assoc, eq_comm, and_iff_right htest]
      · have hskip : ¬ (test edge = true ∧ edge.key = key) := fun hmatch => htest hmatch.1
        rw [if_neg htest, or_iff_right hskip]

/-- The key of an edge that is not structural. -/
def IsDataKey (edges : List Edge) (key : EdgeKey) : Prop :=
  ∃ edge ∈ edges, edge.structural = false ∧ edge.key = key

theorem isDataKey_buildEdges {nodes : NodeTable} {key : EdgeKey} :
    IsDataKey (buildEdges nodes) key ↔ nodes.DataEdge key.fromId key.toId :=
  mem_dataEdges

theorem mem_activeEdgesOf {edges : List Edge} {level : List Node} {key : EdgeKey} :
    key ∈ activeEdgesOf edges level ↔ IsDataKey edges key ∧ key.toId ∈ level.map Node.id := by
  suffices hloop : ∀ set : List EdgeKey,
      key ∈ level.foldl
        (fun active node => edges.foldl
          (fun active edge =>
            if edge.toId = node.id && !edge.structural then addTo active edge.key else active)
          active) set ↔
        key ∈ set ∨ IsDataKey edges key ∧ key.toId ∈ level.map Node.id by
    exact (hloop []).trans (or_iff_right List.not_mem_nil)
  induction level with
  | nil => simp
  | cons node level ih =>
      intro set
      have hinto : (∃ edge ∈ edges, (decide (edge.toId = node.id) && !edge.structural) = true ∧
          edge.key = key) ↔ IsDataKey edges key ∧ key.toId = node.id := by
        simp only [Bool.and_eq_true, decide_eq_true_eq, Bool.not_eq_true']
        constructor
        · rintro ⟨edge, hedge, ⟨hto, hdata⟩, rfl⟩
          exact ⟨⟨edge, hedge, hdata, rfl⟩, hto⟩
        · rintro ⟨⟨edge, hedge, hdata, rfl⟩, hto⟩
          exact ⟨edge, hedge, ⟨hto, hdata⟩, rfl⟩
      rw [List.foldl_cons, ih, mem_foldl_addTo_key, hinto, List.map_cons, List.mem_cons, or_assoc,
        and_or_left]

/-! ## Snapshots -/

/-- What a step shows of nodes and edges. -/
structure Step.Shows (edges : List Edge) (completed active : List NodeId) (step : Step) :
    Prop where
  activeNodes : step.activeNodes = active
  completedNodes : ∀ id, id ∈ step.completedNodes ↔ id ∈ completed
  activeEdges : ∀ key, key ∈ step.activeEdges ↔ IsDataKey edges key ∧ key.toId ∈ active
  completedEdges : ∀ key, key ∈ step.completedEdges ↔ IsDataKey edges key ∧ key.toId ∈ completed

/-- What every turn of the loop preserves: one step for each of the levels so far, the
first of which is the empty level of the initial step. -/
structure Execution.Shown (edges : List Edge) (levels : List (List NodeId)) (state : Execution) :
    Prop where
  length : state.steps.length = levels.length
  completedNodes : ∀ id, id ∈ state.completedNodes ↔ id ∈ levels.flatten
  completedEdges : ∀ key, key ∈ state.completedEdges ↔
    IsDataKey edges key ∧ key.toId ∈ levels.flatten
  steps : ∀ (index : ℕ) (step : Step), state.steps[index]? = some step →
    ∃ active, levels[index]? = some active ∧ step.Shows edges (levels.take index).flatten active

namespace Execution

variable {edges : List Edge} {levels : List (List NodeId)} {state : Execution}

theorem shown_initial (edges : List Edge) : Shown edges [[]] .initial where
  length := rfl
  completedNodes := by simp [initial]
  completedEdges := by simp [initial]
  steps := by
    intro index step hstep
    cases index with
    | succ index => simp [initial] at hstep
    | zero =>
        obtain rfl : initialStep = step := by simpa [initial] using hstep
        exact ⟨[], rfl, rfl, by simp [initialStep], by simp [initialStep], by simp [initialStep]⟩

/-- The scan between completed nodes finds only edges into completed nodes. -/
theorem Shown.completedEdges_addLevel (h : Shown edges levels state) (paramValues : ParamValues)
    (present : List Node) (key : EdgeKey) :
    key ∈ (state.addLevel edges paramValues present).completedEdges ↔
      IsDataKey edges key ∧ key.toId ∈ levels.flatten ++ present.map Node.id := by
  unfold addLevel
  rw [mem_foldl_addTo_key, mem_foldl_addTo, mem_activeEdgesOf, h.completedEdges]
  simp only [mem_foldl_addTo, h.completedNodes, Bool.and_eq_true, decide_eq_true_eq,
    Bool.not_eq_true', List.mem_append]
  constructor
  · rintro ((⟨hdata, hmem⟩ | ⟨hdata, hmem⟩) | ⟨edge, hedge, ⟨⟨hdata, _⟩, hmem⟩, rfl⟩)
    · exact ⟨hdata, Or.inl hmem⟩
    · exact ⟨hdata, Or.inr hmem⟩
    · exact ⟨⟨edge, hedge, hdata, rfl⟩, hmem⟩
  · rintro ⟨hdata, hmem⟩
    exact Or.inl (hmem.imp (fun hold => ⟨hdata, hold⟩) fun hnew => ⟨hdata, hnew⟩)

theorem Shown.addLevel (h : Shown edges levels state) (paramValues : ParamValues)
    (present : List Node) :
    Shown edges (levels ++ [present.map Node.id]) (state.addLevel edges paramValues present) where
  length := by simp [Execution.addLevel, h.length]
  completedNodes := by
    intro id
    rw [List.flatten_append, List.flatten_singleton, List.mem_append, ← h.completedNodes]
    exact mem_foldl_addTo
  completedEdges := by
    rw [List.flatten_append, List.flatten_singleton]
    exact h.completedEdges_addLevel paramValues present
  steps := by
    intro index step hstep
    rcases Nat.lt_or_ge index state.steps.length with hold | hnew
    · have hget : state.steps[index]? = some step := by
        simpa [Execution.addLevel, List.getElem?_append_left hold] using hstep
      obtain ⟨active, hactive, hshows⟩ := h.steps index step hget
      rw [h.length] at hold
      exact ⟨active, by rw [List.getElem?_append_left hold, hactive], by
        rwa [List.take_append_of_le_length hold.le]⟩
    · have hlength := (List.getElem?_eq_some_iff.mp hstep).1
      simp only [Execution.addLevel, List.length_append, List.length_singleton] at hlength
      obtain rfl : index = levels.length := by
        rw [h.length] at hnew hlength
        omega
      simp only [Execution.addLevel, ← h.length, List.getElem?_concat_length,
        Option.some.injEq] at hstep
      subst hstep
      refine ⟨present.map Node.id, by simp, rfl, ?_, fun key => mem_activeEdgesOf, ?_⟩
      · simpa using h.completedNodes
      · simpa using h.completedEdges

theorem Shown.foldlM {nodes : NodeTable} (h : Shown edges levels state)
    (paramValues : ParamValues) {rest : List (List NodeId)}
    (hids : ∀ id ∈ rest.flatten, id ∈ nodes.ids) :
    ∃ final, rest.foldlM (Execution.level nodes edges paramValues) state = some final ∧
      Shown edges (levels ++ rest) final := by
  induction rest generalizing levels state with
  | nil => exact ⟨state, rfl, by simpa using h⟩
  | cons level rest ih =>
      rw [List.flatten_cons] at hids
      obtain ⟨present, hpresent, rfl, _⟩ :=
        mapM_get?_eq_some fun id hid => hids id (List.mem_append_left _ hid)
      obtain ⟨final, hfinal, hshown⟩ := ih (h.addLevel paramValues present)
        fun id hid => hids id (List.mem_append_right _ hid)
      exact ⟨final, by simpa [Execution.level, hpresent] using hfinal, by simpa using hshown⟩

end Execution

/-- Steps that show the levels one after the other, the initial step counting as an empty
level. -/
structure ShowLevels (edges : List Edge) (levels : List (List NodeId)) (steps : List Step) :
    Prop where
  length : steps.length = levels.length + 1
  shown : ∀ (index : ℕ) (step : Step), steps[index]? = some step →
    ∃ active, ([] :: levels)[index]? = some active ∧
      step.Shows edges (([] :: levels).take index).flatten active

/-- The steps over levels of present nodes show the levels. -/
theorem showLevels_buildSteps {nodes : NodeTable} (edges : List Edge)
    {levels : List (List NodeId)} (hids : ∀ id ∈ levels.flatten, id ∈ nodes.ids)
    (paramValues : ParamValues) :
    ∃ steps, buildSteps nodes edges levels paramValues = some steps ∧
      ShowLevels edges levels steps := by
  obtain ⟨final, hfinal, hshown⟩ :=
    (Execution.shown_initial edges).foldlM paramValues hids
  exact ⟨final.steps, by simp [buildSteps, hfinal],
    ⟨by simpa using hshown.length, hshown.steps⟩⟩

section ShowLevels

variable {edges : List Edge} {levels : List (List NodeId)} {steps : List Step}

/-- The active nodes of a step are those of its level. -/
theorem ShowLevels.exists_active_iff (h : ShowLevels edges levels steps) (index : ℕ)
    (id : NodeId) :
    (∃ step : Step, steps[index]? = some step ∧ id ∈ step.activeNodes) ↔
      AtLevel ([] :: levels) index id := by
  constructor
  · rintro ⟨step, hstep, hid⟩
    obtain ⟨active, hlevel, hshown⟩ := h.shown index step hstep
    exact ⟨active, hlevel, hshown.activeNodes ▸ hid⟩
  · rintro ⟨active, hlevel, hid⟩
    have hlt : index < steps.length := by
      rw [h.length]
      exact (List.getElem?_eq_some_iff.mp hlevel).1
    have hstep : steps[index]? = some steps[index] := List.getElem?_eq_getElem hlt
    obtain ⟨active', hlevel', hshown⟩ := h.shown index _ hstep
    obtain rfl : active = active' := Option.some.inj (hlevel.symm.trans hlevel')
    exact ⟨steps[index], hstep, hshown.activeNodes ▸ hid⟩

/-- The completed nodes of a step are those of the levels before it. -/
theorem ShowLevels.mem_completedNodes_iff (h : ShowLevels edges levels steps) {index : ℕ}
    {step : Step} (hstep : steps[index]? = some step) {id : NodeId} :
    id ∈ step.completedNodes ↔ ∃ earlier < index, AtLevel ([] :: levels) earlier id := by
  obtain ⟨active, _, hshown⟩ := h.shown index step hstep
  rw [hshown.completedNodes, mem_flatten_take_iff]

end ShowLevels

/-! ## Acyclic tables -/

section Acyclic

variable {nodes : NodeTable}

theorem nodup_cons_topoLevels (nodes : NodeTable) :
    ([] :: topoLevels nodes (buildEdges nodes)).flatten.Nodup :=
  (topoLevels_perm nodes).nodup_iff.mpr nodes.nodup_ids

/-- The source of an edge into a level stands in the levels before it. -/
theorem source_mem_flatten_take (hacyclic : Acyclic nodes.DataEdge) {fromId toId : NodeId}
    (hedge : nodes.DataEdge fromId toId) {index : ℕ}
    (hto : AtLevel ([] :: topoLevels nodes (buildEdges nodes)) index toId) :
    fromId ∈ (([] :: topoLevels nodes (buildEdges nodes)).take index).flatten := by
  have hearlier := (earlier_iff_acc hedge).mpr
    (acc_of_acyclic (finite_sources nodes) hacyclic fromId)
  exact (hearlier.cons []).mem_flatten_take (nodup_cons_topoLevels nodes) hto

/-- Steps that never show data leaving a node that has not been executed: what is
completed was active before, the active edges are the data edges into the active nodes
and leave completed nodes, and the completed edges are the data edges between completed
nodes. -/
structure ShowsExecuted (nodes : NodeTable) (steps : List Step) : Prop where
  active_once : ∀ id ∈ nodes.ids, ∃! index : ℕ, ∃ step : Step,
    steps[index]? = some step ∧ id ∈ step.activeNodes
  completedNodes : ∀ (index : ℕ) (step : Step), steps[index]? = some step →
    ∀ id, id ∈ step.completedNodes ↔ ∃ earlier < index, ∃ before : Step,
      steps[earlier]? = some before ∧ id ∈ before.activeNodes
  activeEdges : ∀ step ∈ steps, ∀ key, key ∈ step.activeEdges ↔
    nodes.DataEdge key.fromId key.toId ∧ key.toId ∈ step.activeNodes
  sources_completed : ∀ step ∈ steps, ∀ key ∈ step.activeEdges, key.fromId ∈ step.completedNodes
  completedEdges : ∀ step ∈ steps, ∀ key, key ∈ step.completedEdges ↔
    nodes.DataEdge key.fromId key.toId ∧ key.fromId ∈ step.completedNodes ∧
      key.toId ∈ step.completedNodes

/-- A data edge into a level up to that of a step leaves a node completed in the step. -/
theorem ShowLevels.source_completed (hacyclic : Acyclic nodes.DataEdge) {steps : List Step}
    (h : ShowLevels (buildEdges nodes) (topoLevels nodes (buildEdges nodes)) steps) {index : ℕ}
    {step : Step} (hstep : steps[index]? = some step) {fromId toId : NodeId}
    (hedge : nodes.DataEdge fromId toId) {later : ℕ} (hle : later ≤ index)
    (hto : AtLevel ([] :: topoLevels nodes (buildEdges nodes)) later toId) :
    fromId ∈ step.completedNodes := by
  obtain ⟨earlier, hlt, hat⟩ :=
    mem_flatten_take_iff.mp (source_mem_flatten_take hacyclic hedge hto)
  exact (h.mem_completedNodes_iff hstep).mpr ⟨earlier, hlt.trans_le hle, hat⟩

theorem buildSteps_showsExecuted (hacyclic : Acyclic nodes.DataEdge) (paramValues : ParamValues) :
    ∃ steps, buildSteps nodes (buildEdges nodes) (topoLevels nodes (buildEdges nodes))
      paramValues = some steps ∧ ShowsExecuted nodes steps := by
  obtain ⟨steps, hsteps, hshows⟩ := showLevels_buildSteps (buildEdges nodes)
    (fun _ => mem_ids_of_mem_topoLevels) paramValues
  refine ⟨steps, hsteps, ?_, ?_, ?_, ?_, ?_⟩
  · intro id hid
    simp only [hshows.exists_active_iff]
    have hmem := (topoLevels_perm nodes).mem_iff.mpr hid
    obtain ⟨index, hindex⟩ := mem_flatten_iff_atLevel.mp hmem
    exact ⟨index + 1, hindex, fun other hother =>
      hother.unique (nodup_cons_topoLevels nodes) hindex⟩
  · intro index step hstep id
    simp only [hshows.exists_active_iff]
    exact hshows.mem_completedNodes_iff hstep
  · intro step hmem key
    obtain ⟨index, hstep⟩ := List.mem_iff_getElem?.mp hmem
    obtain ⟨active, _, hshown⟩ := hshows.shown index step hstep
    rw [hshown.activeEdges, hshown.activeNodes, isDataKey_buildEdges]
  · intro step hmem key hkey
    obtain ⟨index, hstep⟩ := List.mem_iff_getElem?.mp hmem
    obtain ⟨active, hlevel, hshown⟩ := hshows.shown index step hstep
    obtain ⟨hdata, hto⟩ := (hshown.activeEdges key).mp hkey
    exact hshows.source_completed hacyclic hstep (isDataKey_buildEdges.mp hdata) le_rfl
      ⟨active, hlevel, hto⟩
  · intro step hmem key
    obtain ⟨index, hstep⟩ := List.mem_iff_getElem?.mp hmem
    obtain ⟨active, _, hshown⟩ := hshows.shown index step hstep
    rw [hshown.completedEdges, isDataKey_buildEdges, ← hshown.completedNodes]
    refine and_congr_right fun hedge => ⟨fun hto => ⟨?_, hto⟩, And.right⟩
    obtain ⟨later, hlt, hat⟩ := (hshows.mem_completedNodes_iff hstep).mp hto
    exact hshows.source_completed hacyclic hstep hedge hlt.le hat

theorem buildSteps_showsExecuted_constantTable :
    Acyclic constantTable.DataEdge ∧
      ∃ steps, buildSteps constantTable (buildEdges constantTable)
        (topoLevels constantTable (buildEdges constantTable)) (fun _ => none) = some steps ∧
          ShowsExecuted constantTable steps := by
  have horder : ∀ fromId ∈ constantTable.ids, ∀ toId ∈ constantTable.ids,
      constantTable.DataEdge fromId toId →
        ([1, 2, 0] : List NodeId).idxOf fromId < ([1, 2, 0] : List NodeId).idxOf toId := by
    decide +kernel
  have hacyclic : Acyclic constantTable.DataEdge :=
    acyclic_of_rank (fun id => ([1, 2, 0] : List NodeId).idxOf id) fun source target hedge =>
      horder source hedge.1.mem_ids.1 target hedge.1.mem_ids.2 hedge
  exact ⟨hacyclic, buildSteps_showsExecuted hacyclic fun _ => none⟩

end Acyclic

end Colata.IR
