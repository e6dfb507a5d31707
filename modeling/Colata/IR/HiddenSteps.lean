/-
# What the steps show of hidden nodes

Over the filtered levels no step names a hidden node as active or completed, gives it
a value or shows an edge that leads to it. But the step builder still scans the full
list of edges, so an edge out of a hidden node appears in the step of its target. The
hidden nodes stay out of sight exactly when no data edge leaves them, as the edge from
a Rethrow to Root does.
-/

import Colata.IR.Exceptions
import Colata.IR.StepEdges

namespace Colata.IR

open Colata.Math Relation

/-- The node occurs in a field of the step: among its nodes, its values or the ends of
its edges. -/
def Step.Mentions (step : Step) (id : NodeId) : Prop :=
  id ∈ step.activeNodes ∨ id ∈ step.completedNodes ∨ step.values id ≠ none ∨
    ∃ key, (key ∈ step.activeEdges ∨ key ∈ step.completedEdges) ∧
      (key.fromId = id ∨ key.toId = id)

/-- The levels that the steps run over when the exception path is hidden. -/
def visibleLevels (nodes : NodeTable) : List (List NodeId) :=
  filterLevels (topoLevels nodes (buildEdges nodes)) (classifyExceptionNodes nodes (buildEdges nodes))

theorem mem_visibleLevels {nodes : NodeTable} {id : NodeId} :
    id ∈ (visibleLevels nodes).flatten ↔ id ∈ nodes.ids ∧ ¬ nodes.ExceptionOnly id := by
  rw [visibleLevels, flatten_filterLevels, List.mem_filter, decide_eq_true_eq,
    mem_classifyExceptionNodes_iff, (topoLevels_perm nodes).mem_iff]

/-- The values a step shows belong to nodes of its levels. -/
theorem mem_of_values_buildSteps {nodes : NodeTable} {edges : List Edge}
    {levels : List (List NodeId)} (hids : ∀ id ∈ levels.flatten, id ∈ nodes.ids)
    {paramValues : ParamValues} {steps : List Step}
    (hsteps : buildSteps nodes edges levels paramValues = some steps) {step : Step}
    (hstep : step ∈ steps) {id : NodeId} (hvalue : step.values id ≠ none) :
    id ∈ levels.flatten := by
  obtain ⟨steps', hsteps', hvalues⟩ := values_buildSteps edges hids paramValues
  obtain rfl : steps = steps' := Option.some.inj (hsteps.symm.trans hsteps')
  obtain ⟨index, hget⟩ := List.mem_iff_getElem?.mp hstep
  obtain ⟨value, hsome⟩ := Option.ne_none_iff_exists'.mp hvalue
  rw [values_of_getElem? hvalues hget] at hsome
  have hin := Dataflow.mem_of_run_eq_some hsome
  exact (List.take_prefix index levels).flatten.subset hin

/-- A node that a step mentions is visible or the source of an edge to a visible node. -/
theorem visible_of_mentions {nodes : NodeTable} {paramValues : ParamValues} {steps : List Step}
    (hsteps : buildSteps nodes (buildEdges nodes) (visibleLevels nodes) paramValues = some steps)
    {step : Step} (hstep : step ∈ steps) {id : NodeId} (hmention : step.Mentions id) :
    id ∈ (visibleLevels nodes).flatten ∨
      ∃ toId ∈ (visibleLevels nodes).flatten, nodes.DataEdge id toId := by
  have hids : ∀ other ∈ (visibleLevels nodes).flatten, other ∈ nodes.ids :=
    fun other hother => (mem_visibleLevels.mp hother).1
  obtain ⟨steps', hsteps', hshows⟩ := showLevels_buildSteps (buildEdges nodes) hids paramValues
  obtain rfl : steps = steps' := Option.some.inj (hsteps.symm.trans hsteps')
  obtain ⟨index, hget⟩ := List.mem_iff_getElem?.mp hstep
  obtain ⟨active, hactive, hshown⟩ := hshows.shown index step hget
  have hlevel : ∀ other ∈ active, other ∈ (visibleLevels nodes).flatten := fun other hother =>
    List.mem_flatten.mpr (by
      rcases List.mem_cons.mp (List.mem_of_getElem? hactive) with rfl | hmem
      · cases hother
      · exact ⟨active, hmem, hother⟩)
  have hdone : ∀ other ∈ (([] :: visibleLevels nodes).take index).flatten,
      other ∈ (visibleLevels nodes).flatten := fun other hother => by
    simpa using (List.take_prefix index ([] :: visibleLevels nodes)).flatten.subset hother
  rcases hmention with hmem | hmem | hvalue | ⟨key, hkey, hends⟩
  · exact Or.inl (hlevel id (hshown.activeNodes ▸ hmem))
  · exact Or.inl (hdone id ((hshown.completedNodes id).mp hmem))
  · exact Or.inl (mem_of_values_buildSteps hids hsteps hstep hvalue)
  · have hedge : nodes.DataEdge key.fromId key.toId ∧ key.toId ∈ (visibleLevels nodes).flatten := by
      cases hkey with
      | inl hactiveKey =>
          obtain ⟨hdata, hto⟩ := (hshown.activeEdges key).mp hactiveKey
          exact ⟨isDataKey_buildEdges.mp hdata, hlevel _ hto⟩
      | inr hcompletedKey =>
          obtain ⟨hdata, hto⟩ := (hshown.completedEdges key).mp hcompletedKey
          exact ⟨isDataKey_buildEdges.mp hdata, hdone _ hto⟩
    cases hends with
    | inl hfrom => exact Or.inr ⟨key.toId, hedge.2, hfrom ▸ hedge.1⟩
    | inr hto => exact Or.inl (hto ▸ hedge.2)

/-- A data edge to a visible node is active in the step of that node. -/
theorem exists_mentions_of_dataEdge {nodes : NodeTable} {paramValues : ParamValues}
    {steps : List Step}
    (hsteps : buildSteps nodes (buildEdges nodes) (visibleLevels nodes) paramValues = some steps)
    {fromId toId : NodeId} (hedge : nodes.DataEdge fromId toId)
    (hto : toId ∈ (visibleLevels nodes).flatten) : ∃ step ∈ steps, step.Mentions fromId := by
  obtain ⟨steps', hsteps', hshows⟩ := showLevels_buildSteps (buildEdges nodes)
    (fun other hother => (mem_visibleLevels.mp hother).1) paramValues
  obtain rfl : steps = steps' := Option.some.inj (hsteps.symm.trans hsteps')
  obtain ⟨index, hindex⟩ := mem_flatten_iff_atLevel.mp hto
  obtain ⟨step, hstep, hactive⟩ := (hshows.exists_active_iff (index + 1) toId).mpr hindex
  obtain ⟨active, _, hshown⟩ := hshows.shown (index + 1) step hstep
  have hkey : ⟨fromId, toId⟩ ∈ step.activeEdges :=
    (hshown.activeEdges _).mpr ⟨isDataKey_buildEdges.mpr hedge, hshown.activeNodes ▸ hactive⟩
  exact ⟨step, List.mem_of_getElem? hstep, Or.inr (Or.inr (Or.inr ⟨_, Or.inl hkey, Or.inl rfl⟩))⟩

/-- The steps over the filtered levels mention no hidden node exactly when every data
edge out of a node that only the exception path leads back to ends in such a node. -/
theorem buildSteps_hides_iff (nodes : NodeTable) (paramValues : ParamValues) :
    (∃ steps, buildSteps nodes (buildEdges nodes)
        (filterLevels (topoLevels nodes (buildEdges nodes))
          (classifyExceptionNodes nodes (buildEdges nodes))) paramValues = some steps ∧
      ∀ step ∈ steps, ∀ id ∈ classifyExceptionNodes nodes (buildEdges nodes),
        ¬ step.Mentions id) ↔
      ∀ fromId toId, nodes.DataEdge fromId toId → nodes.ExceptionOnly fromId →
        nodes.ExceptionOnly toId := by
  simp only [mem_classifyExceptionNodes_iff]
  constructor
  · rintro ⟨steps, hsteps, hhidden⟩ fromId toId hedge hfrom
    by_contra hvisible
    obtain ⟨step, hstep, hmention⟩ := exists_mentions_of_dataEdge hsteps hedge
      (mem_visibleLevels.mpr ⟨hedge.1.mem_ids.2, hvisible⟩)
    exact hhidden step hstep fromId hfrom hmention
  · intro hclosed
    obtain ⟨steps, hsteps, _⟩ := showLevels_buildSteps (buildEdges nodes)
      (fun other hother => (mem_visibleLevels.mp hother).1) paramValues
    refine ⟨steps, hsteps, ?_⟩
    intro step hstep id hid hmention
    rcases visible_of_mentions hsteps hstep hmention with hvisible | ⟨toId, hto, hedge⟩
    · exact (mem_visibleLevels.mp hvisible).2 hid
    · exact (mem_visibleLevels.mp hto).2 (hclosed id toId hedge hid)

/-- A method that returns on one path and rethrows on the other. -/
def rethrowTable : NodeTable :=
  ⟨[plainNode 0 "Root" [some 0, some 1, some 2], plainNode 1 "Return" [some 3],
    plainNode 2 "Rethrow" [some 3], plainNode 3 "Start" [some 3, some 0]], by decide +kernel⟩

/-- Root's step shows the edge from the hidden Rethrow. -/
theorem not_forall_buildSteps_hides :
    ¬ ∀ (nodes : NodeTable) (paramValues : ParamValues),
        ∃ steps, buildSteps nodes (buildEdges nodes)
            (filterLevels (topoLevels nodes (buildEdges nodes))
              (classifyExceptionNodes nodes (buildEdges nodes))) paramValues = some steps ∧
          ∀ step ∈ steps, ∀ id ∈ classifyExceptionNodes nodes (buildEdges nodes),
            ¬ step.Mentions id := by
  intro hclaim
  obtain ⟨steps, hsteps, hhidden⟩ := hclaim rethrowTable fun _ => none
  have hedge : rethrowTable.DataEdge 2 0 := by decide +kernel
  have hhide : (2 : NodeId) ∈ classifyExceptionNodes rethrowTable (buildEdges rethrowTable) := by
    decide +kernel
  have hshow : (0 : NodeId) ∉ classifyExceptionNodes rethrowTable (buildEdges rethrowTable) := by
    decide +kernel
  rw [mem_classifyExceptionNodes_iff] at hshow
  obtain ⟨step, hstep, hmention⟩ := exists_mentions_of_dataEdge hsteps hedge
    (mem_visibleLevels.mpr ⟨hedge.1.mem_ids.2, hshow⟩)
  exact hhidden step hstep 2 hhide hmention

end Colata.IR
