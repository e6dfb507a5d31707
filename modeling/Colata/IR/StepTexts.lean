/-
# What a step says about its level

Beside the snapshot of the graph a step holds a name, a description and the lines of the
Java source. All three speak of the nodes of its level, the description with the values
that the step shows. Its active edges are a `Set`, which those of the initial step are not.
-/

import Colata.IR.Steps

namespace Colata.IR

open Colata.Math Colata.JavaScript

/-- The texts of the step and its Java lines are those of the nodes of the level, and its
active edges have the method `has`. -/
def Step.Describes (nodes : NodeTable) (level : List NodeId) (step : Step) : Prop :=
  ∃ present : List Node, present.map Node.id = level ∧ (∀ node ∈ present, node ∈ nodes.nodes) ∧
    step.name = levelName present ∧ step.desc = levelDesc step.values present ∧
    step.javaLines = some ((present.filterMap Node.javaLine).filter Binary64.isTruthy) ∧
    ∃ keys, step.activeEdges = .set keys

/-- One level of present nodes adds one step, which describes it. -/
theorem Execution.level_describes {nodes : NodeTable} (edges : List Edge)
    (paramValues : ParamValues) (state : Execution) {level : List NodeId}
    (h : ∀ id ∈ level, id ∈ nodes.ids) :
    ∃ next step, state.level nodes edges paramValues level = some next ∧
      next.steps = state.steps ++ [step] ∧ step.Describes nodes level := by
  obtain ⟨present, hpresent, hids, hmem⟩ := mapM_get?_eq_some h
  have hlevel : state.level nodes edges paramValues level =
      some (state.addLevel edges paramValues present) := by
    simp [Execution.level, hpresent]
  exact ⟨_, _, hlevel, rfl, present, hids, hmem, rfl, rfl, rfl, _, rfl⟩

/-- The first step is the initial one, and the others describe the levels. -/
theorem describes_buildSteps {nodes : NodeTable} (edges : List Edge)
    {levels : List (List NodeId)} (h : ∀ id ∈ levels.flatten, id ∈ nodes.ids)
    (paramValues : ParamValues) :
    ∃ later, buildSteps nodes edges levels paramValues = some (initialStep :: later) ∧
      List.Forall₂ (Step.Describes nodes) levels later := by
  suffices hloop : ∀ state : Execution,
      ∃ final later, levels.foldlM (Execution.level nodes edges paramValues) state = some final ∧
        final.steps = state.steps ++ later ∧ List.Forall₂ (Step.Describes nodes) levels later by
    obtain ⟨final, later, hfinal, hsteps, hdescribes⟩ := hloop .initial
    exact ⟨later, by rw [buildSteps, hfinal, Option.bind_eq_bind, Option.bind_some, hsteps]; rfl,
      hdescribes⟩
  induction levels with
  | nil => exact fun state => ⟨state, [], rfl, (List.append_nil _).symm, .nil⟩
  | cons level levels ih =>
      intro state
      rw [List.flatten_cons] at h
      obtain ⟨next, step, hnext, hstep, hdescribed⟩ :=
        state.level_describes edges paramValues fun id hid => h id (List.mem_append_left _ hid)
      obtain ⟨final, later, hfinal, hsteps, hdescribes⟩ :=
        ih (fun id hid => h id (List.mem_append_right _ hid)) next
      refine ⟨final, step :: later, ?_, ?_, .cons hdescribed hdescribes⟩
      · rw [List.foldlM_cons, hnext]
        exact hfinal
      · rw [hsteps, hstep, List.append_assoc]
        rfl

end Colata.IR
