/-
# What the steps show

On acyclic data edges the values of the last step solve the dataflow equations of
the table, a value that a step shows is never taken back, and the order of the
nodes inside a level does not matter. Edges that are left out of the ordering do
no harm: structural edges lead to nodes that do not look at their inputs.
-/

import Colata.IR.Steps

namespace Colata.IR

open Colata.Math

/-- What an input slot contributes to the equation of `node`: a placeholder, an absent
node and the node itself read as `undefined`. -/
def settledInput (nodes : NodeTable) (values : Values) (node : Node) :
    Option NodeId → Option Value
  | none => none
  | some id => if id = node.id ∨ id ∉ nodes.ids then none else values id

/-- Values that solve the equations of the run solve those of the table. -/
theorem computeValue_of_solves {nodes : NodeTable} {paramValues : ParamValues}
    {order : List NodeId} (hperm : order.Perm nodes.ids) {values : Values}
    (h : Dataflow.Solves (evaluate nodes paramValues) order values) {node : Node}
    (hnode : node ∈ nodes.nodes) :
    values node.id =
      computeValue node (node.inputs.map (settledInput nodes values node)) paramValues := by
  have hmem : node.id ∈ order := hperm.mem_iff.mpr (List.mem_map_of_mem hnode)
  have hslots : node.inputs.map (inputValue (Function.update values node.id none)) =
      node.inputs.map (settledInput nodes values node) := by
    apply List.map_congr_left
    intro slot _
    cases slot with
    | none => rfl
    | some id =>
        show Function.update values node.id none id = _
        by_cases hself : id = node.id
        · simp [settledInput, hself]
        · by_cases hpresent : id ∈ nodes.ids
          · simp only [settledInput, hself, hpresent, not_true_eq_false, or_self, ↓reduceIte,
              ne_eq, not_false_eq_true, Function.update_of_ne]
          · have habsent : values id = none :=
              h.absent id fun hin => hpresent (hperm.mem_iff.mp hin)
            simp [settledInput, hself, hpresent, habsent]
  rw [h.equation node.id hmem, evaluate_of_mem hnode, hslots]

/-- On acyclic data edges, levels that hold the nodes of `topoLevels` in any order inside
each level are sorted for the evaluation. -/
theorem sorted_of_forall₂_perm {nodes : NodeTable} (hacyclic : Acyclic nodes.DataEdge)
    {levels : List (List NodeId)}
    (hlevels : List.Forall₂ List.Perm (topoLevels nodes (buildEdges nodes)) levels) :
    Dataflow.Sorted nodes.Reads levels.flatten := by
  have hperm : (topoLevels nodes (buildEdges nodes)).flatten.Perm levels.flatten :=
    List.Perm.flatten_congr hlevels
  have hids : levels.flatten.Perm nodes.ids := hperm.symm.trans (topoLevels_perm nodes)
  apply Dataflow.sorted_flatten (hids.nodup_iff.mpr nodes.nodup_ids)
  intro source node hsource _ hne hreads
  have hedge : nodes.DataEdge source node := hreads.dataEdge hne (hids.mem_iff.mp hsource)
  have hearlier := (earlier_iff_acc hedge).mpr
    (acc_of_acyclic (finite_sources nodes) hacyclic source)
  exact hearlier.of_forall₂_perm hlevels

/-- Two ways to order the nodes inside the levels give the same values in every step. -/
theorem scanl_run_eq_of_forall₂_perm {nodes : NodeTable} (hacyclic : Acyclic nodes.DataEdge)
    (paramValues : ParamValues) {levels : List (List NodeId)}
    (hlevels : List.Forall₂ List.Perm (topoLevels nodes (buildEdges nodes)) levels) :
    levels.scanl (Dataflow.run (evaluate nodes paramValues)) Dataflow.emptyEnv =
      (topoLevels nodes (buildEdges nodes)).scanl (Dataflow.run (evaluate nodes paramValues))
        Dataflow.emptyEnv := by
  have hself : List.Forall₂ List.Perm (topoLevels nodes (buildEdges nodes))
      (topoLevels nodes (buildEdges nodes)) := List.forall₂_same.mpr fun _ _ => List.Perm.refl _
  have hsorted := sorted_of_forall₂_perm hacyclic hself
  have hsorted' := sorted_of_forall₂_perm hacyclic hlevels
  have hnodup : (topoLevels nodes (buildEdges nodes)).flatten.Nodup :=
    (topoLevels_perm nodes).nodup_iff.mpr nodes.nodup_ids
  apply List.ext_getElem?
  intro index
  rw [Dataflow.getElem?_scanl_run, Dataflow.getElem?_scanl_run, hlevels.length_eq]
  have hfront : ∀ list : List (List NodeId), (list.take index).flatten.Sublist list.flatten :=
    fun list => (List.take_prefix index list).flatten.sublist
  have hperm : ((topoLevels nodes (buildEdges nodes)).take index).flatten.Perm
      (levels.take index).flatten :=
    List.Perm.flatten_congr (List.forall₂_take index hlevels)
  rw [Dataflow.run_eq_of_perm (evaluate_readsOnly nodes paramValues) hperm
    (hnodup.sublist (hfront _)) (hsorted.sublist (hfront _)) (hsorted'.sublist (hfront _))]

/-- A value that a step shows is shown by the later ones. -/
theorem values_eq_some_of_le {nodes : NodeTable} {paramValues : ParamValues} {steps : List Step}
    {levels : List (List NodeId)} (hnodup : levels.flatten.Nodup)
    (hvalues : steps.map Step.values =
      levels.scanl (Dataflow.run (evaluate nodes paramValues)) Dataflow.emptyEnv)
    {index later : ℕ} {first second : Step} (hle : index ≤ later)
    (hfirst : steps[index]? = some first) (hsecond : steps[later]? = some second) {id : NodeId}
    {value : Value} (hvalue : first.values id = some value) : second.values id = some value := by
  rw [values_of_getElem? hvalues hfirst] at hvalue
  rw [values_of_getElem? hvalues hsecond]
  obtain ⟨rest, hrest⟩ : levels.take index <+: levels.take later := List.take_prefix_take_left hle
  have hsplit := hnodup.sublist (List.take_prefix later _).flatten.sublist
  rw [← hrest, List.flatten_append] at hsplit ⊢
  exact Dataflow.run_append_of_eq_some hsplit hvalue

/-- On acyclic data edges the last step solves the dataflow equations, values are never
taken back, and the order inside the levels does not change what any step shows. -/
theorem buildSteps_solves_equations {nodes : NodeTable} (hacyclic : Acyclic nodes.DataEdge)
    (paramValues : ParamValues) :
    ∃ steps, buildSteps nodes (buildEdges nodes) (topoLevels nodes (buildEdges nodes))
        paramValues = some steps ∧
      (∃ last, steps.getLast? = some last ∧ ∀ node ∈ nodes.nodes,
        last.values node.id =
          computeValue node (node.inputs.map (settledInput nodes last.values node))
            paramValues) ∧
      (∀ (index later : ℕ) (first second : Step), index ≤ later →
        steps[index]? = some first → steps[later]? = some second →
          ∀ id value, first.values id = some value → second.values id = some value) ∧
      ∀ levels, List.Forall₂ List.Perm (topoLevels nodes (buildEdges nodes)) levels →
        ∃ steps', buildSteps nodes (buildEdges nodes) levels paramValues = some steps' ∧
          steps'.map Step.values = steps.map Step.values := by
  have hids := topoLevels_perm nodes
  have hnodup : (topoLevels nodes (buildEdges nodes)).flatten.Nodup :=
    hids.nodup_iff.mpr nodes.nodup_ids
  have hself : List.Forall₂ List.Perm (topoLevels nodes (buildEdges nodes))
      (topoLevels nodes (buildEdges nodes)) := List.forall₂_same.mpr fun _ _ => List.Perm.refl _
  obtain ⟨steps, hsteps, hvalues⟩ := values_buildSteps (buildEdges nodes)
    (fun _ => mem_ids_of_mem_topoLevels) paramValues
  refine ⟨steps, hsteps, ?_, ?_, ?_⟩
  · obtain ⟨steps', last, hsteps', hlast, hshown⟩ := getLast?_buildSteps (buildEdges nodes)
      (fun _ => mem_ids_of_mem_topoLevels) paramValues
    obtain rfl : steps = steps' := Option.some.inj (hsteps.symm.trans hsteps')
    have hsolves := Dataflow.run_solves (evaluate_readsOnly nodes paramValues) hnodup
      (sorted_of_forall₂_perm hacyclic hself)
    rw [← hshown] at hsolves
    exact ⟨last, hlast, fun node hnode => computeValue_of_solves hids hsolves hnode⟩
  · intro index later first second hle hfirst hsecond id value hvalue
    exact values_eq_some_of_le hnodup hvalues hle hfirst hsecond hvalue
  · intro levels hlevels
    have hpresent : ∀ id ∈ levels.flatten, id ∈ nodes.ids := fun id hid =>
      hids.mem_iff.mp ((List.Perm.flatten_congr hlevels).mem_iff.mpr hid)
    obtain ⟨steps', hsteps', hvalues'⟩ :=
      values_buildSteps (buildEdges nodes) hpresent paramValues
    exact ⟨steps', hsteps', by
      rw [hvalues', hvalues, scanl_run_eq_of_forall₂_perm hacyclic paramValues hlevels]⟩

/-- The sum of two parameters is returned to Root, which feeds Start. -/
def sumTable : NodeTable :=
  ⟨[plainNode 0 "Root" [some 0, some 5], plainNode 1 "Start" [some 1, some 0],
    { plainNode 2 "Parm" [some 1] with extra := "Parm0: int" },
    { plainNode 3 "Parm" [some 1] with extra := "Parm1: int" },
    plainNode 4 "AddI" [none, some 2, some 3], plainNode 5 "Return" [some 1, some 4]],
    by decide +kernel⟩

def sumParams (index : Binary64) : Option Value :=
  if index = 0 then some (.num 42) else if index = 1 then some (.num 84) else none

theorem buildSteps_solves_equations_sumTable :
    Acyclic sumTable.DataEdge ∧
    ∃ steps, buildSteps sumTable (buildEdges sumTable)
        (topoLevels sumTable (buildEdges sumTable)) sumParams = some steps ∧
      (∃ last, steps.getLast? = some last ∧ ∀ node ∈ sumTable.nodes,
        last.values node.id =
          computeValue node (node.inputs.map (settledInput sumTable last.values node))
            sumParams) ∧
      (∀ (index later : ℕ) (first second : Step), index ≤ later →
        steps[index]? = some first → steps[later]? = some second →
          ∀ id value, first.values id = some value → second.values id = some value) ∧
      ∀ levels, List.Forall₂ List.Perm (topoLevels sumTable (buildEdges sumTable)) levels →
        ∃ steps', buildSteps sumTable (buildEdges sumTable) levels sumParams = some steps' ∧
          steps'.map Step.values = steps.map Step.values := by
  have horder : ∀ fromId ∈ sumTable.ids, ∀ toId ∈ sumTable.ids, sumTable.DataEdge fromId toId →
      ([1, 2, 3, 4, 5, 0] : List NodeId).idxOf fromId <
        ([1, 2, 3, 4, 5, 0] : List NodeId).idxOf toId := by decide +kernel
  have hacyclic : Acyclic sumTable.DataEdge := by
    apply acyclic_of_rank fun id => ([1, 2, 3, 4, 5, 0] : List NodeId).idxOf id
    intro source target hedge
    exact horder source hedge.1.mem_ids.1 target hedge.1.mem_ids.2 hedge
  exact ⟨hacyclic, buildSteps_solves_equations hacyclic sumParams⟩

end Colata.IR
