/-
# Execution steps

`buildSteps` evaluates the nodes level by level and records one step per level,
after an initial one. A level that names an absent node makes it throw, which is
`none` here. The values of the steps are the successive states of a dataflow run
over the levels.
-/

import Colata.IR.Levels
import Colata.IR.Value
import Colata.Math.Dataflow

namespace Colata.IR

open Colata.Math Colata.JavaScript

/-- The object `nodeValues`. -/
abbrev Values := Dataflow.Env NodeId Value

/-- Keys of edges, in an array or in a `Set`. -/
inductive EdgeKeys
  | array (keys : List EdgeKey)
  | set (keys : List EdgeKey)

def EdgeKeys.keys : EdgeKeys → List EdgeKey
  | .array keys => keys
  | .set keys => keys

instance : Membership EdgeKey EdgeKeys := ⟨fun edges key => key ∈ edges.keys⟩

instance (edges : EdgeKeys) (key : EdgeKey) : Decidable (key ∈ edges) :=
  inferInstanceAs (Decidable (key ∈ edges.keys))

@[simp]
theorem EdgeKeys.mem_array {keys : List EdgeKey} {key : EdgeKey} :
    key ∈ EdgeKeys.array keys ↔ key ∈ keys := Iff.rfl

@[simp]
theorem EdgeKeys.mem_set {keys : List EdgeKey} {key : EdgeKey} :
    key ∈ EdgeKeys.set keys ↔ key ∈ keys := Iff.rfl

/-- `edges.has(key)`. An array has no such method, so that the call throws. -/
def EdgeKeys.has (edges : EdgeKeys) (key : EdgeKey) : Option Bool :=
  match edges with
  | .array _ => none
  | .set keys => some (decide (key ∈ keys))

structure Step where
  name : String
  desc : String
  activeNodes : List NodeId
  activeEdges : EdgeKeys
  completedNodes : List NodeId
  completedEdges : List EdgeKey
  values : Values
  javaLines : Option (List Binary64)

/-- The loop state of `buildSteps`. Sets are lists in insertion order. -/
structure Execution where
  steps : List Step
  completedNodes : List NodeId
  completedEdges : List EdgeKey
  nodeValues : Values

/-- `set.add(element)`. -/
def addTo {α : Type} [DecidableEq α] (set : List α) (element : α) : List α :=
  if element ∈ set then set else set ++ [element]

def initialStep : Step :=
  { name := "Initial"
    desc := "Graph structure. Press → to begin execution."
    activeNodes := [], activeEdges := .array [], completedNodes := [], completedEdges := []
    values := Dataflow.emptyEnv, javaLines := none }

def Execution.initial : Execution := ⟨[initialStep], [], [], Dataflow.emptyEnv⟩

/-- The value on an input slot; a placeholder reads as `undefined`. -/
def inputValue (nodeValues : Values) (slot : Option NodeId) : Option Value :=
  slot.bind nodeValues

/-- Evaluate one node of a level and store its value, if it has one. -/
def evalNode (paramValues : ParamValues) (nodeValues : Values) (node : Node) : Values :=
  let inputVals := node.inputs.map (inputValue nodeValues)
  Dataflow.assign nodeValues node.id (computeValue node inputVals paramValues)

/-- The data edges that come into a node of the level. -/
def activeEdgesOf (edges : List Edge) (level : List Node) : List EdgeKey :=
  level.foldl
    (fun active node => edges.foldl
      (fun active edge =>
        if edge.toId = node.id && !edge.structural then addTo active edge.key else active)
      active)
    []

def idText (id : NodeId) : String := numberToString id

def levelName (level : List Node) : String :=
  match level with
  | [node] => node.type ++ " #" ++ idText node.id
  | first :: _ =>
      if level.length ≤ 4 then
        ", ".intercalate (level.map fun node => node.type ++ "#" ++ idText node.id)
      else first.type ++ " ×" ++ toString level.length
  | [] => ""

def levelDesc (nodeValues : Values) (level : List Node) : String :=
  " | ".intercalate (level.map fun node =>
    match nodeValues node.id with
    | some v => "#" ++ idText node.id ++ " " ++ node.type ++ " = " ++ v.text
    | none => "#" ++ idText node.id ++ " " ++ node.type)

/-- One turn of the loop over the levels, with the nodes of the level looked up. -/
def Execution.addLevel (edges : List Edge) (paramValues : ParamValues) (state : Execution)
    (level : List Node) : Execution :=
  let nodeValues := level.foldl (evalNode paramValues) state.nodeValues
  let activeEdges := activeEdgesOf edges level
  let completedNodes := (level.map Node.id).foldl addTo state.completedNodes
  let completedEdges := activeEdges.foldl addTo state.completedEdges
  { steps := state.steps ++
      [{ name := levelName level
         desc := levelDesc nodeValues level
         activeNodes := level.map Node.id
         activeEdges := .set activeEdges
         completedNodes := state.completedNodes
         completedEdges := state.completedEdges
         values := nodeValues
         javaLines := some ((level.filterMap Node.javaLine).filter Binary64.isTruthy) }]
    completedNodes := completedNodes
    -- Also add edges between completed nodes
    completedEdges := edges.foldl
      (fun completed edge =>
        if !edge.structural && edge.fromId ∈ completedNodes && edge.toId ∈ completedNodes then
          addTo completed edge.key
        else completed)
      completedEdges
    nodeValues := nodeValues }

/-- One turn of the loop over the levels. -/
def Execution.level (nodes : NodeTable) (edges : List Edge) (paramValues : ParamValues)
    (state : Execution) (level : List NodeId) : Option Execution := do
  let present ← level.mapM nodes.get?
  some (state.addLevel edges paramValues present)

def buildSteps (nodes : NodeTable) (edges : List Edge) (levels : List (List NodeId))
    (paramValues : ParamValues) : Option (List Step) := do
  let final ← levels.foldlM (Execution.level nodes edges paramValues) .initial
  some final.steps

/-! ## The values as a dataflow run -/

/-- The evaluation of a node by its id. -/
def evaluate (nodes : NodeTable) (paramValues : ParamValues) (id : NodeId) (values : Values) :
    Option Value :=
  (nodes.get? id).bind fun node =>
    computeValue node (node.inputs.map (inputValue values)) paramValues

theorem evaluate_of_mem {nodes : NodeTable} {node : Node} (h : node ∈ nodes.nodes)
    (paramValues : ParamValues) (values : Values) :
    evaluate nodes paramValues node.id values =
      computeValue node (node.inputs.map (inputValue values)) paramValues := by
  rw [evaluate, NodeTable.get?_of_mem h, Option.bind_some]

/-- The evaluation depends on no values but those it reads. -/
theorem evaluate_readsOnly (nodes : NodeTable) (paramValues : ParamValues) :
    Dataflow.ReadsOnly (evaluate nodes paramValues) nodes.Reads := by
  intro id first second hagree
  cases hfound : nodes.get? id with
  | none => rw [evaluate, evaluate, hfound, Option.bind_none, Option.bind_none]
  | some node =>
      obtain ⟨hnode, rfl⟩ := NodeTable.get?_eq_some_iff.mp hfound
      rw [evaluate_of_mem hnode, evaluate_of_mem hnode]
      cases hlooks : ignoresInputs node.type with
      | true => exact computeValue_of_ignoresInputs hlooks _ _ paramValues
      | false =>
          have hslots : node.inputs.map (inputValue first) =
              node.inputs.map (inputValue second) := by
            apply List.map_congr_left
            intro slot hslot
            cases slot with
            | none => rfl
            | some source =>
                exact hagree source ⟨node, hnode, rfl, hlooks, Node.mem_inputIds.mpr hslot⟩
          rw [hslots]

theorem mapM_get?_eq_some {nodes : NodeTable} {level : List NodeId}
    (h : ∀ id ∈ level, id ∈ nodes.ids) :
    ∃ present, level.mapM nodes.get? = some present ∧ present.map Node.id = level ∧
      ∀ node ∈ present, node ∈ nodes.nodes := by
  induction level with
  | nil => exact ⟨[], rfl, rfl, by simp⟩
  | cons id level ih =>
      obtain ⟨node, hnode⟩ := NodeTable.mem_ids_iff_get?.mp (h id List.mem_cons_self)
      obtain ⟨present, hpresent, hids, hmem⟩ := ih fun other hother =>
        h other (List.mem_cons_of_mem id hother)
      obtain ⟨hin, hid⟩ := NodeTable.get?_eq_some_iff.mp hnode
      have hall : ∀ other ∈ node :: present, other ∈ nodes.nodes := by
        intro other hother
        rcases List.mem_cons.mp hother with heq | hrest
        · exact heq ▸ hin
        · exact hmem other hrest
      exact ⟨node :: present, by simp [List.mapM_cons, hnode, hpresent], by simp [hid, hids], hall⟩

theorem foldl_evalNode {nodes : NodeTable} (paramValues : ParamValues) {present : List Node}
    (h : ∀ node ∈ present, node ∈ nodes.nodes) (values : Values) :
    present.foldl (evalNode paramValues) values =
      Dataflow.run (evaluate nodes paramValues) values (present.map Node.id) := by
  induction present generalizing values with
  | nil => rfl
  | cons node present ih =>
      have hstep : evalNode paramValues values node =
          Dataflow.step (evaluate nodes paramValues) values node.id := by
        rw [evalNode, Dataflow.step, evaluate_of_mem (h node List.mem_cons_self)]
      rw [List.foldl_cons, List.map_cons, Dataflow.run_cons, ← hstep]
      exact ih (fun other hother => h other (List.mem_cons_of_mem node hother)) _

/-- One level of present nodes adds one step, which holds the values of the run. -/
theorem Execution.level_eq_some {nodes : NodeTable} (edges : List Edge)
    (paramValues : ParamValues) (state : Execution) {level : List NodeId}
    (h : ∀ id ∈ level, id ∈ nodes.ids) :
    ∃ next step, state.level nodes edges paramValues level = some next ∧
      next.steps = state.steps ++ [step] ∧ step.values = next.nodeValues ∧
      next.nodeValues = Dataflow.run (evaluate nodes paramValues) state.nodeValues level := by
  obtain ⟨present, hpresent, hids, hmem⟩ := mapM_get?_eq_some h
  have hlevel : state.level nodes edges paramValues level =
      some (state.addLevel edges paramValues present) := by
    simp [Execution.level, hpresent]
  have hrun := foldl_evalNode paramValues hmem state.nodeValues
  rw [hids] at hrun
  exact ⟨_, _, hlevel, rfl, rfl, hrun⟩

private theorem scanl_eq_cons {α β : Type} (f : β → α → β) (start : β) (list : List α) :
    list.scanl f start = start :: (list.scanl f start).tail := by
  cases list with
  | nil => rfl
  | cons first list => rw [List.scanl_cons, List.tail_cons]

/-- The values of the steps, for levels of present nodes: step `k` holds the run over
the first `k` levels. -/
theorem values_buildSteps {nodes : NodeTable} (edges : List Edge) {levels : List (List NodeId)}
    (h : ∀ id ∈ levels.flatten, id ∈ nodes.ids) (paramValues : ParamValues) :
    ∃ steps, buildSteps nodes edges levels paramValues = some steps ∧
      steps.map Step.values =
        levels.scanl (Dataflow.run (evaluate nodes paramValues)) Dataflow.emptyEnv := by
  suffices hloop : ∀ state : Execution,
      ∃ final, levels.foldlM (Execution.level nodes edges paramValues) state = some final ∧
        final.steps.map Step.values = state.steps.map Step.values ++
          (levels.scanl (Dataflow.run (evaluate nodes paramValues)) state.nodeValues).tail by
    obtain ⟨final, hfinal, hvalues⟩ := hloop .initial
    refine ⟨final.steps, by simp [buildSteps, hfinal], ?_⟩
    rw [hvalues]
    exact (scanl_eq_cons _ _ levels).symm
  induction levels with
  | nil => exact fun state => ⟨state, by simp⟩
  | cons level levels ih =>
      intro state
      rw [List.flatten_cons] at h
      obtain ⟨next, step, hnext, hsteps, hvalues, hrun⟩ :=
        state.level_eq_some edges paramValues fun id hid => h id (List.mem_append_left _ hid)
      obtain ⟨final, hfinal, hrest⟩ := ih (fun id hid => h id (List.mem_append_right _ hid)) next
      refine ⟨final, by simp [hnext, hfinal], ?_⟩
      rw [hrest, hsteps, List.scanl_cons, List.tail_cons, ← hrun,
        scanl_eq_cons _ next.nodeValues levels]
      simp [hvalues]

/-- What the step with a given index shows: the run over the levels before it. -/
theorem values_of_getElem? {nodes : NodeTable} {paramValues : ParamValues} {steps : List Step}
    {levels : List (List NodeId)}
    (hvalues : steps.map Step.values =
      levels.scanl (Dataflow.run (evaluate nodes paramValues)) Dataflow.emptyEnv)
    {index : ℕ} {step : Step} (hstep : steps[index]? = some step) :
    step.values = Dataflow.run (evaluate nodes paramValues) Dataflow.emptyEnv
      (levels.take index).flatten := by
  have hmap : (steps.map Step.values)[index]? = some step.values := by simp [hstep]
  rw [hvalues, Dataflow.getElem?_scanl_run] at hmap
  split_ifs at hmap
  exact (Option.some.inj hmap).symm

/-- The values of the last step are those of a run over all levels. -/
theorem getLast?_buildSteps {nodes : NodeTable} (edges : List Edge) {levels : List (List NodeId)}
    (h : ∀ id ∈ levels.flatten, id ∈ nodes.ids) (paramValues : ParamValues) :
    ∃ steps last, buildSteps nodes edges levels paramValues = some steps ∧
      steps.getLast? = some last ∧
      last.values =
        Dataflow.run (evaluate nodes paramValues) Dataflow.emptyEnv levels.flatten := by
  obtain ⟨steps, hsteps, hvalues⟩ := values_buildSteps edges h paramValues
  have hlast := congrArg List.getLast? hvalues
  rw [List.getLast?_map, List.getLast?_scanl, Dataflow.foldl_run, Option.map_eq_some_iff] at hlast
  obtain ⟨last, hget, hrun⟩ := hlast
  exact ⟨steps, last, hsteps, hget, hrun⟩

end Colata.IR
