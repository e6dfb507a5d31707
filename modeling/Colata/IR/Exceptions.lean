/-
# Hiding the exception path

`classifyExceptionNodes` walks back from the `Rethrow` nodes and from the `Return`
nodes, and hides what only the first walk reaches, on any table, cyclic or not. The
walk stops at `Root` and `Start`, and these do not look at their inputs. So the nodes behind a `Return` are
closed under what the evaluation reads, and hiding the others changes none of
their values, on any table.
-/

import Colata.IR.Steps
import Colata.Math.Search

namespace Colata.IR

open Colata.Math Relation

/-- The inputs the backward walk follows from a node: none at absent nodes, `Root` and
`Start`, and never the node itself or an absent one. -/
def walkInputs (nodes : NodeTable) (id : NodeId) : List NodeId :=
  match nodes.get? id with
  | none => []
  | some node =>
      if node.type = "Root" ∨ node.type = "Start" then []
      else node.inputIds.filter fun inId => inId ≠ id ∧ nodes.get? inId ≠ none

/-- The set `reached` of the backward walk. -/
def backwardReachable (nodes : NodeTable) (seedIds : List NodeId) : List NodeId :=
  Search.reachable (walkInputs nodes) seedIds nodes.ids

/-- The ids of the nodes of one type. -/
def idsOfType (nodes : NodeTable) (type : String) : List NodeId :=
  (nodes.nodes.filter fun node => node.type = type).map Node.id

def returnIds (nodes : NodeTable) : List NodeId := idsOfType nodes "Return"

def rethrowIds (nodes : NodeTable) : List NodeId := idsOfType nodes "Rethrow"

def happyPath (nodes : NodeTable) : List NodeId := backwardReachable nodes (returnIds nodes)

def exceptionPath (nodes : NodeTable) : List NodeId := backwardReachable nodes (rethrowIds nodes)

/-- The ids on the exception path only. The source does not use the edges either. -/
def classifyExceptionNodes (nodes : NodeTable) (_edges : List Edge) : List NodeId :=
  if (rethrowIds nodes).isEmpty then []
  else (exceptionPath nodes).filter fun id => id ∉ happyPath nodes

def filterLevels (levels : List (List NodeId)) (excludeIds : List NodeId) :
    List (List NodeId) :=
  if excludeIds.isEmpty then levels
  else (levels.map fun level => level.filter fun id => id ∉ excludeIds).filter fun level =>
    !level.isEmpty

/-! ## The walk -/

theorem mem_walkInputs {nodes : NodeTable} {inId id : NodeId} :
    inId ∈ walkInputs nodes id ↔
      ∃ node ∈ nodes.nodes, node.id = id ∧ node.type ≠ "Root" ∧ node.type ≠ "Start" ∧
        inId ∈ node.inputIds ∧ inId ≠ id ∧ inId ∈ nodes.ids := by
  unfold walkInputs
  cases hfound : nodes.get? id with
  | none =>
      have habsent := NodeTable.get?_eq_none_iff.mp hfound
      constructor
      · intro hmem
        cases hmem
      · intro hmem
        obtain ⟨node, hnode, hid, _⟩ := hmem
        exact absurd (NodeTable.mem_ids.mpr ⟨node, hnode, hid⟩) habsent
  | some node =>
      obtain ⟨hnode, rfl⟩ := NodeTable.get?_eq_some_iff.mp hfound
      have hpresent : nodes.get? inId ≠ none ↔ inId ∈ nodes.ids := by
        rw [ne_eq, NodeTable.get?_eq_none_iff, not_not]
      constructor
      · intro hmem
        show ∃ other ∈ nodes.nodes, _
        by_cases htype : node.type = "Root" ∨ node.type = "Start"
        · simp [htype] at hmem
        · rw [not_or] at htype
          simp only [htype, or_self, ↓reduceIte, List.mem_filter, decide_eq_true_eq,
            hpresent] at hmem
          exact ⟨node, hnode, rfl, htype.1, htype.2, hmem.1, hmem.2⟩
      · intro hmem
        obtain ⟨other, hother, hid, hroot, hstart, hin, hne, hids⟩ := hmem
        obtain rfl := NodeTable.eq_of_mem_of_id_eq hother hnode hid
        simp only [hroot, hstart, or_self, ↓reduceIte, List.mem_filter, decide_eq_true_eq,
          hpresent]
        exact ⟨hin, hne, hids⟩

theorem walkInputs_eq_nil {nodes : NodeTable} {id : NodeId} (habsent : id ∉ nodes.ids) :
    walkInputs nodes id = [] := by
  rw [walkInputs, NodeTable.get?_eq_none_iff.mpr habsent]

/-- The walk reaches a node exactly when it leads there from a seed; in particular the
rounds of the search suffice. -/
theorem mem_backwardReachable_iff {nodes : NodeTable} {seedIds : List NodeId} {id : NodeId} :
    id ∈ backwardReachable nodes seedIds ↔
      ∃ seed ∈ seedIds, ReflTransGen (Search.Arc (walkInputs nodes)) seed id :=
  Search.mem_reachable_iff fun _ habsent => walkInputs_eq_nil habsent

/-- The walk ends because its stack is empty. -/
theorem stack_run_eq_nil (nodes : NodeTable) (seedIds : List NodeId) :
    (Search.run (walkInputs nodes) (Search.rounds (walkInputs nodes) seedIds nodes.ids)
      (Search.initial seedIds)).stack = [] := by
  apply Search.run_stack_eq_nil fun _ habsent => walkInputs_eq_nil habsent
  simp [Search.rounds, Search.initial]

/-! ## What is hidden -/

/-- The node `id` is neither a Root nor a Start and has the present node `inId` as an
input. -/
def NodeTable.Follows (nodes : NodeTable) (id inId : NodeId) : Prop :=
  ∃ node ∈ nodes.nodes, node.id = id ∧ node.type ≠ "Root" ∧ node.type ≠ "Start" ∧
    inId ∈ node.inputIds ∧ inId ∈ nodes.ids

/-- Some node of this type leads back to `id`. -/
def NodeTable.LeadsBack (nodes : NodeTable) (type : String) (id : NodeId) : Prop :=
  ∃ node ∈ nodes.nodes, node.type = type ∧ ReflTransGen nodes.Follows node.id id

/-- Only the exception path leads back to `id`. -/
def NodeTable.ExceptionOnly (nodes : NodeTable) (id : NodeId) : Prop :=
  nodes.LeadsBack "Rethrow" id ∧ ¬ nodes.LeadsBack "Return" id

/-- That the walk skips self-loops does not change where it leads. -/
theorem reflTransGen_walkInputs_iff {nodes : NodeTable} {seed id : NodeId} :
    ReflTransGen (Search.Arc (walkInputs nodes)) seed id ↔ ReflTransGen nodes.Follows seed id := by
  constructor
  · have hle : Search.Arc (walkInputs nodes) ≤ nodes.Follows := by
      intro first second harc
      obtain ⟨node, hnode, hid, hroot, hstart, hin, _, hpresent⟩ := mem_walkInputs.mp harc
      exact ⟨node, hnode, hid, hroot, hstart, hin, hpresent⟩
    exact ReflTransGen.mono hle seed id
  · intro hpath
    induction hpath with
    | refl => exact ReflTransGen.refl
    | @tail first second _ hfollows ih =>
        obtain ⟨node, hnode, hid, hroot, hstart, hin, hpresent⟩ := hfollows
        by_cases hself : second = first
        · exact hself ▸ ih
        · exact ih.tail (mem_walkInputs.mpr
            ⟨node, hnode, hid, hroot, hstart, hin, hself, hpresent⟩)

theorem mem_backwardReachable_idsOfType {nodes : NodeTable} {type : String} {id : NodeId} :
    id ∈ backwardReachable nodes (idsOfType nodes type) ↔ nodes.LeadsBack type id := by
  rw [mem_backwardReachable_iff]
  simp only [reflTransGen_walkInputs_iff, idsOfType, List.mem_map, List.mem_filter,
    decide_eq_true_eq]
  constructor
  · rintro ⟨_, ⟨node, ⟨hnode, htype⟩, rfl⟩, hpath⟩
    exact ⟨node, hnode, htype, hpath⟩
  · rintro ⟨node, hnode, htype, hpath⟩
    exact ⟨node.id, ⟨node, ⟨hnode, htype⟩, rfl⟩, hpath⟩

theorem rethrowIds_eq_nil_iff {nodes : NodeTable} :
    rethrowIds nodes = [] ↔ ∀ node ∈ nodes.nodes, node.type ≠ "Rethrow" := by
  simp [rethrowIds, idsOfType, List.filter_eq_nil_iff]

theorem mem_classifyExceptionNodes_iff {nodes : NodeTable} {edges : List Edge} {id : NodeId} :
    id ∈ classifyExceptionNodes nodes edges ↔ nodes.ExceptionOnly id := by
  have hreturn : id ∈ happyPath nodes ↔ nodes.LeadsBack "Return" id :=
    mem_backwardReachable_idsOfType
  have hrethrow : id ∈ exceptionPath nodes ↔ nodes.LeadsBack "Rethrow" id :=
    mem_backwardReachable_idsOfType
  unfold classifyExceptionNodes
  split_ifs with hempty
  · have hnone := rethrowIds_eq_nil_iff.mp (List.isEmpty_iff.mp hempty)
    constructor
    · intro hmem
      cases hmem
    · rintro ⟨⟨node, hnode, htype, _⟩, _⟩
      exact absurd htype (hnone node hnode)
  · rw [List.mem_filter, decide_eq_true_eq, hrethrow, hreturn, NodeTable.ExceptionOnly]

/-- Both walks end, nothing is hidden in a table without a Rethrow, and otherwise exactly
those nodes that a Rethrow and no Return leads back to. -/
theorem classifyExceptionNodes_correct (nodes : NodeTable) (edges : List Edge) :
    (∀ seedIds, (Search.run (walkInputs nodes)
      (Search.rounds (walkInputs nodes) seedIds nodes.ids) (Search.initial seedIds)).stack = []) ∧
    ((∀ node ∈ nodes.nodes, node.type ≠ "Rethrow") → classifyExceptionNodes nodes edges = []) ∧
    ∀ id, id ∈ classifyExceptionNodes nodes edges ↔
      (∃ node ∈ nodes.nodes, node.type = "Rethrow" ∧ ReflTransGen nodes.Follows node.id id) ∧
        ¬ ∃ node ∈ nodes.nodes, node.type = "Return" ∧ ReflTransGen nodes.Follows node.id id := by
  refine ⟨stack_run_eq_nil nodes, ?_, fun id => mem_classifyExceptionNodes_iff⟩
  intro hnone
  rw [classifyExceptionNodes, rethrowIds_eq_nil_iff.mpr hnone]
  rfl

/-- What the evaluation of a reached node reads from another present node is reached. -/
theorem mem_backwardReachable_of_reads {nodes : NodeTable} {seedIds : List NodeId}
    {source id : NodeId} (hid : id ∈ backwardReachable nodes seedIds)
    (hreads : nodes.Reads source id) (hsource : source ∈ nodes.ids) :
    source ∈ backwardReachable nodes seedIds := by
  by_cases hself : source = id
  · exact hself ▸ hid
  · obtain ⟨node, hnode, hnodeId, hlooks, hin⟩ := hreads
    have hroot : node.type ≠ "Root" := by
      intro htype
      simp [ignoresInputs, htype] at hlooks
    have hstart : node.type ≠ "Start" := by
      intro htype
      simp [ignoresInputs, htype] at hlooks
    obtain ⟨seed, hseed, hpath⟩ := mem_backwardReachable_iff.mp hid
    have harc : Search.Arc (walkInputs nodes) id source :=
      mem_walkInputs.mpr ⟨node, hnode, hnodeId, hroot, hstart, hin, hself, hsource⟩
    exact mem_backwardReachable_iff.mpr ⟨seed, hseed, hpath.tail harc⟩

/-! ## Hiding nodes -/

theorem not_mem_classifyExceptionNodes {nodes : NodeTable} {edges : List Edge} {id : NodeId}
    (h : id ∈ happyPath nodes) : id ∉ classifyExceptionNodes nodes edges := by
  unfold classifyExceptionNodes
  split_ifs
  · exact List.not_mem_nil
  · simp [h]

/-- Filtering the levels keeps the order of what it keeps. -/
theorem flatten_filterLevels (levels : List (List NodeId)) (excludeIds : List NodeId) :
    (filterLevels levels excludeIds).flatten =
      levels.flatten.filter fun id => id ∉ excludeIds := by
  unfold filterLevels
  split_ifs with hempty
  · rw [List.isEmpty_iff.mp hempty]
    exact (List.filter_eq_self.mpr fun id _ => by simp).symm
  · rw [List.flatten_filter_not_isEmpty, List.filter_flatten]

/-- Hiding the exception path changes no value on the happy path. -/
theorem happyPath_values_filterLevels (nodes : NodeTable) (paramValues : ParamValues) :
    ∃ steps last steps' last',
      buildSteps nodes (buildEdges nodes) (topoLevels nodes (buildEdges nodes)) paramValues =
        some steps ∧ steps.getLast? = some last ∧
      buildSteps nodes (buildEdges nodes)
        (filterLevels (topoLevels nodes (buildEdges nodes))
          (classifyExceptionNodes nodes (buildEdges nodes))) paramValues = some steps' ∧
      steps'.getLast? = some last' ∧
      ∀ id ∈ happyPath nodes, last'.values id = last.values id := by
  have hids : ∀ id ∈ (topoLevels nodes (buildEdges nodes)).flatten, id ∈ nodes.ids :=
    fun _ => mem_ids_of_mem_topoLevels
  have hids' : ∀ id ∈ (filterLevels (topoLevels nodes (buildEdges nodes))
      (classifyExceptionNodes nodes (buildEdges nodes))).flatten, id ∈ nodes.ids := by
    intro id hid
    rw [flatten_filterLevels] at hid
    exact hids id (List.mem_of_mem_filter hid)
  obtain ⟨steps, last, hsteps, hlast, hrun⟩ :=
    getLast?_buildSteps (buildEdges nodes) hids paramValues
  obtain ⟨steps', last', hsteps', hlast', hrun'⟩ :=
    getLast?_buildSteps (buildEdges nodes) hids' paramValues
  refine ⟨steps, last, steps', last', hsteps, hlast, hsteps', hlast', ?_⟩
  intro id hid
  rw [hrun, hrun', flatten_filterLevels]
  -- Absent nodes never get a value, so the happy path together with them is closed.
  apply Dataflow.run_filter_eq (evaluate_readsOnly nodes paramValues)
    fun other => other ∈ happyPath nodes ∨ other ∉ nodes.ids
  · intro other hother hmember source hreads
    by_cases hsource : source ∈ nodes.ids
    · rcases hmember with hhappy | habsent
      · exact Or.inl (mem_backwardReachable_of_reads hhappy hreads hsource)
      · exact absurd (hids other hother) habsent
    · exact Or.inr hsource
  · intro other hother hmember
    rcases hmember with hhappy | habsent
    · exact decide_eq_true (not_mem_classifyExceptionNodes hhappy)
    · exact absurd (hids other hother) habsent
  · exact fun _ _ => rfl
  · exact Or.inl hid

end Colata.IR
