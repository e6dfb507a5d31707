/-
# Execution levels

`topoLevels` runs Kahn's algorithm on the edges that are not structural and puts
whatever it cannot reach into one last level. On the edges of a table the loop
always finishes, so the levels before the last one are a levelling of the data
edges.
-/

import Colata.IR.Edges
import Colata.Math.Kahn

namespace Colata.IR

open Colata.Math

/-- The waiting counts after the loop over `edges`. -/
def initialInDeg (edges : List Edge) : NodeId → ℤ :=
  edges.foldl
    (fun inDeg edge =>
      if edge.structural then inDeg
      else Function.update inDeg edge.toId (inDeg edge.toId + 1))
    fun _ => 0

/-- The adjacency lists after the loop over `edges`. -/
def adjacency (edges : List Edge) : NodeId → List NodeId :=
  edges.foldl
    (fun adj edge =>
      if edge.structural then adj
      else Function.update adj edge.fromId (adj edge.fromId ++ [edge.toId]))
    fun _ => []

/-- The state in which the loop over the queue ends; as many rounds as there are
nodes are enough, see `kahn_queue_eq_nil`. -/
def kahn (nodes : NodeTable) (edges : List Edge) : Kahn.State NodeId :=
  let inDeg := initialInDeg edges
  Kahn.run (adjacency edges) nodes.ids.length
    ⟨inDeg, [], nodes.ids.filter fun id => inDeg id = 0⟩

def topoLevels (nodes : NodeTable) (edges : List Edge) : List (List NodeId) :=
  let levels := (kahn nodes edges).levels
  let visited := levels.flatten
  let remaining := nodes.ids.filter fun id => id ∉ visited
  -- Nodes in cycles: add remaining
  if remaining.isEmpty then levels else levels ++ [remaining]

/-! ## The loop finishes -/

/-- The arcs that order the execution. -/
def dataArcs (edges : List Edge) : List (NodeId × NodeId) :=
  (edges.filter fun edge => !edge.structural).map fun edge => (edge.fromId, edge.toId)

theorem initialInDeg_eq_waiting (edges : List Edge) (node : NodeId) :
    initialInDeg edges node = Kahn.waiting (dataArcs edges) [] node := by
  suffices h : ∀ inDeg : NodeId → ℤ,
      edges.foldl
        (fun inDeg edge =>
          if edge.structural then inDeg
          else Function.update inDeg edge.toId (inDeg edge.toId + 1)) inDeg node =
        inDeg node + Kahn.waiting (dataArcs edges) [] node by
    rw [initialInDeg, h, zero_add]
  induction edges with
  | nil => simp [Kahn.waiting, dataArcs]
  | cons edge edges ih =>
      intro inDeg
      rw [List.foldl_cons, ih]
      by_cases hstructural : edge.structural
      · simp [dataArcs, hstructural]
      · by_cases hnode : edge.toId = node
        · subst hnode
          simp [dataArcs, hstructural, Kahn.waiting]
          omega
        · simp [dataArcs, hstructural, Kahn.waiting, hnode, Function.update_of_ne (Ne.symm hnode)]

theorem adjacency_eq (edges : List Edge) (id : NodeId) :
    adjacency edges id = ((dataArcs edges).filter (·.1 = id)).map (·.2) := by
  suffices h : ∀ adj : NodeId → List NodeId,
      edges.foldl
        (fun adj edge =>
          if edge.structural then adj
          else Function.update adj edge.fromId (adj edge.fromId ++ [edge.toId])) adj id =
        adj id ++ ((dataArcs edges).filter (·.1 = id)).map (·.2) by
    rw [adjacency, h, List.nil_append]
  induction edges with
  | nil => simp [dataArcs]
  | cons edge edges ih =>
      intro adj
      rw [List.foldl_cons, ih]
      by_cases hstructural : edge.structural
      · simp [dataArcs, hstructural]
      · by_cases hid : edge.fromId = id
        · subst hid
          simp [dataArcs, hstructural]
        · simp [dataArcs, hstructural, hid, Function.update_of_ne (Ne.symm hid)]

theorem mem_dataArcs {nodes : NodeTable} {fromId toId : NodeId} :
    (fromId, toId) ∈ dataArcs (buildEdges nodes) ↔ nodes.DataEdge fromId toId := by
  rw [← mem_dataEdges]
  simp [dataArcs, Edge.key, and_assoc]

theorem kahn_invariant (nodes : NodeTable) :
    Kahn.Invariant (dataArcs (buildEdges nodes)) nodes.ids (kahn nodes (buildEdges nodes)) ∧
      (kahn nodes (buildEdges nodes)).queue = [] := by
  have hinitial := Kahn.invariant_initial nodes.nodup_ids
    (initialInDeg_eq_waiting (buildEdges nodes))
  refine hinitial.run ?_ (adjacency_eq (buildEdges nodes)) (by simp)
  rintro ⟨fromId, toId⟩ harc
  exact (mem_dataArcs.mp harc).1.mem_ids.2

/-- The loop ends because its queue is empty, not because its rounds are used up. -/
theorem kahn_queue_eq_nil (nodes : NodeTable) : (kahn nodes (buildEdges nodes)).queue = [] :=
  (kahn_invariant nodes).2

theorem kahn_levelling (nodes : NodeTable) :
    Levelling nodes.DataEdge nodes.ids (kahn nodes (buildEdges nodes)).levels := by
  have h := (kahn_invariant nodes).1.levelling (kahn_queue_eq_nil nodes)
  simpa only [mem_dataArcs] using h

theorem kahn_prompt (nodes : NodeTable) :
    Prompt nodes.DataEdge (kahn nodes (buildEdges nodes)).levels := by
  have hinitial := Kahn.invariant_initial nodes.nodup_ids
    (initialInDeg_eq_waiting (buildEdges nodes))
  have hfirst : Prompt (fun source target => (source, target) ∈ dataArcs (buildEdges nodes))
      ([] ++ [nodes.ids.filter fun id => initialInDeg (buildEdges nodes) id = 0]) := by
    intro index node hnode
    have hlength := hnode.lt_length
    simp at hlength
  have h : Prompt (fun source target => (source, target) ∈ dataArcs (buildEdges nodes))
      (kahn nodes (buildEdges nodes)).levels :=
    hinitial.prompt_run (fun arc harc => (mem_dataArcs.mp harc).1.mem_ids.2)
      (adjacency_eq (buildEdges nodes)) hfirst nodes.ids.length
  simpa only [mem_dataArcs] using h

/-! ## The order the levels give -/

theorem source_mem_of_dataEdge {nodes : NodeTable} (fromId toId : NodeId)
    (h : nodes.DataEdge fromId toId) : fromId ∈ nodes.ids :=
  h.1.mem_ids.1

theorem finite_sources (nodes : NodeTable) :
    {fromId | ∃ toId, nodes.DataEdge fromId toId}.Finite :=
  (List.finite_toSet nodes.ids).subset fun _ ⟨_, h⟩ => h.1.mem_ids.1

/-- The levels are a levelling, followed by one level with all nodes it leaves out. -/
theorem topoLevels_eq_append (nodes : NodeTable) :
    ∃ last : List (List NodeId), last.length ≤ 1 ∧
      topoLevels nodes (buildEdges nodes) = (kahn nodes (buildEdges nodes)).levels ++ last ∧
      last.flatten = nodes.ids.filter
        fun id => id ∉ (kahn nodes (buildEdges nodes)).levels.flatten := by
  simp only [topoLevels]
  generalize nodes.ids.filter
    (fun id => decide (id ∉ (kahn nodes (buildEdges nodes)).levels.flatten)) = remaining
  cases remaining with
  | nil => exact ⟨[], by simp⟩
  | cons id remaining => exact ⟨[id :: remaining], by simp⟩

/-- Every node stands in exactly one level, exactly once. -/
theorem topoLevels_perm (nodes : NodeTable) :
    (topoLevels nodes (buildEdges nodes)).flatten.Perm nodes.ids := by
  obtain ⟨last, _, heq, hlast⟩ := topoLevels_eq_append nodes
  have hlevelling := kahn_levelling nodes
  rw [heq, List.flatten_append, hlast, List.perm_ext_iff_of_nodup _ nodes.nodup_ids]
  · intro id
    rw [List.mem_append, List.mem_filter, decide_eq_true_eq]
    constructor
    · rintro (hmem | ⟨hids, _⟩)
      · exact hlevelling.subset id hmem
      · exact hids
    · intro hids
      exact (Classical.em _).imp_right fun hmem => ⟨hids, hmem⟩
  · refine hlevelling.nodup.append (List.Nodup.filter _ nodes.nodup_ids) fun id hmem hnot => ?_
    simpa [hmem] using (List.mem_filter.mp hnot).2

theorem mem_ids_of_mem_topoLevels {nodes : NodeTable} {id : NodeId}
    (h : id ∈ (topoLevels nodes (buildEdges nodes)).flatten) : id ∈ nodes.ids :=
  (topoLevels_perm nodes).mem_iff.mp h

/-- An edge leads to a strictly later level exactly when its source is grounded. -/
theorem earlier_iff_acc {nodes : NodeTable} {fromId toId : NodeId}
    (hedge : nodes.DataEdge fromId toId) :
    Earlier (topoLevels nodes (buildEdges nodes)) fromId toId ↔ Acc nodes.DataEdge fromId := by
  obtain ⟨last, hlength, heq, hlast⟩ := topoLevels_eq_append nodes
  rw [heq]
  refine (kahn_levelling nodes).earlier_append_iff source_mem_of_dataEdge hlength ?_ hedge
    hedge.1.mem_ids.2
  intro id
  simp [hlast]

end Colata.IR
