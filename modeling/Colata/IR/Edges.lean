/-
# Edges of a node table

`buildEdges` turns the input lists into a duplicate-free list of edges between
present, distinct nodes and marks the structural ones. A structural edge is drawn
but neither orders the execution nor counts as data flow.
-/

import Colata.IR.Node
import Colata.Languages.JavaScript.Text

namespace Colata.IR

open Colata.JavaScript

/-- The key that the template `from->to` spells. -/
structure EdgeKey where
  fromId : NodeId
  toId : NodeId
  deriving DecidableEq

structure Edge where
  fromId : NodeId
  toId : NodeId
  structural : Bool
  deriving DecidableEq

def Edge.key (edge : Edge) : EdgeKey := ⟨edge.fromId, edge.toId⟩

/-- The tests of `isStructural` on the types of the two ends. -/
def structuralTypes (ft tt : String) : Bool :=
  if ft = "Root" && tt = "Start" then true
  else if ft = "Start" && tt = "Root" then true
  else if ft = "Root" && startsWith tt "Con" then true
  else false

/-- `buildEdges` asks only about present nodes; an absent one has no type. -/
def isStructural (fromId toId : NodeId) (nodes : NodeTable) : Bool :=
  if fromId = toId then true
  else
    match nodes.get? fromId, nodes.get? toId with
    | some source, some target => structuralTypes source.type target.type
    | _, _ => false

/-- The state of the edge builder. -/
structure EdgeScan where
  edges : List Edge
  seen : List EdgeKey

/-- One turn of the inner loop, over `node.inputIds`. -/
def EdgeScan.addInput (nodes : NodeTable) (node : Node) (scan : EdgeScan) (inId : NodeId) :
    EdgeScan :=
  if inId = node.id then scan
  else if nodes.get? inId = none then scan
  else if ⟨inId, node.id⟩ ∈ scan.seen then scan
  else
    { edges := scan.edges ++ [⟨inId, node.id, isStructural inId node.id nodes⟩]
      seen := ⟨inId, node.id⟩ :: scan.seen }

/-- One turn of the outer loop, over the nodes. -/
def EdgeScan.addNode (nodes : NodeTable) (scan : EdgeScan) (node : Node) : EdgeScan :=
  node.inputIds.foldl (EdgeScan.addInput nodes node) scan

def buildEdges (nodes : NodeTable) : List Edge :=
  (nodes.nodes.foldl (EdgeScan.addNode nodes) ⟨[], []⟩).edges

/-! ## Which edges are built -/

/-- The graph a table describes: `fromId` is a present input of the distinct node `toId`. -/
def NodeTable.HasEdge (nodes : NodeTable) (fromId toId : NodeId) : Prop :=
  fromId ≠ toId ∧ fromId ∈ nodes.ids ∧
    ∃ node ∈ nodes.nodes, node.id = toId ∧ fromId ∈ node.inputIds

/-- The part of the graph that orders the execution. -/
def NodeTable.DataEdge (nodes : NodeTable) (fromId toId : NodeId) : Prop :=
  nodes.HasEdge fromId toId ∧ isStructural fromId toId nodes = false

instance (nodes : NodeTable) (fromId toId : NodeId) : Decidable (nodes.HasEdge fromId toId) :=
  inferInstanceAs (Decidable (_ ∧ _ ∧ ∃ node ∈ nodes.nodes, _))

instance (nodes : NodeTable) (fromId toId : NodeId) : Decidable (nodes.DataEdge fromId toId) :=
  inferInstanceAs (Decidable (_ ∧ _))

/-- What the builder keeps true, where `inputs` are the pairs it has been offered. -/
structure EdgeScan.Sound (nodes : NodeTable) (inputs : List EdgeKey) (scan : EdgeScan) : Prop where
  nodup : (scan.edges.map Edge.key).Nodup
  seen : ∀ key, key ∈ scan.seen ↔ key ∈ scan.edges.map Edge.key
  keys : ∀ key, key ∈ scan.edges.map Edge.key ↔
    key ∈ inputs ∧ key.fromId ≠ key.toId ∧ key.fromId ∈ nodes.ids
  structural : ∀ edge ∈ scan.edges,
    edge.structural = isStructural edge.fromId edge.toId nodes

namespace EdgeScan

theorem Sound.addInput {nodes : NodeTable} {inputs : List EdgeKey} {scan : EdgeScan}
    (h : Sound nodes inputs scan) (node : Node) (inId : NodeId) :
    Sound nodes (inputs ++ [⟨inId, node.id⟩]) (scan.addInput nodes node inId) := by
  have hskip : (∀ key : EdgeKey, key = ⟨inId, node.id⟩ → key.fromId ≠ key.toId →
      key.fromId ∈ nodes.ids → key ∈ scan.edges.map Edge.key) →
      Sound nodes (inputs ++ [⟨inId, node.id⟩]) scan := fun hold =>
    { h with
      keys := fun key => by
        rw [List.mem_append, List.mem_singleton, or_and_right, ← h.keys]
        refine ⟨Or.inl, fun hkey => hkey.elim id ?_⟩
        rintro ⟨heq, hne, hmem⟩
        exact hold key heq hne hmem }
  unfold EdgeScan.addInput
  split_ifs with hself habsent hseen
  · exact hskip fun key heq hne _ => by
      subst heq
      exact absurd hself hne
  · exact hskip fun key heq _ hmem => by
      subst heq
      exact absurd hmem (NodeTable.get?_eq_none_iff.mp habsent)
  · exact hskip fun key heq _ _ => heq ▸ (h.seen _).mp hseen
  · have hpresent : inId ∈ nodes.ids := by
      by_contra hmem
      exact habsent (NodeTable.get?_eq_none_iff.mpr hmem)
    have hmap : (scan.edges ++
          [(⟨inId, node.id, isStructural inId node.id nodes⟩ : Edge)]).map Edge.key =
        scan.edges.map Edge.key ++ [⟨inId, node.id⟩] := by simp [Edge.key]
    refine ⟨?_, ?_, ?_, ?_⟩
    · rw [hmap]
      refine h.nodup.append (List.nodup_singleton _) ?_
      rw [List.disjoint_singleton]
      exact fun hkey => hseen ((h.seen _).mpr hkey)
    · intro key
      rw [hmap, List.mem_cons, List.mem_append, List.mem_singleton, h.seen, or_comm]
    · intro key
      rw [hmap, List.mem_append, List.mem_append, List.mem_singleton, h.keys, or_and_right]
      refine or_congr_right ⟨?_, And.left⟩
      rintro rfl
      exact ⟨rfl, hself, hpresent⟩
    · intro edge hedge
      rcases List.mem_append.mp hedge with hold | hnew
      · exact h.structural edge hold
      · rw [List.mem_singleton.mp hnew]

theorem Sound.addNode {nodes : NodeTable} {inputs : List EdgeKey} {scan : EdgeScan}
    (h : Sound nodes inputs scan) (node : Node) :
    Sound nodes (inputs ++ node.inputIds.map fun inId => ⟨inId, node.id⟩)
      (scan.addNode nodes node) := by
  unfold EdgeScan.addNode
  induction node.inputIds generalizing inputs scan with
  | nil => simpa using h
  | cons inId rest ih => simpa using ih (h.addInput node inId)

theorem Sound.addNodes {nodes : NodeTable} {inputs : List EdgeKey} {scan : EdgeScan}
    (h : Sound nodes inputs scan) (list : List Node) :
    Sound nodes (inputs ++ list.flatMap fun node => node.inputIds.map fun inId => ⟨inId, node.id⟩)
      (list.foldl (EdgeScan.addNode nodes) scan) := by
  induction list generalizing inputs scan with
  | nil => simpa using h
  | cons node list ih => simpa using ih (h.addNode node)

end EdgeScan

theorem buildEdges_sound (nodes : NodeTable) :
    EdgeScan.Sound nodes
      (nodes.nodes.flatMap fun node => node.inputIds.map fun inId => ⟨inId, node.id⟩)
      (nodes.nodes.foldl (EdgeScan.addNode nodes) ⟨[], []⟩) := by
  have hempty : EdgeScan.Sound nodes [] ⟨[], []⟩ := ⟨by simp, by simp, by simp, by simp⟩
  simpa using hempty.addNodes nodes.nodes

/-- No edge is built twice. -/
theorem nodup_keys_buildEdges (nodes : NodeTable) :
    ((buildEdges nodes).map Edge.key).Nodup :=
  (buildEdges_sound nodes).nodup

/-- Exactly the edges of the table's graph are built. -/
theorem mem_keys_buildEdges {nodes : NodeTable} {fromId toId : NodeId} :
    ⟨fromId, toId⟩ ∈ (buildEdges nodes).map Edge.key ↔ nodes.HasEdge fromId toId := by
  rw [buildEdges, (buildEdges_sound nodes).keys]
  simp only [List.mem_flatMap, List.mem_map, EdgeKey.mk.injEq, NodeTable.HasEdge]
  constructor
  · rintro ⟨⟨node, hnode, inId, hin, rfl, rfl⟩, hne, hmem⟩
    exact ⟨hne, hmem, node, hnode, rfl, hin⟩
  · rintro ⟨hne, hmem, node, hnode, rfl, hin⟩
    exact ⟨⟨node, hnode, fromId, hin, rfl, rfl⟩, hne, hmem⟩

theorem structural_of_mem_buildEdges {nodes : NodeTable} {edge : Edge}
    (h : edge ∈ buildEdges nodes) :
    edge.structural = isStructural edge.fromId edge.toId nodes :=
  (buildEdges_sound nodes).structural edge h

/-- Both ends of an edge are present. -/
theorem NodeTable.HasEdge.mem_ids {nodes : NodeTable} {fromId toId : NodeId}
    (h : nodes.HasEdge fromId toId) : fromId ∈ nodes.ids ∧ toId ∈ nodes.ids := by
  obtain ⟨_, hfrom, node, hnode, hid, _⟩ := h
  exact ⟨hfrom, NodeTable.mem_ids.mpr ⟨node, hnode, hid⟩⟩

/-- The edges that are not structural are the data edges of the table. -/
theorem mem_dataEdges {nodes : NodeTable} {fromId toId : NodeId} :
    (∃ edge ∈ buildEdges nodes, edge.structural = false ∧ edge.key = ⟨fromId, toId⟩) ↔
      nodes.DataEdge fromId toId := by
  constructor
  · rintro ⟨edge, hedge, hstructural, hkey⟩
    obtain ⟨rfl, rfl⟩ : edge.fromId = fromId ∧ edge.toId = toId := by simpa [Edge.key] using hkey
    refine ⟨mem_keys_buildEdges.mp (List.mem_map_of_mem hedge), ?_⟩
    rw [← structural_of_mem_buildEdges hedge, hstructural]
  · rintro ⟨hhas, hstructural⟩
    obtain ⟨edge, hedge, hkey⟩ := List.mem_map.mp (mem_keys_buildEdges.mpr hhas)
    obtain ⟨rfl, rfl⟩ : edge.fromId = fromId ∧ edge.toId = toId := by simpa [Edge.key] using hkey
    exact ⟨edge, hedge, (structural_of_mem_buildEdges hedge).trans hstructural, hkey⟩

end Colata.IR
