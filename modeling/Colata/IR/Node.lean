/-
# Nodes and node tables of the C2 IR viewer

A node table is the object that `parseIR` builds: nodes keyed by their id, listed
in the order in which `Object.values` enumerates them. Distinct keys are part of
the type, and a node's key is its own id.
-/

import Colata.Math.Binary64
import Mathlib.Data.List.Nodup
import Mathlib.Data.List.ReduceOption

namespace Colata.IR

open Colata.Math

/-- Node ids are JavaScript numbers. -/
abbrev NodeId := Binary64

/-- One parsed line of a dump. A `none` input is the placeholder `_`. -/
structure Node where
  id : NodeId
  type : String
  inputs : List (Option NodeId)
  outputs : List NodeId
  extra : String
  sublabel : String
  javaLine : Option Binary64
  method : Option String
  returnValIdx : ℤ
  line : String
  deriving DecidableEq

/-- A node of the given id, type and inputs, with no other data. -/
def plainNode (id : NodeId) (type : String) (inputs : List (Option NodeId)) : Node :=
  { id, type, inputs, outputs := [], extra := "", sublabel := "", javaLine := none,
    method := none, returnValIdx := -1, line := "" }

namespace Node

/-- The inputs that are not placeholders. -/
def inputIds (node : Node) : List NodeId := node.inputs.reduceOption

theorem mem_inputIds {node : Node} {id : NodeId} :
    id ∈ node.inputIds ↔ some id ∈ node.inputs := by
  simp [inputIds, List.reduceOption_mem_iff]

end Node

/-- Nodes with pairwise distinct ids, in enumeration order. -/
structure NodeTable where
  nodes : List Node
  nodup : (nodes.map Node.id).Nodup

namespace NodeTable

def empty : NodeTable := ⟨[], List.nodup_nil⟩

/-- `Object.keys(nodes).map(Number)`. -/
def ids (table : NodeTable) : List NodeId := table.nodes.map Node.id

theorem nodup_ids (table : NodeTable) : table.ids.Nodup := table.nodup

/-- `nodes[id]`. -/
def get? (table : NodeTable) (id : NodeId) : Option Node :=
  table.nodes.find? fun node => node.id = id

/-- The array index a key denotes; such keys come first, in ascending order. -/
def arrayIndex? : NodeId → Option ℕ
  | .finite false magnitude _ =>
      if magnitude % Binary64.one = 0 ∧ magnitude / Binary64.one < 2 ^ 32 - 1 then
        some (magnitude / Binary64.one)
      else none
  | _ => none

/-- Whether a new key is enumerated before one that is already there. -/
def precedes (key other : NodeId) : Bool :=
  match arrayIndex? key, arrayIndex? other with
  | some index, some otherIndex => index < otherIndex
  | some _, none => true
  | none, _ => false

/-- Put a node with a new key at its place in the enumeration order. -/
def place (node : Node) : List Node → List Node
  | [] => [node]
  | other :: rest =>
      if precedes node.id other.id then node :: other :: rest else other :: place node rest

theorem place_perm (node : Node) (nodes : List Node) : (place node nodes).Perm (node :: nodes) := by
  induction nodes with
  | nil => exact List.Perm.refl _
  | cons other rest ih =>
      unfold place
      split_ifs
      · exact List.Perm.refl _
      · exact (ih.cons other).trans (List.Perm.swap node other rest)

/-- Overwrite the value of an existing key, which keeps its place. -/
def overwrite (node : Node) (nodes : List Node) : List Node :=
  nodes.map fun other => if other.id = node.id then node else other

theorem map_id_overwrite (node : Node) (nodes : List Node) :
    (overwrite node nodes).map Node.id = nodes.map Node.id := by
  rw [overwrite, List.map_map]
  apply List.map_congr_left
  intro other _
  by_cases h : other.id = node.id <;> simp [h]

/-- `nodes[node.id] = node`. -/
def insert (table : NodeTable) (node : Node) : NodeTable :=
  if h : node.id ∈ table.ids then
    ⟨overwrite node table.nodes, by rw [map_id_overwrite]; exact table.nodup⟩
  else
    ⟨place node table.nodes, by
      rw [((place_perm node table.nodes).map Node.id).nodup_iff, List.map_cons, List.nodup_cons]
      exact ⟨h, table.nodup⟩⟩

/-! ## Reading and writing keys -/

@[simp]
theorem mem_ids {table : NodeTable} {id : NodeId} :
    id ∈ table.ids ↔ ∃ node ∈ table.nodes, node.id = id := by
  simp [ids]

theorem get?_eq_some_iff {table : NodeTable} {id : NodeId} {node : Node} :
    table.get? id = some node ↔ node ∈ table.nodes ∧ node.id = id := by
  constructor
  · intro h
    exact ⟨List.mem_of_find?_eq_some h, by simpa using List.find?_some h⟩
  · rintro ⟨hmem, rfl⟩
    cases hfound : table.get? node.id with
    | none =>
        have habsent := List.find?_eq_none.mp hfound node hmem
        simp at habsent
    | some other =>
        have hother : other ∈ table.nodes := List.mem_of_find?_eq_some hfound
        have hid : other.id = node.id := by simpa using List.find?_some hfound
        rw [List.inj_on_of_nodup_map table.nodup hother hmem hid]

theorem get?_of_mem {table : NodeTable} {node : Node} (h : node ∈ table.nodes) :
    table.get? node.id = some node :=
  get?_eq_some_iff.mpr ⟨h, rfl⟩

theorem mem_ids_iff_get? {table : NodeTable} {id : NodeId} :
    id ∈ table.ids ↔ ∃ node, table.get? id = some node := by
  simp [get?_eq_some_iff]

theorem get?_eq_none_iff {table : NodeTable} {id : NodeId} :
    table.get? id = none ↔ id ∉ table.ids := by
  rw [mem_ids_iff_get?, Option.eq_none_iff_forall_ne_some, not_exists]

theorem eq_of_mem_of_id_eq {table : NodeTable} {first second : Node}
    (hfirst : first ∈ table.nodes) (hsecond : second ∈ table.nodes)
    (h : first.id = second.id) : first = second :=
  List.inj_on_of_nodup_map table.nodup hfirst hsecond h

/-- Writing a key replaces the node that had it and keeps all others. -/
theorem mem_insert {table : NodeTable} {node other : Node} :
    other ∈ (table.insert node).nodes ↔
      other = node ∨ other ∈ table.nodes ∧ other.id ≠ node.id := by
  unfold insert
  split_ifs with h
  · obtain ⟨present, hpresent, hid⟩ := mem_ids.mp h
    simp only [overwrite, List.mem_map]
    constructor
    · rintro ⟨old, hold, rfl⟩
      by_cases heq : old.id = node.id
      · exact Or.inl (if_pos heq)
      · exact Or.inr (by simpa [heq] using hold)
    · rintro (rfl | ⟨hmem, hne⟩)
      · exact ⟨present, hpresent, if_pos hid⟩
      · exact ⟨other, hmem, if_neg hne⟩
  · rw [(place_perm node table.nodes).mem_iff, List.mem_cons]
    refine or_congr_right ⟨fun hmem => ⟨hmem, fun hid => h ?_⟩, And.left⟩
    exact mem_ids.mpr ⟨other, hmem, hid⟩

end NodeTable

end Colata.IR
