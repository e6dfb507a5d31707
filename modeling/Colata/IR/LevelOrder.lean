/-
# What the execution levels order

An edge that is not structural leads to a later level unless it starts downstream
of a cycle. Two consequences follow. Nodes that merely come after a loop share one
level with the loop and with everything below it. And marking Root's edges to Start
and to constants as structural breaks the cycle through Root only if nothing else
that hangs off Root leads back to it.
-/

import Colata.IR.Levels

namespace Colata.IR

open Colata.Math Relation

/-! ## After a loop -/

/-- An edge leads to a later level exactly when its source is neither on a loop nor
downstream of one, whether or not there is a way back from its target. -/
theorem earlier_iff_not_belowCycle {nodes : NodeTable} {fromId toId : NodeId}
    (hedge : nodes.DataEdge fromId toId) :
    Earlier (topoLevels nodes (buildEdges nodes)) fromId toId ↔
      ¬ BelowCycle nodes.DataEdge fromId :=
  (earlier_iff_acc hedge).trans (acc_iff_not_belowCycle (finite_sources nodes) fromId)

/-- A parameter `5` enters the loop `1 ⇄ 2`, which feeds a comparison `3`, which
feeds `4`. -/
def loopTable : NodeTable :=
  ⟨[plainNode 1 "Phi" [some 5, some 2], plainNode 2 "AddI" [none, some 1],
    plainNode 3 "CmpI" [none, some 2], plainNode 4 "Bool" [none, some 3],
    plainNode 5 "Parm" []], by decide +kernel⟩

/-- The edge into the loop is in order, since nothing leads back to its source. -/
theorem earlier_iff_not_belowCycle_loopTable :
    loopTable.DataEdge 5 1 ∧
      (Earlier (topoLevels loopTable (buildEdges loopTable)) 5 1 ↔
        ¬ BelowCycle loopTable.DataEdge 5) := by
  have hedge : loopTable.DataEdge 5 1 := by decide +kernel
  exact ⟨hedge, earlier_iff_not_belowCycle hedge⟩

theorem belowCycle_loopTable : BelowCycle loopTable.DataEdge 3 := by
  have hfirst : loopTable.DataEdge 1 2 := by decide +kernel
  have hsecond : loopTable.DataEdge 2 1 := by decide +kernel
  have hexit : loopTable.DataEdge 2 3 := by decide +kernel
  exact ⟨2, (TransGen.single hsecond).tail hfirst, ReflTransGen.single hexit⟩

/-- The comparison that merely follows the loop shares its consumer's level. -/
theorem not_forall_earlier_without_way_back :
    ¬ ∀ (nodes : NodeTable) (fromId toId : NodeId), nodes.DataEdge fromId toId →
        ¬ ReflTransGen nodes.DataEdge toId fromId →
        Earlier (topoLevels nodes (buildEdges nodes)) fromId toId := by
  intro hclaim
  have hedge : loopTable.DataEdge 3 4 := by decide +kernel
  have hdead : ∀ toId ∈ loopTable.ids, ¬ loopTable.DataEdge 4 toId := by decide +kernel
  have hback : ¬ ReflTransGen loopTable.DataEdge 4 3 := by
    intro hpath
    rcases ReflTransGen.cases_head hpath with heq | ⟨next, hnext, _⟩
    · exact absurd heq (by decide +kernel)
    · exact hdead next hnext.1.mem_ids.2 hnext
  have hacc := (earlier_iff_acc hedge).mp (hclaim loopTable 3 4 hedge hback)
  exact (acc_iff_not_belowCycle (finite_sources loopTable) 3).mp hacc belowCycle_loopTable

/-! ## The level of a node -/

theorem mem_kahn_iff_not_belowCycle {nodes : NodeTable} {id : NodeId} (hid : id ∈ nodes.ids) :
    id ∈ (kahn nodes (buildEdges nodes)).levels.flatten ↔ ¬ BelowCycle nodes.DataEdge id :=
  ((kahn_levelling nodes).mem_iff_acc source_mem_of_dataEdge hid).trans
    (acc_iff_not_belowCycle (finite_sources nodes) id)

theorem mem_ids_of_belowCycle {nodes : NodeTable} {id : NodeId}
    (h : BelowCycle nodes.DataEdge id) : id ∈ nodes.ids := by
  obtain ⟨start, hcycle, hpath⟩ := h
  have hwalk := hcycle.trans_left hpath
  obtain ⟨_, _, hedge⟩ := TransGen.tail'_iff.mp hwalk
  exact hedge.1.mem_ids.2

/-- The loop finishes, every node has one place, a node that no loop leads to stands in
the level whose index is the length of the longest walk of data edges to it, and the
other nodes, if there are any, form a level of their own at the end. -/
theorem topoLevels_eq_longest_walks (nodes : NodeTable) :
    (kahn nodes (buildEdges nodes)).queue = [] ∧
    (topoLevels nodes (buildEdges nodes)).flatten.Perm nodes.ids ∧
    (∀ id ∈ nodes.ids, ¬ BelowCycle nodes.DataEdge id →
      ∃ index, AtLevel (topoLevels nodes (buildEdges nodes)) index id ∧
        IsGreatest {length | WalkTo nodes.DataEdge length id} index) ∧
    ((∃ id, BelowCycle nodes.DataEdge id) →
      ∃ levels last, topoLevels nodes (buildEdges nodes) = levels ++ [last] ∧
        (∀ id, id ∈ levels.flatten ↔ id ∈ nodes.ids ∧ ¬ BelowCycle nodes.DataEdge id) ∧
        ∀ id, id ∈ last ↔ BelowCycle nodes.DataEdge id) := by
  have hlevelling := kahn_levelling nodes
  obtain ⟨last, hlength, heq, hlast⟩ := topoLevels_eq_append nodes
  refine ⟨kahn_queue_eq_nil nodes, topoLevels_perm nodes, ?_, ?_⟩
  · intro id hid hnot
    obtain ⟨index, hindex⟩ :=
      mem_flatten_iff_atLevel.mp ((mem_kahn_iff_not_belowCycle hid).mpr hnot)
    rw [heq]
    exact ⟨index, (atLevel_append_left hindex.lt_length).mpr hindex,
      hlevelling.isGreatest_walkTo (kahn_prompt nodes) hindex⟩
  · rintro ⟨below, hbelow⟩
    have hmem : ∀ id, id ∈ last.flatten ↔ BelowCycle nodes.DataEdge id := by
      intro id
      rw [hlast, List.mem_filter, decide_eq_true_eq]
      constructor
      · rintro ⟨hid, hnot⟩
        by_contra hfree
        exact hnot ((mem_kahn_iff_not_belowCycle hid).mpr hfree)
      · intro hcycle
        have hid := mem_ids_of_belowCycle hcycle
        exact ⟨hid, fun hin => (mem_kahn_iff_not_belowCycle hid).mp hin hcycle⟩
    cases last with
    | nil => simpa using (hmem below).mpr hbelow
    | cons level rest =>
        obtain rfl : rest = [] := by simpa using hlength
        refine ⟨(kahn nodes (buildEdges nodes)).levels, level, heq, ?_, by simpa using hmem⟩
        intro id
        constructor
        · intro hin
          have hid := hlevelling.subset id hin
          exact ⟨hid, (mem_kahn_iff_not_belowCycle hid).mp hin⟩
        · rintro ⟨hid, hfree⟩
          exact (mem_kahn_iff_not_belowCycle hid).mpr hfree

/-- When the levels are listed one after the other, the source of an edge comes before the
target if no loop leads to it, and otherwise if it is enumerated first. -/
theorem mem_takeWhile_topoLevels_iff {nodes : NodeTable} {fromId toId : NodeId}
    (hedge : nodes.DataEdge fromId toId) :
    fromId ∈ (topoLevels nodes (buildEdges nodes)).flatten.takeWhile (· ≠ toId) ↔
      ¬ BelowCycle nodes.DataEdge fromId ∨ fromId ∈ nodes.ids.takeWhile (· ≠ toId) := by
  have hnodup : (topoLevels nodes (buildEdges nodes)).flatten.Nodup :=
    (topoLevels_perm nodes).nodup_iff.mpr nodes.nodup_ids
  by_cases hbelow : BelowCycle nodes.DataEdge fromId
  · obtain ⟨start, hcycle, hpath⟩ := id hbelow
    have hbelow' : BelowCycle nodes.DataEdge toId := ⟨start, hcycle, hpath.tail hedge⟩
    have houtside : ∀ id, BelowCycle nodes.DataEdge id →
        id ∉ (kahn nodes (buildEdges nodes)).levels.flatten := fun id hid hmem =>
      (mem_kahn_iff_not_belowCycle (mem_ids_of_belowCycle hid)).mp hmem hid
    -- Both ends stand in the last level, in the order of the enumeration.
    obtain ⟨last, _, heq, hlast⟩ := topoLevels_eq_append nodes
    have hfront : ∀ id ∈ (kahn nodes (buildEdges nodes)).levels.flatten,
        decide (id ≠ toId) = true := by
      intro id hid
      exact decide_eq_true fun heq => houtside toId hbelow' (heq ▸ hid)
    have hkeep : (fun id => !decide (id ∉ (kahn nodes (buildEdges nodes)).levels.flatten) ||
        decide (id ≠ toId)) = fun id => decide (id ≠ toId) := by
      funext id
      by_cases hid : id = toId
      · simp [hid, houtside toId hbelow']
      · simp [hid]
    rw [heq, List.flatten_append, List.takeWhile_append_of_pos hfront, hlast,
      List.takeWhile_filter, hkeep, List.mem_append, List.mem_filter]
    simp [houtside fromId hbelow, hbelow]
  · simp only [hbelow, not_false_eq_true, true_or, iff_true]
    exact ((earlier_iff_acc hedge).mpr
      ((acc_iff_not_belowCycle (finite_sources nodes) fromId).mpr hbelow)).mem_takeWhile hnodup

/-! ## Through Root -/

/-- The node with this id is a Root node. -/
def NodeTable.IsRoot (nodes : NodeTable) (id : NodeId) : Prop :=
  ∃ node ∈ nodes.nodes, node.id = id ∧ node.type = "Root"

instance (nodes : NodeTable) (id : NodeId) : Decidable (nodes.IsRoot id) :=
  inferInstanceAs (Decidable (∃ node ∈ nodes.nodes, _))

/-- The table has no cycle once the edges out of Root nodes are removed. -/
def NodeTable.AcyclicWithoutRoot (nodes : NodeTable) : Prop :=
  Acyclic fun fromId toId => nodes.HasEdge fromId toId ∧ ¬ nodes.IsRoot fromId

/-- If every cycle passes through Root, then a node lies downstream of a cycle of data
edges only if it lies downstream of a Root that is on such a cycle. -/
theorem belowCycle_iff_below_root {nodes : NodeTable} (hroot : nodes.AcyclicWithoutRoot)
    (id : NodeId) :
    BelowCycle nodes.DataEdge id ↔
      ∃ root, nodes.IsRoot root ∧ TransGen nodes.DataEdge root root ∧
        ReflTransGen nodes.DataEdge root id := by
  constructor
  · rintro ⟨start, hcycle, hpath⟩
    rcases transGen_avoids_or_passes nodes.IsRoot hcycle with
      hclean | ⟨root, hisRoot, hto, hfrom⟩
    · have hle : (fun fromId toId => nodes.DataEdge fromId toId ∧ ¬ nodes.IsRoot fromId) ≤
          fun fromId toId => nodes.HasEdge fromId toId ∧ ¬ nodes.IsRoot fromId :=
        fun _ _ h => ⟨h.1.1, h.2⟩
      exact absurd (TransGen.mono hle start start hclean) (hroot start)
    · exact ⟨root, hisRoot, hfrom.trans_left hto, hfrom.to_reflTransGen.trans hpath⟩
  · rintro ⟨root, _, hcycle, hpath⟩
    exact ⟨root, hcycle, hpath⟩

/-- With every cycle passing through Root, the levels put all edges out of other nodes
in order exactly when no Root that lies on a cycle of data edges reaches one of them. -/
theorem earlier_off_root_iff {nodes : NodeTable} (hroot : nodes.AcyclicWithoutRoot) :
    (∀ fromId toId, nodes.DataEdge fromId toId → ¬ nodes.IsRoot fromId →
        Earlier (topoLevels nodes (buildEdges nodes)) fromId toId) ↔
      ∀ root, nodes.IsRoot root → TransGen nodes.DataEdge root root →
        ∀ fromId toId, ReflTransGen nodes.DataEdge root fromId →
          nodes.DataEdge fromId toId → nodes.IsRoot fromId := by
  have hbelow := belowCycle_iff_below_root hroot
  constructor
  · intro hearlier root hisRoot hcycle fromId toId hpath hedge
    by_contra hnot
    have hacc := (earlier_iff_acc hedge).mp (hearlier fromId toId hedge hnot)
    exact (acc_iff_not_belowCycle (finite_sources nodes) fromId).mp hacc
      ((hbelow fromId).mpr ⟨root, hisRoot, hcycle, hpath⟩)
  · intro honly fromId toId hedge hnot
    rw [earlier_iff_acc hedge, acc_iff_not_belowCycle (finite_sources nodes), hbelow]
    rintro ⟨root, hisRoot, hcycle, hpath⟩
    exact hnot (honly root hisRoot hcycle fromId toId hpath hedge)

/-- A list of ids that every edge out of a node other than Root climbs. -/
private theorem acyclicWithoutRoot_of_order {nodes : NodeTable} (order : List NodeId)
    (horder : ∀ fromId ∈ nodes.ids, ∀ toId ∈ nodes.ids, nodes.HasEdge fromId toId →
      ¬ nodes.IsRoot fromId → order.idxOf fromId < order.idxOf toId) :
    nodes.AcyclicWithoutRoot := by
  refine acyclic_of_rank (fun id => order.idxOf id) ?_
  rintro fromId toId ⟨hedge, hnot⟩
  exact horder fromId hedge.mem_ids.1 toId hedge.mem_ids.2 hedge hnot

/-- A table in which Root feeds a constant whose value is returned. -/
def constantTable : NodeTable :=
  ⟨[plainNode 0 "Root" [some 0, some 2], plainNode 1 "ConI" [some 0],
    plainNode 2 "Return" [some 1]], by decide +kernel⟩

theorem earlier_off_root_iff_constantTable :
    constantTable.AcyclicWithoutRoot ∧
      ((∀ fromId toId, constantTable.DataEdge fromId toId → ¬ constantTable.IsRoot fromId →
          Earlier (topoLevels constantTable (buildEdges constantTable)) fromId toId) ↔
        ∀ root, constantTable.IsRoot root → TransGen constantTable.DataEdge root root →
          ∀ fromId toId, ReflTransGen constantTable.DataEdge root fromId →
            constantTable.DataEdge fromId toId → constantTable.IsRoot fromId) := by
  have hroot : constantTable.AcyclicWithoutRoot :=
    acyclicWithoutRoot_of_order [1, 2, 0] (by decide +kernel)
  exact ⟨hroot, earlier_off_root_iff hroot⟩

/-- Besides constants, Root also feeds `ThreadLocal` nodes. -/
def threadLocalTable : NodeTable :=
  ⟨[plainNode 0 "Root" [some 0, some 2], plainNode 1 "ThreadLocal" [some 0],
    plainNode 2 "Return" [some 1]], by decide +kernel⟩

/-- The cycle through Root that a `ThreadLocal` node closes is not broken. -/
theorem not_forall_earlier_off_root :
    ¬ ∀ nodes : NodeTable, nodes.AcyclicWithoutRoot →
        ∀ fromId toId, nodes.DataEdge fromId toId → ¬ nodes.IsRoot fromId →
          Earlier (topoLevels nodes (buildEdges nodes)) fromId toId := by
  intro hclaim
  have hroot : threadLocalTable.AcyclicWithoutRoot :=
    acyclicWithoutRoot_of_order [1, 2, 0] (by decide +kernel)
  have hfeeds : threadLocalTable.DataEdge 0 1 := by decide +kernel
  have hreturns : threadLocalTable.DataEdge 1 2 := by decide +kernel
  have hcloses : threadLocalTable.DataEdge 2 0 := by decide +kernel
  have hcycle : TransGen threadLocalTable.DataEdge 1 1 :=
    ((TransGen.single hreturns).tail hcloses).tail hfeeds
  have hacc := (earlier_iff_acc hreturns).mp
    (hclaim threadLocalTable hroot 1 2 hreturns (by decide +kernel))
  exact not_transGen_self_of_acc hacc hcycle

end Colata.IR
