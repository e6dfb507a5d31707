/-
# Root and Start on the exception path

The backward walk takes Root and Start for nodes that both kinds of exits share, and
records them before it stops there. So they are hidden like any other node when no
Return leads back to a node that has them as an input but a Rethrow does: in a method
that only throws, or Root when constants occur on the exception path only.
-/

import Colata.IR.Exceptions

namespace Colata.IR

open Colata.Math Relation

/-- The types at which the backward walk stops. -/
def Node.IsFrame (node : Node) : Prop := node.type = "Root" ∨ node.type = "Start"

instance (node : Node) : Decidable node.IsFrame := inferInstanceAs (Decidable (_ ∨ _))

/-- Some node of this type leads back to a node that the walk does not stop at and that
has `id` as an input. -/
def NodeTable.Feeds (nodes : NodeTable) (id : NodeId) (type : String) : Prop :=
  ∃ user ∈ nodes.nodes, ¬ user.IsFrame ∧ id ∈ user.inputIds ∧ nodes.LeadsBack type user.id

/-- The walk from the exits of a type comes to a frame node by an input of a node before it. -/
theorem leadsBack_iff_feeds {nodes : NodeTable} {frame : Node} (hframe : frame ∈ nodes.nodes)
    {type : String} (htype : frame.type ≠ type) :
    nodes.LeadsBack type frame.id ↔ nodes.Feeds frame.id type := by
  constructor
  · intro hleads
    obtain ⟨exit, hexit, hexitType, hpath⟩ := hleads
    rcases ReflTransGen.cases_tail hpath with heq | ⟨before, hbefore, hfollows⟩
    · obtain rfl := NodeTable.eq_of_mem_of_id_eq hframe hexit heq
      exact absurd hexitType htype
    · obtain ⟨user, huser, rfl, hroot, hstart, hin, _⟩ := hfollows
      exact ⟨user, huser, not_or.mpr ⟨hroot, hstart⟩, hin, exit, hexit, hexitType, hbefore⟩
  · intro hfeeds
    obtain ⟨user, huser, hnot, hin, exit, hexit, hexitType, hpath⟩ := hfeeds
    obtain ⟨hroot, hstart⟩ := not_or.mp hnot
    have hstep : nodes.Follows user.id frame.id :=
      ⟨user, huser, rfl, hroot, hstart, hin, NodeTable.mem_ids.mpr ⟨frame, hframe, rfl⟩⟩
    exact ⟨exit, hexit, hexitType, hpath.tail hstep⟩

theorem exceptionOnly_frame_iff {nodes : NodeTable} {frame : Node} (hframe : frame ∈ nodes.nodes)
    (h : frame.IsFrame) :
    nodes.ExceptionOnly frame.id ↔
      nodes.Feeds frame.id "Rethrow" ∧ ¬ nodes.Feeds frame.id "Return" := by
  have hrethrow : frame.type ≠ "Rethrow" := by
    intro htype
    rw [Node.IsFrame, htype] at h
    exact absurd h (by decide)
  have hreturn : frame.type ≠ "Return" := by
    intro htype
    rw [Node.IsFrame, htype] at h
    exact absurd h (by decide)
  rw [NodeTable.ExceptionOnly, leadsBack_iff_feeds hframe hrethrow,
    leadsBack_iff_feeds hframe hreturn]

/-- Root and Start are never hidden exactly when each of them that is an input on the
exception path is an input on the happy path as well. -/
theorem frames_shown_iff (text : String) :
    (∀ node ∈ (parseIR text).nodes, node.IsFrame →
      node.id ∉ classifyExceptionNodes (parseIR text) (buildEdges (parseIR text))) ↔
      ∀ node ∈ (parseIR text).nodes, node.IsFrame →
        (parseIR text).Feeds node.id "Rethrow" → (parseIR text).Feeds node.id "Return" := by
  refine forall_congr' fun node => forall_congr' fun hnode => forall_congr' fun hframe => ?_
  rw [mem_classifyExceptionNodes_iff, exceptionOnly_frame_iff hnode hframe, not_and, not_not]

/-- The dump of a method that only throws. -/
def throwDump : String :=
  "0 Root === 0 3 [[ 0 1 ]]\n1 Start === 1 0 [[ 1 2 ]]\n2 Parm === 1 [[ 3 ]] Control\n" ++
    "3 Rethrow === 2 [[ 0 ]]"

/-- Start is hidden. -/
theorem not_forall_frames_shown :
    ¬ ∀ text, ∀ node ∈ (parseIR text).nodes, node.IsFrame →
      node.id ∉ classifyExceptionNodes (parseIR text) (buildEdges (parseIR text)) := by
  intro hclaim
  have hhidden : ∃ node ∈ (parseIR throwDump).nodes, node.IsFrame ∧
      node.id ∈ classifyExceptionNodes (parseIR throwDump) (buildEdges (parseIR throwDump)) := by
    decide +kernel
  obtain ⟨node, hnode, hframe, hmem⟩ := hhidden
  exact hclaim throwDump node hnode hframe hmem

end Colata.IR
