/-
# Parameters of a dump

`detectParams` lists the parameter nodes of a table by their index. The index and the
type are read from the text of the node, as its value later is.
-/

import Colata.IR.Value

namespace Colata.IR

open Colata.Math Colata.JavaScript

structure Param where
  nodeId : NodeId
  index : Binary64
  type : String
  deriving DecidableEq

/-- The parameter of one node. -/
def paramOf (node : Node) : Option Param :=
  if node.type ≠ "Parm" then none
  else
    (Regex.matchStart parmPattern node.extra.toList).map fun found =>
      { nodeId := node.id
        index := toNumber ((found.captured 1).getD [])
        type := String.ofList ((found.captured 2).getD []) }

/-- `(a, b) => a.index - b.index` puts no parameter behind one that it is less than; NaN
counts as a tie, and ties stay in their order. -/
def detectParams (nodes : NodeTable) : List Param :=
  (nodes.nodes.filterMap paramOf).mergeSort fun first second =>
    !(Binary64.lt 0 (first.index - second.index))

end Colata.IR
