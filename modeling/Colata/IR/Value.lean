/-
# Values of nodes

`computeValue` gives the value of a node from the values on its input slots, which
is a number or a text; a node that it cannot evaluate has none. `Start`, `Root`,
parameters and constants are decided before the inputs are looked at, and these
are all the types that a structural edge can lead to.
-/

import Colata.IR.Edges
import Colata.IR.Parser
import Colata.Languages.JavaScript.Number

namespace Colata.IR

open Colata.Math Colata.JavaScript

inductive Value
  | num (x : Binary64)
  | str (text : String)
  deriving DecidableEq

/-- The text a template literal inserts. -/
def Value.text : Value → String
  | .num x => numberToString x
  | .str text => text

/-- The parameter assignment, an object keyed by parameter index. -/
abbrev ParamValues := Binary64 → Option Value

/-- `text || fallback`. -/
def orElseText (text fallback : String) : String := if text = "" then fallback else text

/-- `^Parm(\d+)` -/
def parmIndexPattern : Regex :=
  .sequence [.start, .literal "Parm", .group 1 (.plus (.char isDigit))]

/-- `#(?:\w+:)?(-?[\d.]+)` -/
def constantNumberPattern : Regex :=
  .sequence [.literal "#", typePrefix, .group 1 numberPattern]

/-- The value of a parameter node. -/
def parmValue (node : Node) (paramValues : ParamValues) : Value :=
  match (Regex.matchStart parmIndexPattern node.extra.toList).bind (·.captured 1) with
  | some digits => (paramValues (toNumber digits)).getD (.str "?")
  | none =>
      if startsWith node.extra "Control" then .str "ctrl"
      else if startsWith node.extra "I_O" then .str "io"
      else if startsWith node.extra "Memory" then .str "mem"
      else if startsWith node.extra "FramePtr" then .str "fp"
      else if startsWith node.extra "ReturnAdr" then .str "ra"
      else .str (orElseText node.sublabel "?")

/-- The value of a constant node, read from the dump text. -/
def constantValue (node : Node) : Value :=
  match (Regex.search constantNumberPattern node.extra.toList).bind (·.captured 1) with
  | some digits => .num (toNumber digits)
  | none => .str (orElseText node.sublabel "#?")

/-- `values[index]`, where `undefined` is `none`. -/
def valueAt (values : List (Option Value)) (index : ℤ) : Option Value :=
  if index < 0 then none else values[index.toNat]?.join

/-- The text of a `Return` node: the slot after `returns`, else the last numeric input. -/
def returnText (node : Node) (dataInputValues : List (Option Value)) : Value :=
  let ri := if 0 ≤ node.returnValIdx then node.returnValIdx else (node.inputIds.length : ℤ) - 1
  match valueAt dataInputValues ri with
  | some rv => .str ("ret " ++ rv.text)
  | none => .str "ret ?"

theorem returnText_eq_str (node : Node) (dataInputValues : List (Option Value)) :
    ∃ text, returnText node dataInputValues = .str text := by
  unfold returnText
  dsimp only
  split
  · exact ⟨_, rfl⟩
  · exact ⟨_, rfl⟩

/-- The inputs of type `number`. -/
def numbers (dataInputValues : List (Option Value)) : List Binary64 :=
  dataInputValues.filterMap fun
    | some (.num x) => some x
    | _ => none

/-- The `switch` over the binary operators. -/
def binaryValue (t : String) (x y : Binary64) : Option Value :=
  match t with
  | "AddI" | "AddL" => some (.num (x + y))
  | "SubI" | "SubL" => some (.num (x - y))
  | "MulI" | "MulL" => some (.num (x * y))
  | "DivI" | "DivL" => some (if y.isTruthy then .num (x / y).trunc else .str "÷0")
  | "ModI" | "ModL" => some (if y.isTruthy then .num (x % y) else .str "%0")
  | "LShiftI" | "LShiftL" => some (.num (shiftLeft x y))
  | "RShiftI" | "RShiftL" => some (.num (shiftRight x y))
  | "URShiftI" | "URShiftL" => some (.num (unsignedShiftRight x y))
  | "AndI" | "AndL" => some (.num (bitAnd x y))
  | "OrI" | "OrL" => some (.num (bitOr x y))
  | "XorI" | "XorL" => some (.num (bitXor x y))
  | _ => none

/-- The outcome of a comparison; NaN compares as equal. -/
def compareText (x y : Binary64) : Value :=
  let d := x - y
  .str (if d.lt 0 then "<" else if Binary64.lt 0 d then ">" else "=")

/-- The `switch` over the unary operators. -/
def unaryValue (t : String) (x : Binary64) : Option Value :=
  match t with
  | "NegI" | "NegL" => some (.num (-x))
  | "AbsI" | "AbsL" => some (.num x.abs)
  | "ConvI2L" | "ConvL2I" | "CastII" | "CastLL" => some (.num x)
  | _ => none

/-- The branches that look at the numeric inputs, tried in the order of the source. -/
def numericValue (t : String) (nums : List Binary64) : Option Value :=
  match nums with
  | [] => none
  | [x] =>
      (unaryValue t x).or
        (if t = "Proj" || t = "Phi" || startsWith t "CheckCast" then some (.num x) else none)
  | x :: y :: _ =>
      ((binaryValue t x y).or (if startsWith t "Cmp" then some (compareText x y) else none)).or
        (unaryValue t x)

/-- The value of a node; `null` and `undefined` are `none`. -/
def computeValue (node : Node) (dataInputValues : List (Option Value))
    (paramValues : ParamValues) : Option Value :=
  let t := node.type
  if t = "Start" then some (.str "{...}")
  else if t = "Root" then some (.str "done")
  else if t = "Parm" then some (parmValue node paramValues)
  else if startsWith t "Con" then some (constantValue node)
  else if t = "Return" then some (returnText node dataInputValues)
  else numericValue t (numbers dataInputValues)

/-! ## Which nodes look at their inputs -/

/-- The types `computeValue` decides without looking at the inputs. -/
def ignoresInputs (t : String) : Bool :=
  t = "Start" || t = "Root" || t = "Parm" || startsWith t "Con"

theorem computeValue_of_ignoresInputs {node : Node} (h : ignoresInputs node.type = true)
    (first second : List (Option Value)) (paramValues : ParamValues) :
    computeValue node first paramValues = computeValue node second paramValues := by
  simp only [ignoresInputs, Bool.or_eq_true, decide_eq_true_eq] at h
  unfold computeValue
  rcases h with ((hstart | hroot) | hparm) | hcon
  · simp [hstart]
  · simp [hroot]
  · simp [hparm]
  · simp [hcon]

/-- Structural edges lead to nodes that do not look at their inputs. -/
theorem ignoresInputs_of_structuralTypes {ft tt : String} (h : structuralTypes ft tt = true) :
    ignoresInputs tt = true := by
  unfold structuralTypes at h
  split_ifs at h with hstart hroot hcon
  · simp only [Bool.and_eq_true, decide_eq_true_eq] at hstart
    simp [ignoresInputs, hstart.2]
  · simp only [Bool.and_eq_true, decide_eq_true_eq] at hroot
    simp [ignoresInputs, hroot.2]
  · simp only [Bool.and_eq_true, decide_eq_true_eq] at hcon
    simp [ignoresInputs, hcon.2]

/-- The graph of what the evaluation reads: `source` is an input of a node that looks at
its inputs. -/
def NodeTable.Reads (nodes : NodeTable) (source target : NodeId) : Prop :=
  ∃ node ∈ nodes.nodes, node.id = target ∧ ignoresInputs node.type = false ∧
    source ∈ node.inputIds

/-- What the evaluation reads from another present node comes along a data edge. -/
theorem NodeTable.Reads.dataEdge {nodes : NodeTable} {source target : NodeId}
    (h : nodes.Reads source target) (hne : source ≠ target) (hsource : source ∈ nodes.ids) :
    nodes.DataEdge source target := by
  obtain ⟨node, hnode, rfl, hlooks, hin⟩ := h
  have hhas : nodes.HasEdge source node.id := ⟨hne, hsource, node, hnode, rfl, hin⟩
  obtain ⟨other, hother⟩ := NodeTable.mem_ids_iff_get?.mp hsource
  have htypes : structuralTypes other.type node.type = false := by
    by_contra htrue
    have hignores := ignoresInputs_of_structuralTypes (Bool.eq_true_of_not_eq_false htrue)
    rw [hlooks] at hignores
    cases hignores
  have hstructural : isStructural source node.id nodes = false := by
    simp only [isStructural, hne, hother, NodeTable.get?_of_mem hnode, htypes, ↓reduceIte]
  exact ⟨hhas, hstructural⟩

end Colata.IR
