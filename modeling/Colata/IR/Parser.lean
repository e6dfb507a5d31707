/-
# The IR parser

`parseIR` reads a C2 IR dump line by line. A line that does not have the shape
`id Type === inputs [[ outputs ]] rest` is skipped; any other line becomes a node,
which overwrites an earlier node with the same id.
-/

import Colata.IR.Node
import Colata.Languages.JavaScript.Text

namespace Colata.IR

open Colata.Math Colata.JavaScript

/-! ## The patterns -/

/-- `(\d+)` as group `index`. -/
private def digitsGroup (index : ℕ) : Regex := .group index (.plus (.char isDigit))

/-- `(\w+)` as group `index`. -/
private def wordGroup (index : ℕ) : Regex := .group index (.plus (.char isWord))

/-- `(.*?)` as group `index`. -/
private def lazyGroup (index : ℕ) : Regex := .group index (.star false (.char isAny))

/-- `^(\d+)\s+(\w+)\s+===\s+(.*?)\s*\[\[\s*(.*?)\s*\]\]\s*(.*)?$` -/
def linePattern : Regex :=
  .sequence [.start, digitsGroup 1, .plus (.char isSpace), wordGroup 2, .plus (.char isSpace),
    .literal "===", .plus (.char isSpace), lazyGroup 3, spaces, .literal "[[", spaces,
    lazyGroup 4, spaces, .literal "]]", spaces, .opt (.group 5 (.star true (.char isAny))), .stop]

/-- `^(Control|I_O|Memory|FramePtr|ReturnAdr)` -/
def framePattern : Regex :=
  .sequence [.start, .group 1 (.alt (.literal "Control") (.alt (.literal "I_O")
    (.alt (.literal "Memory") (.alt (.literal "FramePtr") (.literal "ReturnAdr")))))]

/-- `^Parm(\d+):\s*(\w+)` -/
def parmPattern : Regex :=
  .sequence [.start, .literal "Parm", digitsGroup 1, .literal ":", spaces, wordGroup 2]

/-- `(?:\w+:)?` -/
def typePrefix : Regex := .opt (.sequence [.plus (.char isWord), .literal ":"])

/-- `-?[\d.]+` -/
def numberPattern : Regex :=
  .sequence [.opt (.literal "-"), .plus (.char fun c => isDigit c || c = '.')]

/-- `#(?:\w+:)?(-?[\d.]+|top)` -/
def constantPattern : Regex :=
  .sequence [.literal "#", typePrefix, .group 1 (.alt numberPattern (.literal "top"))]

/-- `\(line (\d+)\)` -/
def javaLinePattern : Regex := .sequence [.literal "(line ", digitsGroup 1, .literal ")"]

/-- `!jvms:\s*(\S+)` -/
def methodPattern : Regex :=
  .sequence [.literal "!jvms:", spaces, .group 1 (.plus (.char fun c => !isSpace c))]

/-! ## The pieces of a line -/

/-- What the scan over the input tokens has gathered. -/
structure InputScan where
  inputs : List (Option NodeId)
  returnValIdx : ℤ
  afterReturns : Bool

namespace InputScan

def initial : InputScan := ⟨[], -1, false⟩

/-- One turn of the loop over `inTokens`; a token that is neither `returns`, nor the
placeholder, nor a plain numeral is dropped. -/
def step (scan : InputScan) (token : List Char) : InputScan :=
  if token = "returns".toList then { scan with afterReturns := true }
  else if token = "_".toList then { scan with inputs := scan.inputs ++ [none] }
  else if isNumeral token then
    { scan with
      returnValIdx :=
        if scan.afterReturns ∧ scan.returnValIdx < 0 then scan.inputs.length
        else scan.returnValIdx
      inputs := scan.inputs ++ [some (toNumber token)] }
  else scan

end InputScan

/-- The loop over the input tokens. -/
def scanInputs (tokens : List (List Char)) : InputScan :=
  tokens.foldl InputScan.step .initial

/-- The output ids: the plain numerals of the second list. -/
def parseOutputs (text : List Char) : List NodeId :=
  ((splitSpaces (trim text)).filter isNumeral).map toNumber

/-- The sublabel of a parameter node. -/
def parmSublabel (extra : List Char) : String :=
  match (Regex.matchStart framePattern extra).bind (·.captured 1) with
  | some name => if name = "I_O".toList then "I/O" else String.ofList name
  | none =>
      match Regex.matchStart parmPattern extra with
      | some found =>
          String.ofList ("Parm".toList ++ (found.captured 1).getD [] ++ " (".toList ++
            (found.captured 2).getD [] ++ ")".toList)
      | none => ""

/-- The sublabel of a constant node. -/
def constantSublabel (extra : List Char) : String :=
  match (Regex.search constantPattern extra).bind (·.captured 1) with
  | some value => String.ofList ('#' :: value)
  | none => ""

/-- The sublabel `parseIR` gives to a node of this type. -/
def sublabelOf (type : String) (extra : List Char) : String :=
  if type = "Parm" then parmSublabel extra
  else if startsWith type "Con" then constantSublabel extra
  else ""

/-- The node built from a successful match of the line pattern. -/
def nodeOfMatch (line : List Char) (found : Regex.State) : Node :=
  let type := String.ofList ((found.captured 2).getD [])
  let extra := trim ((found.captured 5).getD [])
  let scan := scanInputs (splitSpaces (trim ((found.captured 3).getD [])))
  { id := toNumber ((found.captured 1).getD [])
    type := type
    inputs := scan.inputs
    outputs := parseOutputs ((found.captured 4).getD [])
    extra := String.ofList extra
    sublabel := sublabelOf type extra
    javaLine := ((Regex.search javaLinePattern extra).bind (·.captured 1)).map toNumber
    method := ((Regex.search methodPattern extra).bind (·.captured 1)).map String.ofList
    returnValIdx := scan.returnValIdx
    line := String.ofList line }

/-- One line of the dump, already trimmed. -/
def parseLine (line : List Char) : Option Node :=
  (Regex.matchStart linePattern line).map (nodeOfMatch line)

/-- One turn of the loop over the lines. -/
def addLine (nodes : NodeTable) (rawLine : List Char) : NodeTable :=
  match parseLine (trim rawLine) with
  | some node => nodes.insert node
  | none => nodes

def parseIR (text : String) : NodeTable :=
  (text.toList.splitOn '\n').foldl addLine .empty

end Colata.IR
