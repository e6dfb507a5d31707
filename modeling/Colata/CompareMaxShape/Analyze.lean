/-
# The shape of max reductions

`compare-max-shape.py` follows the registers of a disassembled loop and shows what each
comparison compares. A register that no instruction wrote counts as the accumulator.
-/

import Colata.Math.Regex
import Colata.Math.Copies
import Colata.Languages.Python.Text

namespace Colata.CompareMaxShape

open Colata.Math Colata.Python

/-! ## Reading the log -/

/-- `^\s*(?:0x[0-9a-f]+):\s+([a-z][a-z0-9]*)\s*(.*?)\s*(?:;.*)?$`, without regard to case. -/
def insn : Regex :=
  .sequence [.start, .star true (.char isSpace), .char (· == '0'),
    .char fun c => c == 'x' || c == 'X', .plus (.char isHexDigitIgnoringCase), .literal ":",
    .plus (.char isSpace),
    .group 1 (.seq (.char isLetter) (.star true (.char fun c => isLetter c || isDigit c))),
    .star true (.char isSpace), .group 2 (.star false (.char (· != '\n'))),
    .star true (.char isSpace), .opt (.seq (.literal ";") (.star true (.char (· != '\n')))), .stop]

/-- `%[a-z]+[0-9]*`, without regard to case. -/
def reg : Regex := .sequence [.literal "%", .plus (.char isLetter), .star true (.char isDigit)]

/-- `(?:(0x[0-9a-f]+)|(-?\d+))?\(%[^)]*\)` -/
def memOff : Regex :=
  .sequence [.opt (.alt (.group 1 (.seq (.literal "0x") (.plus (.char isHexDigit))))
      (.group 2 (.seq (.opt (.literal "-")) (.plus (.char isDecimal))))),
    .literal "(%", .star true (.char (· != ')')), .literal ")"]

/-- An instruction of the log. -/
structure Row where
  lineNo : ℕ
  op : Text
  args : Text
  raw : Text

/-- `parse`, for the text that the file holds. -/
def parse (text : Text) : List Row :=
  ((splitLines text).zipIdx 1).filterMap fun (line, n) =>
    (insn.matchStart line).map fun found =>
      ⟨n, lower ((found.captured 1).getD []), strip ((found.captured 2).getD []), line⟩

def operandRegs (s : Text) : List Text := reg.findAll s

def memName (op : Text) : Text :=
  match memOff.search op with
  | none => "MEM[?]".toList
  | some found =>
      let raw := (found.captured 1).getD ((found.captured 2).getD ['0'])
      match toInt raw with
      | none => "MEM[".toList ++ raw ++ [']']
      | some value => "MEM[".toList ++ signedHex value ++ [']']

/-! ## The analysis -/

structure Comparison where
  line : ℕ
  srcReg : Text
  dstReg : Text
  src : Text
  dst : Text
  expr : Text
  deriving DecidableEq

/-- The variables of `analyze`. -/
structure Analysis where
  state : Text → Option Text
  loaded : List Text
  comparisons : List Comparison

def Analysis.initial : Analysis := ⟨fun _ => none, [], []⟩

/-- The branches of the loop, with the registers they read and write. -/
inductive Branch
  | load (dst : Text)
  | copy (src dst : Text)
  | clear (dst : Text)
  | compare (src dst : Text)
  | skip
  deriving DecidableEq

def Row.branch (row : Row) : Branch :=
  let regs := operandRegs row.args
  let first := regs.getD 0 []
  let second := regs.getD 1 []
  let last := regs.getLastD []
  if row.op = "vmovsd".toList ∧ '(' ∈ row.args ∧ regs ≠ [] then
    .load last
  else if (row.op = "vmovapd".toList ∨ row.op = "vmovsd".toList) ∧ 2 ≤ regs.length ∧
      '(' ∉ row.args then
    .copy first last
  else if ["vpxor".toList, "vxorpd".toList, "vxorps".toList].contains row.op ∧ 3 ≤ regs.length ∧
      first = second ∧ second = regs.getD 2 [] then
    .clear last
  else if row.op = "vucomisd".toList ∧ 2 ≤ regs.length then
    .compare first second
  else .skip

def acc : Text := "ACC".toList

def zeroText : Text := "0.0".toList

def maxText (dv sv : Text) : Text := "max(".toList ++ dv ++ ", ".toList ++ sv ++ [')']

/-- `state.get(register, 'ACC' if register not in loaded else register)`. -/
def Analysis.value (analysis : Analysis) (register : Text) : Text :=
  (analysis.state register).getD (if analysis.loaded.contains register then register else acc)

def Analysis.step (analysis : Analysis) (row : Row) : Analysis :=
  match row.branch with
  | .load dst =>
      { analysis with
        state := Function.update analysis.state dst (some (memName row.args))
        loaded := dst :: analysis.loaded }
  | .copy src dst =>
      { analysis with
        state := Function.update analysis.state dst (some ((analysis.state src).getD src)) }
  | .clear dst =>
      { analysis with state := Function.update analysis.state dst (some zeroText) }
  | .compare src dst =>
      let sv := analysis.value src
      let dv := analysis.value dst
      -- Signed-zero helper compares are excluded.
      if sv = zeroText then analysis
      else
        { analysis with
          comparisons := analysis.comparisons ++ [⟨row.lineNo, src, dst, sv, dv, maxText dv sv⟩]
          state := Function.update analysis.state dst (some (maxText dv sv)) }
  | .skip => analysis

/-- The variables of `analyze` after these instructions. -/
def after (rows : List Row) : Analysis := rows.foldl Analysis.step .initial

def analyze (rows : List Row) : List Comparison := (after rows).comparisons

/-! ## The report -/

def compact (expr : Text) (limit : ℕ) : Text :=
  if expr.length ≤ limit then expr else expr.take (limit - 3) ++ "...".toList

/-- `'ACC' in (c['src'], c['dst'])`. -/
def Comparison.involvesAcc (c : Comparison) : Bool := c.src = acc || c.dst = acc

/-- The number of the first comparison with the accumulator. -/
def firstAcc (comps : List Comparison) : Option ℕ :=
  (comps.findIdx? Comparison.involvesAcc).map (· + 1)

def comparisonLine (i : ℕ) (c : Comparison) : Text :=
  padNumber 2 i ++ ". line ".toList ++ padNumber 4 c.line ++ ": ".toList ++ c.dstReg ++ ['('] ++
    compact c.dst 55 ++ ")  vs  ".toList ++ c.srcReg ++ ['('] ++ compact c.src 55 ++ [')'] ++
    if c.involvesAcc then "  <== loop-carried value involved".toList else []

/-- The lines that `report` prints. -/
def report (path : Text) (rows : List Row) : List Text :=
  let comps := analyze rows
  ["FILE: ".toList ++ path,
    "Primary max comparisons: ".toList ++ Nat.toDigits 10 comps.length] ++
    (comps.zipIdx 1).map (fun numbered => comparisonLine numbered.2 numbered.1) ++
    match comps.getLast? with
    | none => []
    | some last =>
        ["Loop-carried accumulator first participates at comparison: ".toList ++
            ((firstAcc comps).map (Nat.toDigits 10)).getD "not detected".toList,
          "Final inferred expression: ".toList ++ compact last.expr 220]

end Colata.CompareMaxShape
