/-
# The printed comparison

`writeOut` measures its columns in one pass over the results and prints the cells in
another. All cells fit but those of the errors: a column is measured with the text that
an error would have as a score, and a cell shows one unit of the last decimal at least,
which takes more characters where the error is smaller than half of it.

A line is what is printed up to a `println`, and its length counts UTF-16 code units.
-/

import Colata.BenchmarkCompare.ScoreFormatter

namespace Colata.BenchmarkCompare

open Colata.Java Colata.Math ScoreFormatter

/-- `bp.paramsKeys()` -/
def BenchmarkParams.paramsKeys (bp : BenchmarkParams) : List String := bp.params.params.keys

/-- `bp.param(key)` -/
def BenchmarkParams.param (bp : BenchmarkParams) (key : String) : Option String :=
  bp.params.params[key]?.map Value.value

/-- A `RunResult` with its `Result`, whose scores and errors are exact. -/
structure PrintedResult where
  params : BenchmarkParams
  sampleCount : ℤ
  baseScore : Score
  baseScoreError : Score
  patchScore : Score
  patchScoreError : Score
  diff : ℤ
  scoreUnit : Option String

structure Labels where
  base : String
  patch : String

def columnPad : ℕ := 2

def formatDiff (diff : ℤ) : Units :=
  (if 0 < diff then utf16 "+" ++ decimal diff else decimal diff) ++ utf16 "%"

/-! ## The parameter columns -/

/-- `"(" + k + ")"` -/
def paramHeader (k : String) : Units := utf16 "(" ++ utf16 k ++ utf16 ")"

/-- `SortedSet<String> params` and `Map<String, Integer> paramLengths`. -/
structure ParamScan where
  params : Std.ExtTreeSet String Java.compareTo
  paramLengths : HashMap String ℕ

/-- The length that is stored for a parameter, or the one it starts with. -/
def ParamScan.len (scan : ParamScan) (k : String) : ℕ :=
  (scan.paramLengths.lookup k).getD ((paramHeader k).length + columnPad)

/-- One turn of the loop over the parameters of a result. -/
def ParamScan.add (scan : ParamScan) (entry : BenchmarkParams × String) : ParamScan :=
  let value := utf16 ((entry.1.param entry.2).getD "")
  { params := scan.params.insert entry.2
    paramLengths :=
      scan.paramLengths.insert entry.2 (max (scan.len entry.2) (value.length + columnPad)) }

def scanParams (runResults : List PrintedResult) : ParamScan :=
  runResults.foldl (fun scan runResult =>
    (runResult.params.paramsKeys.map (runResult.params, ·)).foldl ParamScan.add scan) ⟨∅, ∅⟩

/-! ## The other columns -/

structure Lengths where
  modeLen : ℕ
  samplesLen : ℕ
  baseScoreLen : ℕ
  baseScoreErrLen : ℕ
  patchScoreLen : ℕ
  patchScoreErrLen : ℕ
  unitLen : ℕ
  diffLen : ℕ

namespace Lengths

/-- The lengths of the headers. -/
def start (labels : Labels) : Lengths :=
  { modeLen := (utf16 "Mode").length
    samplesLen := (utf16 "Cnt").length
    baseScoreLen := (utf16 labels.base).length
    baseScoreErrLen := (utf16 "Error").length
    patchScoreLen := (utf16 labels.patch).length
    patchScoreErrLen := (utf16 "Error").length
    unitLen := (utf16 "Units").length
    diffLen := (utf16 "Diff").length }

/-- The lengths with those of one more result. -/
def raise (precision : ℕ) (lengths : Lengths) (res : PrintedResult) (scoreUnit : String) :
    Lengths :=
  { modeLen := max lengths.modeLen (utf16 res.params.mode.shortLabel).length
    samplesLen := max lengths.samplesLen (decimal res.sampleCount).length
    baseScoreLen := max lengths.baseScoreLen (format precision res.baseScore).length
    baseScoreErrLen := max lengths.baseScoreErrLen (format precision res.baseScoreError).length
    patchScoreLen := max lengths.patchScoreLen (format precision res.patchScore).length
    patchScoreErrLen := max lengths.patchScoreErrLen (format precision res.patchScoreError).length
    unitLen := max lengths.unitLen (utf16 scoreUnit).length
    diffLen := max lengths.diffLen (formatDiff res.diff).length }

/-- One turn of the loop over the results. -/
def measure (precision : ℕ) (lengths : Lengths) (res : PrintedResult) : Except Failure Lengths :=
  res.scoreUnit.elim (.error .nullPointer) fun scoreUnit =>
    .ok (lengths.raise precision res scoreUnit)

/-- The error columns leave one character of their padding to the separator. -/
def pad (lengths : Lengths) : Lengths :=
  { modeLen := lengths.modeLen + columnPad
    samplesLen := lengths.samplesLen + columnPad
    baseScoreLen := lengths.baseScoreLen + columnPad
    baseScoreErrLen := lengths.baseScoreErrLen + (columnPad - 1)
    patchScoreLen := lengths.patchScoreLen + columnPad
    patchScoreErrLen := lengths.patchScoreErrLen + (columnPad - 1)
    unitLen := lengths.unitLen + columnPad
    diffLen := lengths.diffLen + columnPad }

end Lengths

/-! ## The lines -/

/-- What the first pass leaves to the second. -/
structure Layout where
  benchPrefixes : HashMap Units Units
  nameLen : ℕ
  paramScan : ParamScan
  lengths : Lengths

def Layout.params (layout : Layout) : List String := layout.paramScan.params.toList

section Lines

variable (precision : ℕ) (withError : Bool)

/-- The header of an error column. -/
def errorHeader (width : ℕ) : List (Cell ℕ) :=
  if withError then [print (utf16 "  "), field width (utf16 "Error")] else []

def header (labels : Labels) (layout : Layout) : List (Cell ℕ) :=
  let lengths := layout.lengths
  leftField layout.nameLen (utf16 "Benchmark") ::
    (layout.params.map fun k => field (layout.paramScan.len k) (paramHeader k)) ++
    [field lengths.modeLen (utf16 "Mode"), field lengths.samplesLen (utf16 "Cnt"),
      field lengths.baseScoreLen (utf16 labels.base)] ++
    errorHeader withError lengths.baseScoreErrLen ++
    [field lengths.patchScoreLen (utf16 labels.patch)] ++
    errorHeader withError lengths.patchScoreErrLen ++
    [field lengths.unitLen (utf16 "Units"), field lengths.diffLen (utf16 "Diff")]

/-- The cell of an error, which is blank for an approximate score. -/
def errorCells (width : ℕ) (score error : Score) : List (Cell ℕ) :=
  if withError then
    if error ≠ none ∧ isApproximate precision score = false then
      [print (utf16 " \u00B1"), formatError precision width error]
    else [print (utf16 "  "), field width []]
  else []

/-- The sample count, which is blank for a single sample. -/
def samplesText (sampleCount : ℤ) : Units := if 1 < sampleCount then decimal sampleCount else []

/-- `printf` prints `null` for a missing text. -/
def rowName (layout : Layout) (pRes : PrintedResult) : Units :=
  ((pRes.params.benchmark.map utf16).bind layout.benchPrefixes.lookup).getD (utf16 "null")

def row (layout : Layout) (pRes : PrintedResult) : List (Cell ℕ) :=
  let lengths := layout.lengths
  leftField layout.nameLen (rowName layout pRes) ::
    (layout.params.map fun k =>
      field (layout.paramScan.len k) (utf16 ((pRes.params.param k).getD "N/A"))) ++
    [field lengths.modeLen (utf16 pRes.params.mode.shortLabel),
      field lengths.samplesLen (samplesText pRes.sampleCount),
      formatField precision lengths.baseScoreLen pRes.baseScore] ++
    errorCells precision withError lengths.baseScoreErrLen pRes.baseScore pRes.baseScoreError ++
    [formatField precision lengths.patchScoreLen pRes.patchScore] ++
    errorCells precision withError lengths.patchScoreErrLen pRes.patchScore pRes.patchScoreError ++
    [field lengths.unitLen (utf16 (pRes.scoreUnit.getD "null")),
      field lengths.diffLen (formatDiff pRes.diff)]

end Lines

/-- `nameLen` after the loop over the dense names. -/
def measureNames (benchPrefixes : HashMap Units Units) : ℕ :=
  benchPrefixes.entries.foldl (fun nameLen entry => max nameLen entry.2.length)
    (utf16 "Benchmark").length

section WriteOut

variable (toLowerCase : Units → Units) (precision : ℕ) (withError : Bool)

/-- `runResult.params().benchmark()`, of which the length is taken. -/
def benchName (runResult : PrintedResult) : Except Failure Units :=
  runResult.params.benchmark.elim (.error .nullPointer) fun name => .ok (utf16 name)

def measureColumns (runResults : List PrintedResult) (labels : Labels) : Except Failure Layout := do
  let benchNames ← runResults.mapM benchName
  let benchPrefixes ← denseClassNames toLowerCase benchNames
  let lengths ← runResults.foldlM (Lengths.measure precision) (Lengths.start labels)
  .ok
    { benchPrefixes
      nameLen := measureNames benchPrefixes
      paramScan := scanParams runResults
      lengths := lengths.pad }

/-- The lines, in the order in which they are printed. -/
def writeOut (runResults : List PrintedResult) (labels : Labels) : Except Failure (List Units) := do
  let layout ← measureColumns toLowerCase precision runResults labels
  let rows := runResults.map (row precision withError layout)
  .ok ((header withError labels layout :: rows).map printed)

end WriteOut

end Colata.BenchmarkCompare
