/-
# Reading and joining result files

`readCsv` turns a file into a map from benchmark parameters to lines. The counter
behind the order tags starts at zero in every file and is shared by all its rows.
`readCsvFiles` looks every key of the base file up in the patch file.

The order in which a `HashMap` enumerates its keys is a parameter. It is taken to
depend on the keys and the order of their insertion only, as it does in OpenJDK.
-/

import Colata.BenchmarkCompare.CsvLine
import Colata.BenchmarkCompare.Params
import Colata.Languages.Java.Basic
import Colata.Languages.Java.Number

namespace Colata.BenchmarkCompare

open Colata.Java Colata.Math

/-- How a `HashMap` enumerates its keys: each of them once. -/
structure HashOrder (α : Type) where
  order : List α → List α
  perm : ∀ keys, (order keys).Perm keys

/-- A `HashMap`; the keys are listed in the order of insertion, the latest first. -/
abbrev HashMap (α β : Type) := AList fun _ : α => β

section HashMap

variable {α β : Type} [DecidableEq α]

/-- `map.put(key, value)`. A key that is there already keeps its place. -/
def HashMap.put (map : HashMap α β) (key : α) (value : β) : HashMap α β :=
  if key ∈ map then map.replace key value else map.insert key value

theorem HashMap.keys_put (map : HashMap α β) (key : α) (value : β) :
    (map.put key value).keys = if key ∈ map.keys then map.keys else key :: map.keys := by
  unfold put
  by_cases hmem : key ∈ map.keys
  · rw [if_pos hmem, if_pos (AList.mem_keys.mpr hmem), AList.keys_replace]
  · rw [if_neg hmem, if_neg (mt AList.mem_keys.mp hmem), AList.keys_insert,
      List.erase_of_not_mem hmem]

theorem HashMap.mem_put {map : HashMap α β} {key other : α} {value : β} :
    other ∈ map.put key value ↔ other = key ∨ other ∈ map := by
  rw [AList.mem_keys, AList.mem_keys, keys_put]
  split_ifs with hmem
  · exact ⟨.inr, fun h => h.elim (fun heq => heq ▸ hmem) id⟩
  · exact List.mem_cons

private theorem dlookup_kreplace {key : α} {value : β} {entries : List (Sigma fun _ : α => β)}
    (hmem : key ∈ entries.keys) (other : α) :
    (entries.kreplace key value).dlookup other =
      if other = key then some value else entries.dlookup other := by
  induction entries with
  | nil => cases hmem
  | cons entry entries ih =>
    obtain ⟨first, old⟩ := entry
    by_cases hfirst : key = first
    · subst hfirst
      rw [List.kreplace, List.lookmap_cons_some _ _ (dif_pos rfl)]
      by_cases hother : other = key
      · rw [hother, List.dlookup_cons_eq, if_pos rfl]
      · rw [List.dlookup_cons_ne _ _ hother, List.dlookup_cons_ne _ _ hother, if_neg hother]
    · have hrest : key ∈ entries.keys := by simpa [hfirst] using hmem
      rw [List.kreplace, List.lookmap_cons_none _ _ (dif_neg hfirst)]
      have ih := ih hrest
      rw [List.kreplace] at ih
      by_cases hother : other = first
      · subst hother
        rw [List.dlookup_cons_eq, if_neg (Ne.symm hfirst), List.dlookup_cons_eq]
      · rw [List.dlookup_cons_ne _ _ hother, ih, List.dlookup_cons_ne _ _ hother]

theorem HashMap.lookup_put (map : HashMap α β) (key : α) (value : β) (other : α) :
    (map.put key value).lookup other = if other = key then some value else map.lookup other := by
  rw [put]
  split_ifs with hmem hother hother
  · exact (dlookup_kreplace hmem other).trans (if_pos hother)
  · exact (dlookup_kreplace hmem other).trans (if_neg hother)
  · rw [hother, AList.lookup_insert]
  · exact AList.lookup_insert_ne hother

end HashMap

/-- `CsvLine`: the cells of a row by column name. -/
abbrev CsvLine := HashMap String String

/-- `CsvFile`. -/
abbrev CsvFile := HashMap BenchmarkParams CsvLine

/-- A file of the directory, with its text. -/
structure CsvPath where
  fileName : String
  text : String
  deriving DecidableEq

/-! ## One file -/

/-- The loop that pairs the header names with the values of a row. -/
def lineData : List String → List String → CsvLine → Except Failure CsvLine
  | [], _, data => .ok data
  | _ :: _, [], _ => .error .indexOutOfBounds
  | name :: headerNames, value :: values, data =>
      lineData headerNames values (data.put name value)

def isParam (name : String) : Bool := startsWith name "Param:"

/-- `name.split(":")[1].trim()`. -/
def trimmedName (name : String) : Option String := (split ':' name)[1]?.map trim

/-- One turn of the loop over the entries of a row, which counts the parameters. -/
def addParam (data : CsvLine) (state : ParamMap × BitVec 32) (name : String) :
    Except Failure (ParamMap × BitVec 32) :=
  if isParam name then
    match trimmedName name with
    | none => .error .indexOutOfBounds
    | some trimmed =>
        .ok (state.1.insert trimmed ⟨(data.lookup name).getD "", state.2⟩, state.2 + 1)
  else .ok state

/-- `lineData.get("Mode")` as a mode. -/
def modeOf (data : CsvLine) : Except Failure Mode :=
  match data.lookup "Mode" with
  | none => .error .nullPointer
  | some name => Mode.deepValueOf name

/-- One row: its key, its cells and the counter after it. -/
def readFields (columns : HashOrder String) (headerNames : List String) (valueId : BitVec 32)
    (values : List String) : Except Failure ((BenchmarkParams × CsvLine) × BitVec 32) := do
  let data ← lineData headerNames values ∅
  let (workloadParams, valueId) ← (columns.order data.keys).foldlM (addParam data) (∅, valueId)
  let mode ← modeOf data
  .ok ((⟨data.lookup "Benchmark", mode, ⟨workloadParams⟩⟩, data), valueId)

def addFields (columns : HashOrder String) (headerNames : List String)
    (state : CsvFile × BitVec 32) (values : List String) : Except Failure (CsvFile × BitVec 32) := do
  let (row, valueId) ← readFields columns headerNames state.2 values
  .ok (state.1.put row.1 row.2, valueId)

/-- One turn of the loop over the lines. -/
def addRow (columns : HashOrder String) (headerNames : List String)
    (state : CsvFile × BitVec 32) (line : String) : Except Failure (CsvFile × BitVec 32) :=
  if isBlank line then .ok state
  else addFields columns headerNames state (parseCsvLine line)

def readCsv (columns : HashOrder String) : Option CsvPath → Except Failure CsvFile
  | none => .error .nullPointer
  | some path =>
      match lines path.text with
      | [] => .error (.illegalState ("CSV file is empty: " ++ path.fileName))
      | header :: rows => do
          let state ← rows.foldlM (addRow columns (parseCsvLine header)) (∅, 0)
          .ok state.1

/-! ## Both files -/

inductive Label
  | base
  | patch
  deriving DecidableEq

def labelOf (fileName : String) : Label :=
  if startsWith fileName "base-" then .base else .patch

/-- The last file of each label. -/
def labelCsvPaths (csvPaths : List CsvPath) : Label → Option CsvPath :=
  csvPaths.foldl (fun paths path => Function.update paths (labelOf path.fileName) (some path))
    fun _ => none

structure Result where
  params : BenchmarkParams
  sampleCount : ℤ
  baseScore : Binary64
  baseScoreError : Binary64
  patchScore : Binary64
  patchScoreError : Binary64
  diff : ℤ
  scoreUnit : Option String
  deriving DecidableEq

structure RunResult where
  params : BenchmarkParams
  primaryResult : Result
  deriving DecidableEq

/-- `Double.parseDouble(data.get(name))`. -/
def doubleCell (data : CsvLine) (name : String) : Except Failure Binary64 :=
  match data.lookup name with
  | none => .error .nullPointer
  | some text => (parseDouble text).elim (.error (.numberFormat (some text))) .ok

/-- `Long.parseLong(data.get(name))`. -/
def longCell (data : CsvLine) (name : String) : Except Failure ℤ :=
  match data.lookup name with
  | none => .error (.numberFormat none)
  | some text => (parseLong text).elim (.error (.numberFormat (some text))) .ok

/-- The change from the base to the patch score, in percent. -/
def diffOf (baseScore patchScore : Binary64) : ℤ :=
  Java.round ((patchScore - baseScore) / baseScore * 100)

/-- The result for one key of the base file; `patchValues` is what the patch file has. -/
def joinRow (params : BenchmarkParams) (baseValues : CsvLine) (patchValues : Option CsvLine) :
    Except Failure RunResult := do
  let baseScore ← doubleCell baseValues "Score"
  let baseScoreError ← doubleCell baseValues "Score Error (99.9%)"
  let patchData ← patchValues.elim (.error .nullPointer) .ok
  let patchScore ← doubleCell patchData "Score"
  let patchScoreError ← doubleCell patchData "Score Error (99.9%)"
  let sampleCount ← longCell baseValues "Samples"
  .ok
    { params := params
      primaryResult :=
        { params, sampleCount, baseScore, baseScoreError, patchScore, patchScoreError,
          diff := diffOf baseScore patchScore
          scoreUnit := baseValues.lookup "Unit" } }

/-- `DEFAULT_SORT_COMPARATOR`. -/
def sortComparator (first second : RunResult) : Except Failure Ordering :=
  first.params.compareTo second.params

/-- One turn of the loop over the base keys. -/
def addResult (baseCsvFile patchCsvFile : CsvFile) (results : List RunResult)
    (params : BenchmarkParams) : Except Failure (List RunResult) := do
  let baseValues ← (baseCsvFile.lookup params).elim (.error .nullPointer) .ok
  let runResult ← joinRow params baseValues (patchCsvFile.lookup params)
  TreeSet.add sortComparator results runResult

/-- The results in the order of their `TreeSet`. -/
def readCsvFiles (columns : HashOrder String) (rows : HashOrder BenchmarkParams)
    (csvPaths : List CsvPath) : Except Failure (List RunResult) := do
  let baseCsvFile ← readCsv columns (labelCsvPaths csvPaths .base)
  let patchCsvFile ← readCsv columns (labelCsvPaths csvPaths .patch)
  (rows.order baseCsvFile.keys).foldlM (addResult baseCsvFile patchCsvFile) []

end Colata.BenchmarkCompare
