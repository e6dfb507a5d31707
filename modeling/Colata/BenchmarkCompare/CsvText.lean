/-
# The text of a CSV file

A file that was written line by line is read as if its fields had been handed over as they
are: quotes, doubled quotes, commas and either line terminator make no difference. Only lines
of whitespace are skipped.
-/

import Colata.BenchmarkCompare.ReadCsv

namespace Colata.BenchmarkCompare

open Colata.Java Colata.Math

/-! ## Reading fields -/

/-- What `readCsv` makes of a header and rows of fields. -/
def readTable (columns : HashOrder String) (headerNames : List String) (rows : List (List String)) :
    Except Failure CsvFile := do
  let state ← rows.foldlM (addFields columns headerNames) (∅, 0)
  .ok state.1

/-! ## Written lines -/

inductive Terminator
  | lineFeed
  | carriageReturnLineFeed

def Terminator.text : Terminator → List Char
  | .lineFeed => ['\n']
  | .carriageReturnLineFeed => ['\r', '\n']

/-- A line of at least one field. -/
structure WrittenLine where
  first : CsvField
  rest : List CsvField
  terminator : Terminator
  plain : Plain (csvLine first rest).toList

namespace WrittenLine

def line (written : WrittenLine) : String := csvLine written.first written.rest

def values (written : WrittenLine) : List String :=
  (written.first :: written.rest).map CsvField.text

/-- The characters of the line, with its end. -/
def text (written : WrittenLine) : List Char := written.line.toList ++ written.terminator.text

end WrittenLine

/-- The text of a file. -/
def csvText (header : WrittenLine) (rows : List WrittenLine) : String :=
  String.ofList ((header :: rows).flatMap WrittenLine.text)

theorem linesFrom_text (written : WrittenLine) (after : List Char) :
    linesFrom [] (written.text ++ after) = written.line :: linesFrom [] after := by
  have hline : linesFrom [] (written.line.toList ++ (written.terminator.text ++ after)) =
      linesFrom written.line.toList (written.terminator.text ++ after) :=
    linesFrom_append written.plain [] _
  have hend : linesFrom written.line.toList (written.terminator.text ++ after) =
      String.ofList written.line.toList :: linesFrom [] after := by
    cases written.terminator with
    | lineFeed => simp [Terminator.text, linesFrom]
    | carriageReturnLineFeed => simp [Terminator.text, linesFrom]
  rw [WrittenLine.text, List.append_assoc, hline, hend, String.ofList_toList]

theorem lines_csvText (header : WrittenLine) (rows : List WrittenLine) :
    lines (csvText header rows) = header.line :: rows.map WrittenLine.line := by
  have hrows : ∀ written : List WrittenLine,
      linesFrom [] (written.flatMap WrittenLine.text) = written.map WrittenLine.line := by
    intro written
    induction written with
    | nil => rfl
    | cons first written ih => rw [List.flatMap_cons, linesFrom_text, ih, List.map_cons]
  rw [lines, csvText, String.toList_ofList, hrows, List.map_cons]

theorem parseCsvLine_line (written : WrittenLine) : parseCsvLine written.line = written.values := by
  have hrest : (written.rest.flatMap fun next => ',' :: next.written).head? ≠ some '"' := by
    cases written.rest with
    | nil => simp
    | cons next fields => simp
  rw [WrittenLine.line, parseCsvLine, csvLine, String.toList_ofList, CsvScan.initial,
    CsvScan.run_written [] written.first hrest, CsvScan.run_fields, String.ofList_toList]
  rfl

/-! ## Reading back -/

section Reading

variable {columns : HashOrder String} {headerNames : List String}

theorem addRow_line (state : CsvFile × BitVec 32) {written : WrittenLine}
    (hblank : isBlank written.line = false) :
    addRow columns headerNames state written.line =
      addFields columns headerNames state written.values := by
  rw [addRow, if_neg (by simp [hblank]), parseCsvLine_line]

theorem foldlM_addRow_line (rows : List WrittenLine) (state : CsvFile × BitVec 32) :
    (rows.map WrittenLine.line).foldlM (addRow columns headerNames) state =
      ((rows.filter fun written => !isBlank written.line).map WrittenLine.values).foldlM
        (addFields columns headerNames) state := by
  induction rows generalizing state with
  | nil => rfl
  | cons written rows ih =>
      rw [List.map_cons, List.foldlM_cons]
      cases hblank : isBlank written.line with
      | true =>
          have hskip : addRow columns headerNames state written.line = .ok state := if_pos hblank
          rw [hskip, ok_bind, ih, List.filter_cons_of_neg (by simp [hblank])]
      | false =>
          rw [addRow_line state hblank, List.filter_cons_of_pos (by simp [hblank]), List.map_cons,
            List.foldlM_cons]
          exact congrArg _ (funext ih)

end Reading

/-- Reading a written file is reading its fields, where it fails as well. -/
theorem readCsv_csvText (columns : HashOrder String) (fileName : String) (header : WrittenLine)
    (rows : List WrittenLine) :
    readCsv columns (some ⟨fileName, csvText header rows⟩) =
      readTable columns header.values
        ((rows.filter fun written => !isBlank written.line).map WrittenLine.values) := by
  rw [readCsv]
  simp only [lines_csvText, parseCsvLine_line, foldlM_addRow_line]
  rfl

end Colata.BenchmarkCompare
