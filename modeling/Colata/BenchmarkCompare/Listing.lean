/-
# The listing of the directory

The files of a directory come in an order that the file system chooses. `readCsvFiles`
keeps the last file of each label, so that the order matters as soon as a label has two.
-/

import Colata.BenchmarkCompare.ReadCsv

namespace Colata.BenchmarkCompare

open Colata.Java Colata.Math

/-- `f.getFileName().toString().endsWith(".csv")` -/
def isCsv (file : CsvPath) : Bool := ".csv".toList.isSuffixOf file.fileName.toList

/-- The CSV files of a listing. -/
def csvPaths (listing : List CsvPath) : List CsvPath := listing.filter isCsv

variable (columns : HashOrder String) (rows : HashOrder BenchmarkParams)

/-- The results for a directory with this listing. -/
def readListing (listing : List CsvPath) : Except Failure (List RunResult) :=
  readCsvFiles columns rows (csvPaths listing)

/-- The same results, or a failure in both cases. -/
def SameOutcome {α : Type} (first second : Except Failure α) : Prop :=
  first.toOption = second.toOption

/-- The file is the one that is read for its label. -/
def IsRead (listing : List CsvPath) (file : CsvPath) : Prop :=
  labelCsvPaths (csvPaths listing) (labelOf file.fileName) = some file

/-- All listings of the files have the same outcome, and every CSV file is read. -/
structure OrderIndependent (files : List CsvPath) : Prop where
  outcome : ∀ first second : List CsvPath, first.Perm files → second.Perm files →
    SameOutcome (readListing columns rows first) (readListing columns rows second)
  isRead : ∀ listing : List CsvPath, listing.Perm files → ∀ file ∈ csvPaths listing,
    IsRead listing file

/-! ## The files that are read -/

/-- The last file of a label is read. -/
theorem labelCsvPaths_eq (paths : List CsvPath) (label : Label) :
    labelCsvPaths paths label =
      (paths.filter fun path => labelOf path.fileName = label).getLast? := by
  induction paths using List.reverseRecOn with
  | nil => rfl
  | append_singleton paths path ih =>
    have hstep : labelCsvPaths (paths ++ [path]) =
        Function.update (labelCsvPaths paths) (labelOf path.fileName) (some path) := by
      rw [labelCsvPaths, List.foldl_append]
      rfl
    rw [hstep, List.filter_append]
    by_cases hlabel : labelOf path.fileName = label
    · simp [hlabel]
    · simp [hlabel, Ne.symm hlabel, ih]

theorem csvPaths_perm {first second : List CsvPath} (h : first.Perm second) :
    (csvPaths first).Perm (csvPaths second) := h.filter isCsv

/-- A file whose label no other one has is read. -/
theorem isRead_of_unique {listing : List CsvPath} {file : CsvPath} (hfile : file ∈ csvPaths listing)
    (hunique : ∀ other ∈ csvPaths listing, labelOf other.fileName = labelOf file.fileName →
      other = file) : IsRead listing file := by
  rw [IsRead, labelCsvPaths_eq]
  have hmem : file ∈ (csvPaths listing).filter fun path =>
      labelOf path.fileName = labelOf file.fileName :=
    List.mem_filter.mpr ⟨hfile, decide_eq_true rfl⟩
  rw [List.getLast?_eq_some_getLast (List.ne_nil_of_mem hmem), Option.some_inj]
  have hlast := List.getLast_mem (List.ne_nil_of_mem hmem)
  obtain ⟨hin, hlabel⟩ := List.mem_filter.mp hlast
  exact hunique _ hin (of_decide_eq_true hlabel)

/-- With one file at most for each label, the order does not change what is read. -/
theorem labelCsvPaths_eq_of_perm {first second : List CsvPath} (h : first.Perm second)
    (hunique : ∀ a ∈ csvPaths second, ∀ b ∈ csvPaths second,
      labelOf a.fileName = labelOf b.fileName → a = b) :
    labelCsvPaths (csvPaths first) = labelCsvPaths (csvPaths second) := by
  have hcsv := csvPaths_perm h
  funext label
  cases hread : labelCsvPaths (csvPaths second) label with
  | none =>
    rw [labelCsvPaths_eq, List.getLast?_eq_none_iff] at hread ⊢
    exact ((hcsv.filter _).trans (List.Perm.of_eq hread)).eq_nil
  | some file =>
    have hmem : file ∈ (csvPaths second).filter fun path => labelOf path.fileName = label := by
      rw [labelCsvPaths_eq] at hread
      exact List.mem_of_getLast? hread
    obtain ⟨hfile, hlabel⟩ := List.mem_filter.mp hmem
    have hfirst : IsRead first file := isRead_of_unique (hcsv.mem_iff.mpr hfile)
      fun other hother => hunique other (hcsv.mem_iff.mp hother) file hfile
    rw [← of_decide_eq_true hlabel]
    exact hfirst

/-- What is read does not depend on the order of the listing, and no CSV file is passed over,
exactly when no two CSV files have the same label. -/
theorem orderIndependent_iff (files : List CsvPath) :
    OrderIndependent columns rows files ↔
      ∀ a ∈ csvPaths files, ∀ b ∈ csvPaths files,
        labelOf a.fileName = labelOf b.fileName → a = b := by
  constructor
  · intro h a ha b hb hlabel
    have hread := h.isRead files (List.Perm.refl files)
    have hsame := hread a ha
    rw [IsRead, hlabel, hread b hb] at hsame
    exact (Option.some.inj hsame).symm
  · intro hunique
    constructor
    · intro first second hfirst hsecond
      rw [SameOutcome, readListing, readListing, readCsvFiles, readCsvFiles,
        labelCsvPaths_eq_of_perm hfirst hunique, labelCsvPaths_eq_of_perm hsecond hunique]
    · intro listing hperm file hfile
      have hcsv := csvPaths_perm hperm
      exact isRead_of_unique hfile fun other hother hlabel =>
        hunique other (hcsv.mem_iff.mp hother) file (hcsv.mem_iff.mp hfile) hlabel

/-! ## Two base files -/

def emptyBase : CsvPath := ⟨"base-empty.csv", ""⟩

def headerBase : CsvPath := ⟨"base-header.csv", "Benchmark"⟩

def headerPatch : CsvPath := ⟨"patch.csv", "Benchmark"⟩

/-- With the empty base file first there is a result, and with the other one first a failure. -/
theorem not_forall_orderIndependent :
    ¬ ∀ (columns : HashOrder String) (rows : HashOrder BenchmarkParams) (files : List CsvPath),
      OrderIndependent columns rows files := by
  intro hall
  have hperm : [headerBase, emptyBase, headerPatch].Perm [emptyBase, headerBase, headerPatch] :=
    List.Perm.swap _ _ _
  have hsame := (hall ⟨id, List.Perm.refl⟩ ⟨id, List.Perm.refl⟩ _).outcome _ _
    (List.Perm.refl _) hperm
  have hfirst : (readListing ⟨id, List.Perm.refl⟩ ⟨id, List.Perm.refl⟩
      [emptyBase, headerBase, headerPatch]).toOption.isSome = true := by decide +kernel
  have hsecond : (readListing ⟨id, List.Perm.refl⟩ ⟨id, List.Perm.refl⟩
      [headerBase, emptyBase, headerPatch]).toOption.isSome = false := by decide +kernel
  rw [SameOutcome] at hsame
  rw [hsame, hsecond] at hfirst
  cases hfirst

end Colata.BenchmarkCompare
