/-
# The alignment of the lines

Every column but those of the errors is as wide as its widest text, so that the lines are
aligned unless an error is cut too short. An approximate error is shown with all the
decimals of the precision, and its column is wide enough for it if the precision is at
most four or another error of the column takes as much room as a score.
-/

import Colata.BenchmarkCompare.WriteOut

namespace Colata.BenchmarkCompare

open Colata.Java Colata.Math ScoreFormatter

/-! ## The widths of the columns -/

theorem ParamScan.len_add (scan : ParamScan) (entry : BenchmarkParams × String) (k : String) :
    (scan.add entry).len k = max (scan.len k)
      (if entry.2 = k then (utf16 ((entry.1.param entry.2).getD "")).length + columnPad
        else 0) := by
  unfold ParamScan.len ParamScan.add
  split_ifs with hk
  · subst hk
    rw [AList.lookup_insert, Option.getD_some]
    rfl
  · rw [AList.lookup_insert_ne (Ne.symm hk), Nat.max_eq_left (Nat.zero_le _)]

theorem le_len_scanParams_iff (runResults : List PrintedResult) (k : String) {bound : ℕ} :
    bound ≤ (scanParams runResults).len k ↔ bound ≤ (paramHeader k).length + columnPad ∨
      ∃ entry ∈ runResults.flatMap fun runResult =>
          runResult.params.paramsKeys.map (runResult.params, ·),
        bound ≤ if entry.2 = k then (utf16 ((entry.1.param entry.2).getD "")).length + columnPad
          else 0 := by
  rw [scanParams, ← List.foldl_flatMap]
  exact le_foldl_iff (ParamScan.len · k) _ (fun scan entry => scan.len_add entry k) _ _

theorem paramHeader_le_len (runResults : List PrintedResult) (k : String) :
    (paramHeader k).length + columnPad ≤ (scanParams runResults).len k :=
  (le_len_scanParams_iff runResults k).mpr (Or.inl (le_refl _))

/-- What a row shows for a parameter, its value or `N/A`, fits the column. -/
theorem paramText_le_len {runResults : List PrintedResult} {pRes : PrintedResult}
    (hmem : pRes ∈ runResults) (k : String) :
    (utf16 ((pRes.params.param k).getD "N/A")).length ≤ (scanParams runResults).len k := by
  cases hvalue : pRes.params.param k with
  | none =>
      have hlength : (utf16 "N/A").length ≤ (paramHeader k).length + columnPad := by
        have hshort : (utf16 "N/A").length = 3 := by decide
        have hparens : (utf16 "(").length = 1 ∧ (utf16 ")").length = 1 := by decide
        rw [hshort, paramHeader, List.length_append, List.length_append, hparens.1, hparens.2,
          columnPad]
        omega
      exact hlength.trans (paramHeader_le_len runResults k)
  | some value =>
      have hkey : k ∈ pRes.params.paramsKeys := by
        rw [BenchmarkParams.paramsKeys, Std.ExtTreeMap.mem_keys,
          Std.ExtTreeMap.mem_iff_isSome_getElem?]
        rw [BenchmarkParams.param] at hvalue
        rw [← Option.isSome_map, hvalue]
        rfl
      refine le_trans (Nat.le_add_right _ columnPad)
        ((le_len_scanParams_iff runResults k).mpr (Or.inr ⟨(pRes.params, k), ?_, ?_⟩))
      · exact List.mem_flatMap.mpr ⟨pRes, hmem, List.mem_map_of_mem hkey⟩
      · rw [if_pos rfl, hvalue]
        rfl

theorem le_measureNames_iff (benchPrefixes : HashMap Units Units) {bound : ℕ} :
    bound ≤ measureNames benchPrefixes ↔ bound ≤ (utf16 "Benchmark").length ∨
      ∃ entry ∈ benchPrefixes.entries, bound ≤ entry.2.length :=
  le_foldl_iff id _ (fun _ _ => rfl) _ _

/-- A row's name is one of the names that were measured, or `null`. -/
theorem rowName_le_nameLen {layout : Layout}
    (h : layout.nameLen = measureNames layout.benchPrefixes) (pRes : PrintedResult) :
    (rowName layout pRes).length ≤ layout.nameLen := by
  rw [h, le_measureNames_iff, rowName]
  cases hname : (pRes.params.benchmark.map utf16).bind layout.benchPrefixes.lookup with
  | none => exact Or.inl (by decide)
  | some dense =>
      obtain ⟨name, _, hlookup⟩ := Option.bind_eq_some_iff.mp hname
      exact Or.inr ⟨⟨name, dense⟩, AList.mem_lookup_iff.mp hlookup, le_refl _⟩

/-- A column is as wide as its header and as the text of each row. -/
structure Spans (runResults : List PrintedResult) (len : ℕ) (header : Units)
    (text : PrintedResult → Units) : Prop where
  header : header.length ≤ len
  row : ∀ pRes ∈ runResults, (text pRes).length ≤ len

/-- What the loop over the results leaves in the lengths. -/
structure Lengths.Measured (precision : ℕ) (runResults : List PrintedResult) (labels : Labels)
    (lengths : Lengths) : Prop where
  mode : Spans runResults lengths.modeLen (utf16 "Mode") fun res => utf16 res.params.mode.shortLabel
  samples : Spans runResults lengths.samplesLen (utf16 "Cnt") fun res => decimal res.sampleCount
  baseScore : Spans runResults lengths.baseScoreLen (utf16 labels.base) fun res =>
    format precision res.baseScore
  baseScoreErr : ∀ bound, bound ≤ lengths.baseScoreErrLen ↔
    bound ≤ 5 ∨ ∃ res ∈ runResults, bound ≤ (format precision res.baseScoreError).length
  patchScore : Spans runResults lengths.patchScoreLen (utf16 labels.patch) fun res =>
    format precision res.patchScore
  patchScoreErr : ∀ bound, bound ≤ lengths.patchScoreErrLen ↔
    bound ≤ 5 ∨ ∃ res ∈ runResults, bound ≤ (format precision res.patchScoreError).length
  unit : Spans runResults lengths.unitLen (utf16 "Units") fun res =>
    utf16 (res.scoreUnit.getD "null")
  diff : Spans runResults lengths.diffLen (utf16 "Diff") fun res => formatDiff res.diff

theorem Lengths.measure_eq_ok {precision : ℕ} {lengths next : Lengths} {res : PrintedResult}
    (h : lengths.measure precision res = .ok next) :
    ∃ scoreUnit, res.scoreUnit = some scoreUnit ∧ next = lengths.raise precision res scoreUnit := by
  unfold measure at h
  cases hunit : res.scoreUnit with
  | none =>
      rw [hunit] at h
      cases h
  | some scoreUnit =>
      rw [hunit] at h
      exact ⟨scoreUnit, rfl, (Except.ok.inj h).symm⟩

theorem Lengths.measured {precision : ℕ} {runResults : List PrintedResult} {labels : Labels}
    {lengths : Lengths}
    (h : runResults.foldlM (Lengths.measure precision) (Lengths.start labels) = .ok lengths) :
    lengths.Measured precision runResults labels := by
  have hmax : ∀ (len : Lengths → ℕ) (text : PrintedResult → Units),
      (∀ (lengths : Lengths) (res : PrintedResult) (scoreUnit : String),
        res.scoreUnit = some scoreUnit →
        len (lengths.raise precision res scoreUnit) = max (len lengths) (text res).length) →
      ∀ bound, bound ≤ len lengths ↔
        bound ≤ len (start labels) ∨ ∃ res ∈ runResults, bound ≤ (text res).length := by
    intro len text hraise bound
    refine le_foldlM_iff len (fun res => (text res).length) ?_ h
    intro state res next hnext
    obtain ⟨scoreUnit, hunit, rfl⟩ := measure_eq_ok hnext
    exact hraise state res scoreUnit hunit
  have hspans : ∀ (len : Lengths → ℕ) (header : Units) (text : PrintedResult → Units),
      len (start labels) = header.length →
      (∀ (lengths : Lengths) (res : PrintedResult) (scoreUnit : String),
        res.scoreUnit = some scoreUnit →
        len (lengths.raise precision res scoreUnit) = max (len lengths) (text res).length) →
      Spans runResults (len lengths) header text := by
    intro len header text hstart hraise
    constructor
    · exact (hmax len text hraise _).mpr (Or.inl hstart.ge)
    · exact fun res hres => (hmax len text hraise _).mpr (Or.inr ⟨res, hres, le_refl _⟩)
  constructor
  · exact hspans modeLen _ _ rfl fun _ _ _ _ => rfl
  · exact hspans samplesLen _ _ rfl fun _ _ _ _ => rfl
  · exact hspans baseScoreLen _ _ rfl fun _ _ _ _ => rfl
  · exact hmax baseScoreErrLen _ fun _ _ _ _ => rfl
  · exact hspans patchScoreLen _ _ rfl fun _ _ _ _ => rfl
  · exact hmax patchScoreErrLen _ fun _ _ _ _ => rfl
  · refine hspans unitLen _ _ rfl fun lengths res scoreUnit hunit => ?_
    rw [hunit]
    rfl
  · exact hspans diffLen _ _ rfl fun _ _ _ _ => rfl

/-! ## The error columns -/

section Errors

variable (precision : ℕ)

/-- An error is shown unless it is `NaN` or its score is approximate. -/
def IsShown (score error : Score) : Prop := error ≠ none ∧ isApproximate precision score = false

instance (score error : Score) : Decidable (IsShown precision score error) :=
  inferInstanceAs (Decidable (_ ∧ _))

/-- The column of these scores and errors has room for the errors it shows: the precision is
at most four, or none of them is approximate, or some error is long. -/
def ErrorsFit (column : List (Score × Score)) : Prop :=
  precision ≤ 4 ∨
    (∀ cell ∈ column, IsShown precision cell.1 cell.2 → isApproximate precision cell.2 = false) ∨
    ∃ cell ∈ column, IsLong precision cell.2

theorem errorCells_fits_iff (withError : Bool) (width : ℕ) (score error : Score) :
    (∀ cell ∈ errorCells precision withError width score error, cell.Fits) ↔
      (withError = true → IsShown precision score error →
        (formatError precision width error).Fits) := by
  have hblank : (field width []).Fits := Nat.zero_le width
  cases withError with
  | false =>
      exact ⟨fun _ h => absurd h Bool.false_ne_true, fun _ => List.forall_mem_nil _⟩
  | true =>
      rw [errorCells, if_pos rfl]
      by_cases hshown : error ≠ none ∧ isApproximate precision score = false
      · rw [if_pos hshown, List.forall_mem_cons, List.forall_mem_singleton]
        exact ⟨fun h _ _ => h.2, fun h => ⟨Cell.fits_plain _, h rfl hshown⟩⟩
      · rw [if_neg hshown, List.forall_mem_cons, List.forall_mem_singleton]
        exact ⟨fun _ _ h => absurd h hshown, fun _ => ⟨Cell.fits_plain _, hblank⟩⟩

variable {precision} {column : List (Score × Score)} {errLen : ℕ}

section Measured

variable (hlen : ∀ bound, bound ≤ errLen ↔
  bound ≤ 5 ∨ ∃ cell ∈ column, bound ≤ (format precision cell.2).length)
include hlen

/-- An error that is printed the way scores are fits its column. -/
theorem formatError_fits_of_exact {cell : Score × Score} (hcell : cell ∈ column)
    (hexact : isApproximate precision cell.2 = false) :
    (formatError precision (errLen + 1) cell.2).Fits := by
  rw [formatError_eq precision _ hexact]
  exact ((hlen _).mpr (Or.inr ⟨cell, hcell, le_refl _⟩)).trans (Nat.le_succ errLen)

/-- Up to four decimals every error fits. -/
theorem formatError_fits_of_le (hsmall : precision ≤ 4) {cell : Score × Score}
    (hcell : cell ∈ column) : (formatError precision (errLen + 1) cell.2).Fits := by
  cases happrox : isApproximate precision cell.2 with
  | false => exact formatError_fits_of_exact hlen hcell happrox
  | true =>
      have hfive : 5 ≤ errLen := (hlen 5).mpr (Or.inl (le_refl 5))
      rw [formatError_of_approximate precision _ happrox]
      exact (length_fixed_ulp_le precision).trans (show precision + 2 ≤ errLen + 1 by omega)

/-- With more decimals only a long error makes the column wide enough for a bound. -/
theorem room_iff (hlarge : 4 < precision) :
    precision + 1 ≤ errLen ↔ ∃ cell ∈ column, IsLong precision cell.2 := by
  have hroom : precision + 1 ≤ errLen ↔
      precision ≤ 4 ∨ ∃ cell ∈ column, precision < (format precision cell.2).length := by
    rw [hlen, Nat.succ_le_iff, Nat.lt_succ_iff]
    rfl
  rw [hroom, or_iff_right (Nat.not_le.mpr hlarge)]
  simp only [lt_length_format_iff (show 3 ≤ precision by omega)]

/-- The errors that are shown fit a column measured with their texts as scores exactly under
that condition. -/
theorem errors_fit_iff :
    (∀ cell ∈ column, IsShown precision cell.1 cell.2 →
      (formatError precision (errLen + 1) cell.2).Fits) ↔ ErrorsFit precision column := by
  rcases Nat.lt_or_ge 4 precision with hlarge | hsmall
  · have hfits : ∀ error : Score, isApproximate precision error = true →
        ((formatError precision (errLen + 1) error).Fits ↔ precision + 1 ≤ errLen) := by
      intro error happrox
      rw [formatError_of_approximate precision _ happrox, Cell.Fits, field,
        length_fixed_ulp (by omega)]
      exact Nat.succ_le_succ_iff
    rw [ErrorsFit, or_iff_right (Nat.not_le.mpr hlarge), ← room_iff hlen hlarge]
    constructor
    · intro h
      by_cases hwide : precision + 1 ≤ errLen
      · exact Or.inr hwide
      · refine Or.inl fun cell hcell hshown => ?_
        rw [← Bool.not_eq_true]
        exact fun happrox => hwide ((hfits cell.2 happrox).mp (h cell hcell hshown))
    · intro h cell hcell hshown
      cases happrox : isApproximate precision cell.2 with
      | false => exact formatError_fits_of_exact hlen hcell happrox
      | true =>
          rcases h with hexact | hwide
          · rw [hexact cell hcell hshown] at happrox
            cases happrox
          · exact (hfits cell.2 happrox).mpr hwide
  · exact ⟨fun _ => Or.inl hsmall, fun _ cell hcell _ => formatError_fits_of_le hlen hsmall hcell⟩

end Measured

end Errors

/-! ## The lines -/

/-- The texts of a line outside its error cells. -/
structure LineTexts where
  name : Units
  param : String → Units
  mode : Units
  samples : Units
  base : Units
  patch : Units
  unit : Units
  diff : Units

namespace LineTexts

variable (layout : Layout)

/-- The line with these texts and error cells. -/
def cells (texts : LineTexts) (baseErr patchErr : List (Cell ℕ)) : List (Cell ℕ) :=
  leftField layout.nameLen texts.name ::
    (layout.params.map fun k => field (layout.paramScan.len k) (texts.param k)) ++
    [field layout.lengths.modeLen texts.mode, field layout.lengths.samplesLen texts.samples,
      field layout.lengths.baseScoreLen texts.base] ++
    baseErr ++ [field layout.lengths.patchScoreLen texts.patch] ++
    patchErr ++ [field layout.lengths.unitLen texts.unit, field layout.lengths.diffLen texts.diff]

structure Within (texts : LineTexts) : Prop where
  name : texts.name.length ≤ layout.nameLen
  param : ∀ k, (texts.param k).length ≤ layout.paramScan.len k
  mode : texts.mode.length ≤ layout.lengths.modeLen
  samples : texts.samples.length ≤ layout.lengths.samplesLen
  base : texts.base.length ≤ layout.lengths.baseScoreLen
  patch : texts.patch.length ≤ layout.lengths.patchScoreLen
  unit : texts.unit.length ≤ layout.lengths.unitLen
  diff : texts.diff.length ≤ layout.lengths.diffLen

variable {layout} {baseErr patchErr : List (Cell ℕ)}

/-- Where the other texts are within the columns, a line fits if its error cells do. -/
theorem cells_fit_iff {texts : LineTexts} (h : texts.Within layout) :
    (∀ cell ∈ texts.cells layout baseErr patchErr, cell.Fits) ↔
      (∀ cell ∈ baseErr, cell.Fits) ∧ ∀ cell ∈ patchErr, cell.Fits := by
  have hparams : ∀ k, (field (layout.paramScan.len k) (texts.param k)).Fits := h.param
  have hname : (leftField layout.nameLen texts.name).Fits := h.name
  have hmode : (field layout.lengths.modeLen texts.mode).Fits := h.mode
  have hsamples : (field layout.lengths.samplesLen texts.samples).Fits := h.samples
  have hbase : (field layout.lengths.baseScoreLen texts.base).Fits := h.base
  have hpatch : (field layout.lengths.patchScoreLen texts.patch).Fits := h.patch
  have hunit : (field layout.lengths.unitLen texts.unit).Fits := h.unit
  have hdiff : (field layout.lengths.diffLen texts.diff).Fits := h.diff
  simp only [cells, List.forall_mem_append, List.forall_mem_cons, List.forall_mem_map,
    List.not_mem_nil, false_implies, implies_true, hparams, hname, hmode, hsamples, hbase, hpatch,
    hunit, hdiff, true_and, and_true]

theorem map_width_cells (texts other : LineTexts) {baseErr' patchErr' : List (Cell ℕ)}
    (hbase : baseErr.map Cell.width = baseErr'.map Cell.width)
    (hpatch : patchErr.map Cell.width = patchErr'.map Cell.width) :
    (texts.cells layout baseErr patchErr).map Cell.width =
      (other.cells layout baseErr' patchErr').map Cell.width := by
  simp only [cells, List.map_append, List.map_cons, List.map_map, hbase, hpatch]
  rfl

end LineTexts

section Lines

variable {toLowerCase : Units → Units} {precision : ℕ} {withError : Bool}
  {runResults : List PrintedResult} {labels : Labels}

/-- What the first pass leaves in the layout. -/
structure Layout.Measured (precision : ℕ) (runResults : List PrintedResult) (labels : Labels)
    (layout : Layout) : Prop where
  nameLen : layout.nameLen = measureNames layout.benchPrefixes
  paramScan : layout.paramScan = scanParams runResults
  lengths : ∃ lengths : Lengths,
    layout.lengths = lengths.pad ∧ lengths.Measured precision runResults labels

theorem layout_measured {layout : Layout}
    (h : measureColumns toLowerCase precision runResults labels = .ok layout) :
    layout.Measured precision runResults labels := by
  obtain ⟨benchNames, _, h⟩ := bind_eq_ok.mp h
  obtain ⟨benchPrefixes, _, h⟩ := bind_eq_ok.mp h
  obtain ⟨lengths, hlengths, h⟩ := bind_eq_ok.mp h
  obtain rfl := Except.ok.inj h
  exact ⟨rfl, rfl, lengths, rfl, Lengths.measured hlengths⟩

def headerTexts (labels : Labels) : LineTexts :=
  { name := utf16 "Benchmark", param := paramHeader, mode := utf16 "Mode", samples := utf16 "Cnt",
    base := utf16 labels.base, patch := utf16 labels.patch, unit := utf16 "Units",
    diff := utf16 "Diff" }

theorem header_eq (layout : Layout) :
    header withError labels layout = (headerTexts labels).cells layout
      (errorHeader withError layout.lengths.baseScoreErrLen)
      (errorHeader withError layout.lengths.patchScoreErrLen) := rfl

def rowTexts (precision : ℕ) (layout : Layout) (pRes : PrintedResult) : LineTexts :=
  { name := rowName layout pRes
    param := fun k => utf16 ((pRes.params.param k).getD "N/A")
    mode := utf16 pRes.params.mode.shortLabel
    samples := samplesText pRes.sampleCount
    base := format precision pRes.baseScore
    patch := format precision pRes.patchScore
    unit := utf16 (pRes.scoreUnit.getD "null")
    diff := formatDiff pRes.diff }

theorem row_eq (layout : Layout) (pRes : PrintedResult) :
    row precision withError layout pRes = (rowTexts precision layout pRes).cells layout
      (errorCells precision withError layout.lengths.baseScoreErrLen pRes.baseScore
        pRes.baseScoreError)
      (errorCells precision withError layout.lengths.patchScoreErrLen pRes.patchScore
        pRes.patchScoreError) := by
  rw [row, formatField_eq, formatField_eq]
  rfl

variable {layout : Layout}

theorem headerTexts_within (h : layout.Measured precision runResults labels) :
    (headerTexts labels).Within layout := by
  obtain ⟨hname, hparams, lengths, hpad, hmeasured⟩ := h
  constructor
  · rw [hname]
    exact (le_measureNames_iff _).mpr (Or.inl (le_refl _))
  · intro k
    rw [hparams]
    exact le_trans (Nat.le_add_right _ _) (paramHeader_le_len runResults k)
  all_goals rw [hpad]
  · exact hmeasured.mode.header.trans (Nat.le_add_right _ _)
  · exact hmeasured.samples.header.trans (Nat.le_add_right _ _)
  · exact hmeasured.baseScore.header.trans (Nat.le_add_right _ _)
  · exact hmeasured.patchScore.header.trans (Nat.le_add_right _ _)
  · exact hmeasured.unit.header.trans (Nat.le_add_right _ _)
  · exact hmeasured.diff.header.trans (Nat.le_add_right _ _)

theorem rowTexts_within (h : layout.Measured precision runResults labels) {pRes : PrintedResult}
    (hmem : pRes ∈ runResults) : (rowTexts precision layout pRes).Within layout := by
  obtain ⟨hname, hparams, lengths, hpad, hmeasured⟩ := h
  constructor
  · exact rowName_le_nameLen hname pRes
  · intro k
    rw [hparams]
    exact paramText_le_len hmem k
  all_goals rw [hpad]
  · exact (hmeasured.mode.row pRes hmem).trans (Nat.le_add_right _ _)
  · refine le_trans ?_ ((hmeasured.samples.row pRes hmem).trans (Nat.le_add_right _ _))
    show (samplesText pRes.sampleCount).length ≤ _
    unfold samplesText
    split_ifs
    · exact le_refl _
    · exact Nat.zero_le _
  · exact (hmeasured.baseScore.row pRes hmem).trans (Nat.le_add_right _ _)
  · exact (hmeasured.patchScore.row pRes hmem).trans (Nat.le_add_right _ _)
  · exact (hmeasured.unit.row pRes hmem).trans (Nat.le_add_right _ _)
  · exact (hmeasured.diff.row pRes hmem).trans (Nat.le_add_right _ _)

theorem map_width_errorCells (width : ℕ) (score error : Score) :
    (errorCells precision withError width score error).map Cell.width =
      (errorHeader withError width).map Cell.width := by
  unfold errorCells errorHeader
  split_ifs
  · rfl
  · rfl
  · rfl

/-- The header of an error column fits wherever it takes five characters. -/
theorem errorHeader_fits {errLen : ℕ} (h : 5 ≤ errLen) :
    ∀ cell ∈ errorHeader withError (errLen + 1), cell.Fits := by
  unfold errorHeader
  split_ifs
  · rw [List.forall_mem_cons, List.forall_mem_singleton]
    exact ⟨Cell.fits_plain _, h.trans (Nat.le_succ errLen)⟩
  · exact List.forall_mem_nil _

/-- The error cells of a column all fit if errors are not shown or fit the column. -/
theorem errorColumn_fits_iff {errLen : ℕ} (column : PrintedResult → Score × Score)
    (hlen : ∀ bound, bound ≤ errLen ↔
      bound ≤ 5 ∨ ∃ res ∈ runResults, bound ≤ (format precision (column res).2).length) :
    (∀ res ∈ runResults,
        ∀ cell ∈ errorCells precision withError (errLen + 1) (column res).1 (column res).2,
          cell.Fits) ↔
      (withError = true → ErrorsFit precision (runResults.map column)) := by
  have hcolumn : ∀ bound, bound ≤ errLen ↔
      bound ≤ 5 ∨ ∃ cell ∈ runResults.map column, bound ≤ (format precision cell.2).length := by
    intro bound
    simp only [hlen, List.mem_map, exists_exists_and_eq_and]
  rw [← errors_fit_iff hcolumn, List.forall_mem_map]
  simp only [errorCells_fits_iff]
  exact ⟨fun h hwith res hres => h res hres hwith, fun h res hres hwith => h hwith res hres⟩

theorem header_fits (h : layout.Measured precision runResults labels) :
    ∀ cell ∈ header withError labels layout, cell.Fits := by
  obtain ⟨lengths, hpad, hlengths⟩ := h.lengths
  rw [header_eq, LineTexts.cells_fit_iff (headerTexts_within h), hpad]
  exact ⟨errorHeader_fits ((hlengths.baseScoreErr 5).mpr (Or.inl (le_refl 5))),
    errorHeader_fits ((hlengths.patchScoreErr 5).mpr (Or.inl (le_refl 5)))⟩

/-- The rows fit exactly when their errors do. -/
theorem rows_fit_iff (h : layout.Measured precision runResults labels) :
    (∀ res ∈ runResults, ∀ cell ∈ row precision withError layout res, cell.Fits) ↔
      (withError = true →
        ErrorsFit precision (runResults.map fun res => (res.baseScore, res.baseScoreError)) ∧
        ErrorsFit precision
          (runResults.map fun res => (res.patchScore, res.patchScoreError))) := by
  obtain ⟨lengths, hpad, hlengths⟩ := h.lengths
  have hrow : ∀ res ∈ runResults, (∀ cell ∈ row precision withError layout res, cell.Fits) ↔
      (∀ cell ∈ errorCells precision withError (lengths.baseScoreErrLen + 1) res.baseScore
        res.baseScoreError, cell.Fits) ∧
      ∀ cell ∈ errorCells precision withError (lengths.patchScoreErrLen + 1) res.patchScore
        res.patchScoreError, cell.Fits := by
    intro res hres
    rw [row_eq, LineTexts.cells_fit_iff (rowTexts_within h hres), hpad]
    rfl
  rw [imp_and, ← errorColumn_fits_iff _ hlengths.baseScoreErr,
    ← errorColumn_fits_iff _ hlengths.patchScoreErr]
  constructor
  · intro hall
    exact ⟨fun res hres => ((hrow res hres).mp (hall res hres)).1,
      fun res hres => ((hrow res hres).mp (hall res hres)).2⟩
  · intro hall res hres
    exact (hrow res hres).mpr ⟨hall.1 res hres, hall.2 res hres⟩

theorem map_width_row (layout : Layout) (res : PrintedResult) :
    (row precision withError layout res).map Cell.width =
      (header withError labels layout).map Cell.width := by
  rw [row_eq, header_eq]
  exact LineTexts.map_width_cells _ _ (map_width_errorCells _ _ _) (map_width_errorCells _ _ _)

/-- All lines have the same length exactly when errors are not printed or both error columns
have room for the errors they show. -/
theorem aligned_writeOut_iff {lines : List Units}
    (h : writeOut toLowerCase precision withError runResults labels = .ok lines) :
    Aligned lines ↔ (withError = true →
      ErrorsFit precision (runResults.map fun res => (res.baseScore, res.baseScoreError)) ∧
      ErrorsFit precision (runResults.map fun res => (res.patchScore, res.patchScoreError))) := by
  obtain ⟨layout, hlayout, h⟩ := bind_eq_ok.mp h
  obtain rfl := Except.ok.inj h
  have hmeasured := layout_measured hlayout
  have hwidths : ∀ cells ∈ runResults.map (row precision withError layout),
      cells.map Cell.width = (header withError labels layout).map Cell.width :=
    List.forall_mem_map.mpr fun res _ => map_width_row layout res
  have hlines := aligned_iff ' '.toNat (header_fits hmeasured) hwidths
  rw [List.forall_mem_map, rows_fit_iff hmeasured] at hlines
  exact hlines

/-- With well-formed names and with units, the lines are printed. -/
theorem exists_writeOut
    (hnames : ∀ res ∈ runResults, ∃ name, res.params.benchmark = some name ∧ WellNamed (utf16 name))
    (hunits : ∀ res ∈ runResults, ∃ scoreUnit, res.scoreUnit = some scoreUnit) :
    ∃ lines, writeOut toLowerCase precision withError runResults labels = .ok lines := by
  have hbench : ∀ res ∈ runResults,
      benchName res = .ok (utf16 (res.params.benchmark.getD "")) := by
    intro res hres
    obtain ⟨name, hname, _⟩ := hnames res hres
    rw [benchName, hname]
    rfl
  have hwell : ∀ s ∈ runResults.map fun res => utf16 (res.params.benchmark.getD ""),
      WellNamed s := by
    rw [List.forall_mem_map]
    intro res hres
    obtain ⟨name, hname, hwell⟩ := hnames res hres
    rwa [hname]
  have hmeasure : ∀ res ∈ runResults, ∀ lengths : Lengths,
      ∃ next, lengths.measure precision res = .ok next := by
    intro res hres lengths
    obtain ⟨scoreUnit, hunit⟩ := hunits res hres
    exact ⟨lengths.raise precision res scoreUnit, by rw [Lengths.measure, hunit]; rfl⟩
  obtain ⟨benchPrefixes, hprefixes, _⟩ := exists_denseClassNames toLowerCase hwell
  obtain ⟨lengths, hlengths⟩ := exists_foldlM_eq_ok hmeasure (Lengths.start labels)
  rw [writeOut, measureColumns, mapM_eq_ok hbench, ok_bind, hprefixes, ok_bind, hlengths]
  exact ⟨_, rfl⟩

end Lines

/-! ## An error of zero -/

/-- A result whose scores are exact. -/
def zeroError : PrintedResult :=
  { params := ⟨some "Bench", .averageTime, ⟨∅⟩⟩, sampleCount := 5, baseScore := some 1,
    baseScoreError := some 0, patchScore := some 1, patchScoreError := some 0, diff := 0,
    scoreUnit := some "ns/op" }

def defaultLabels : Labels := ⟨"Base", "Patch"⟩

theorem aligned_writeOut_iff_zeroError :
    ∃ lines, writeOut asciiLowerCase 5 true [zeroError] defaultLabels = .ok lines ∧
      (Aligned lines ↔ (true = true →
        ErrorsFit 5 [(zeroError.baseScore, zeroError.baseScoreError)] ∧
        ErrorsFit 5 [(zeroError.patchScore, zeroError.patchScoreError)])) := by
  obtain ⟨lines, h⟩ : ∃ lines,
      writeOut asciiLowerCase 5 true [zeroError] defaultLabels = .ok lines := by
    apply exists_writeOut
    · exact List.forall_mem_singleton.mpr ⟨"Bench", rfl, by decide⟩
    · exact List.forall_mem_singleton.mpr ⟨"ns/op", rfl⟩
  exact ⟨lines, h, aligned_writeOut_iff h⟩

/-- With five decimals the row of an error of zero is longer than the header. -/
theorem not_forall_aligned_writeOut :
    ¬ ∀ (toLowerCase : Units → Units) (precision : ℕ) (withError : Bool)
      (runResults : List PrintedResult) (labels : Labels) (lines : List Units),
      runResults ≠ [] →
      (∀ first ∈ runResults, ∀ second ∈ runResults,
        first.params.paramsKeys = second.params.paramsKeys) →
      writeOut toLowerCase precision withError runResults labels = .ok lines → Aligned lines := by
  intro hall
  have hlengths : (writeOut asciiLowerCase 5 true [zeroError] defaultLabels).toOption.map
      (List.map List.length) = some [67, 69] := by decide +kernel
  cases hlines : writeOut asciiLowerCase 5 true [zeroError] defaultLabels with
  | error failure =>
      rw [hlines] at hlengths
      cases hlengths
  | ok lines =>
      have haligned : Aligned lines :=
        hall asciiLowerCase 5 true [zeroError] defaultLabels lines (List.cons_ne_nil _ _) (by simp)
          hlines
      rw [hlines] at hlengths
      have hmap : lines.map List.length = [67, 69] := Option.some.inj hlengths
      have hsame : ∀ n ∈ [67, 69], ∀ m ∈ [67, 69], n = m := by
        rw [← hmap, List.forall_mem_map]
        exact fun first hfirst => List.forall_mem_map.mpr (haligned first hfirst)
      exact absurd (hsame 67 (by simp) 69 (by simp)) (by decide)

end Colata.BenchmarkCompare
