/-
# The orders of the rows

The results of a directory are sorted by their keys, because all rows of a file have the same
parameter names, so that the comparator of the `TreeSet` never fails on two of them. The other
orders sort them again by the change, and keep the keys in order where it is the same. An order
moves the printed lines, and changes none of them unless packages are nested.
-/

import Colata.BenchmarkCompare.Alignment
import Colata.BenchmarkCompare.ListRows
import Colata.BenchmarkCompare.Listing
import Colata.Math.Machine
import Colata.Math.StableSort

namespace Colata.BenchmarkCompare

open Colata.Java Colata.Math

/-! ## The keys of one file -/

/-- The names of the parameters that the rows under a header have. -/
def paramKeys (columns : HashOrder String) (headerNames : List String) : List String :=
  (assignParams ∅ (paramOrder columns headerNames) ∅ 0).keys

/-- A key of a row under the header. -/
structure KeyShape (columns : HashOrder String) (headerNames : List String)
    (params : BenchmarkParams) : Prop where
  benchmark : params.benchmark.isSome = true ↔ "Benchmark" ∈ headerNames
  keys : params.params.params.keys = paramKeys columns headerNames

section Rows

variable {columns : HashOrder String} {headerNames : List String}

theorem exists_trimmedName_of_foldlM {data : CsvLine} {names : List String}
    {state final : ParamMap × BitVec 32} (h : names.foldlM (addParam data) state = .ok final) :
    ∀ name ∈ names.filter isParam, ∃ trimmed, trimmedName name = some trimmed := by
  induction names generalizing state with
  | nil => exact fun name hname => absurd hname List.not_mem_nil
  | cons name names ih =>
      rw [List.foldlM_cons] at h
      obtain ⟨next, hnext, hrest⟩ := bind_eq_ok.mp h
      intro other hother
      obtain ⟨hmem, hparam⟩ := List.mem_filter.mp hother
      rcases List.mem_cons.mp hmem with rfl | hlater
      · rw [addParam, if_pos hparam] at hnext
        cases htrimmed : trimmedName other with
        | none =>
            rw [htrimmed] at hnext
            cases hnext
        | some trimmed => exact ⟨trimmed, rfl⟩
      · exact ih hrest other (List.mem_filter.mpr ⟨hlater, hparam⟩)

theorem readFields_keyShape {valueId : BitVec 32} {values : List String}
    {row : (BenchmarkParams × CsvLine) × BitVec 32}
    (h : readFields columns headerNames valueId values = .ok row) :
    KeyShape columns headerNames row.1.1 := by
  obtain ⟨data, hdata, h⟩ := bind_eq_ok.mp h
  obtain ⟨⟨map, next⟩, hmap, h⟩ := bind_eq_ok.mp h
  obtain ⟨mode, -, h⟩ := bind_eq_ok.mp h
  cases h
  have hkeys : data.keys = insertedKeys headerNames [] := keys_lineData hdata
  constructor
  · show (data.lookup "Benchmark").isSome = true ↔ _
    rw [AList.lookup_isSome, AList.mem_keys, hkeys, mem_insertedKeys]
    simp
  · rw [foldlM_addParam data _ ∅ valueId (exists_trimmedName_of_foldlM hmap)] at hmap
    cases hmap
    rw [hkeys]
    exact keys_assignParams data ∅ _ _ _ rfl

theorem addRow_keyShape (state : CsvFile × BitVec 32) (line : String)
    (next : CsvFile × BitVec 32)
    (hstate : ∀ params ∈ state.1.keys, KeyShape columns headerNames params)
    (h : addRow columns headerNames state line = .ok next) :
    ∀ params ∈ next.1.keys, KeyShape columns headerNames params := by
  rw [addRow] at h
  split_ifs at h with hblank
  · cases h
    exact hstate
  · obtain ⟨row, hrow, h⟩ := bind_eq_ok.mp h
    cases h
    intro params hparams
    rcases HashMap.mem_put.mp (AList.mem_keys.mpr hparams) with rfl | hold
    · exact readFields_keyShape hrow
    · exact hstate params hold

/-- All keys of a file have the shape that the header gives them. -/
theorem readCsv_keyShape {path : Option CsvPath} {file : CsvFile}
    (h : readCsv columns path = .ok file) :
    ∃ headerNames, ∀ params ∈ file.keys, KeyShape columns headerNames params := by
  cases path with
  | none => cases h
  | some path =>
      rw [readCsv] at h
      cases hlines : lines path.text with
      | nil =>
          rw [hlines] at h
          cases h
      | cons header rows =>
          rw [hlines] at h
          obtain ⟨state, hstate, h⟩ := bind_eq_ok.mp h
          cases h
          exact ⟨parseCsvLine header, inv_of_foldlM_eq_ok addRow_keyShape
            (fun params hparams => absurd hparams (AList.notMem_empty params)) hstate⟩

end Rows

/-! ## The results -/

section Results

variable {columns : HashOrder String} {rows : HashOrder BenchmarkParams}

/-- The first result is compared with itself, which takes its benchmark. -/
theorem benchmark_of_addResult_nil {baseFile patchFile : CsvFile} {params : BenchmarkParams}
    {results : List RunResult} (h : addResult baseFile patchFile [] params = .ok results) :
    params.benchmark.isSome = true := by
  obtain ⟨base, -, h⟩ := bind_eq_ok.mp h
  obtain ⟨runResult, hjoin, h⟩ := bind_eq_ok.mp h
  obtain ⟨patch, -, hjoined⟩ := joinRow_eq_ok_iff.mp hjoin
  cases hbenchmark : params.benchmark with
  | some name => rfl
  | none =>
      rw [TreeSet.add, if_pos List.isEmpty_nil, sortComparator, BenchmarkParams.compareTo,
        hjoined.runParams, hbenchmark] at h
      simp [Except.map] at h

/-- Whatever the files hold, the results are sorted by their keys. -/
theorem sorted_of_readCsvFiles {csvPaths : List CsvPath} {results : List RunResult}
    (h : readCsvFiles columns rows csvPaths = .ok results) :
    results.Pairwise fun first second => resultOrder first second = .lt := by
  obtain ⟨baseFile, hbase, h⟩ := bind_eq_ok.mp h
  obtain ⟨patchFile, -, h⟩ := bind_eq_ok.mp h
  obtain ⟨headerNames, hshape⟩ := readCsv_keyShape hbase
  have hshapes : ∀ params ∈ rows.order baseFile.keys, KeyShape columns headerNames params :=
    fun params hparams => hshape params ((rows.perm _).mem_iff.mp hparams)
  cases hlist : rows.order baseFile.keys with
  | nil =>
      rw [hlist] at h
      cases h
      exact List.Pairwise.nil
  | cons params list =>
      rw [hlist] at h hshapes
      have hheader : "Benchmark" ∈ headerNames := by
        obtain ⟨next, hnext, -⟩ := bind_eq_ok.mp (List.foldlM_cons.symm.trans h)
        exact (hshapes params List.mem_cons_self).benchmark.mp (benchmark_of_addResult_nil hnext)
      apply pairwise_of_foldlM_eq_ok h
      intro first hfirst second hsecond
      have hfirst := hshapes first hfirst
      have hsecond := hshapes second hsecond
      obtain ⟨name, hname⟩ := Option.isSome_iff_exists.mp (hfirst.benchmark.mpr hheader)
      obtain ⟨other, hother⟩ := Option.isSome_iff_exists.mp (hsecond.benchmark.mpr hheader)
      exact BenchmarkParams.compareTo_of_keys_eq hname hother (hfirst.keys.trans hsecond.keys.symm)

/-- How the rows of an order follow each other. -/
def Order.Precedes (order : Order) (first second : RunResult) : Prop :=
  match order with
  | .alpha => resultOrder first second = .lt
  | .ascending => first.primaryResult.diff ≤ second.primaryResult.diff ∧
      (first.primaryResult.diff = second.primaryResult.diff → resultOrder first second = .lt)
  | .descending => second.primaryResult.diff ≤ first.primaryResult.diff ∧
      (first.primaryResult.diff = second.primaryResult.diff → resultOrder first second = .lt)

theorem pairwise_reorder (order : Order) {results : List RunResult}
    (h : results.Pairwise fun first second => resultOrder first second = .lt) :
    (reorder order results).Pairwise order.Precedes := by
  cases order with
  | alpha => exact h
  | ascending => exact pairwise_mergeSort_key (·.primaryResult.diff) (fun _ _ _ _ => rfl) h
  | descending =>
      refine (pairwise_mergeSort_key (fun result => OrderDual.toDual result.primaryResult.diff)
        (fun _ _ _ _ => rfl) h).imp ?_
      intro a b hab
      exact ⟨hab.1, fun heq => hab.2 heq⟩

/-- For every directory that is read, the order lists all of its results, by the change and then
by the key. -/
theorem reorder_readListing (order : Order) {listing : List CsvPath} {results : List RunResult}
    (h : readListing columns rows listing = .ok results) :
    (reorder order results).Perm results ∧ (reorder order results).Pairwise order.Precedes :=
  ⟨reorder_perm order results, pairwise_reorder order (sorted_of_readCsvFiles h)⟩

/-- Two results that do not change. -/
theorem reorder_readListing_samePath :
    ∃ results, readListing bucketOrder insertionOrder [basePath, samePath] = .ok results ∧
      results.length = 2 ∧ (reorder .descending results).Perm results ∧
      (reorder .descending results).Pairwise (Order.Precedes .descending) := by
  have hbase : labelCsvPaths (csvPaths [basePath, samePath]) .base = some basePath := rfl
  have hpatch : labelCsvPaths (csvPaths [basePath, samePath]) .patch = some samePath := rfl
  have hnamed : ParamsNamed smallHeader := by decide +kernel
  have hfits : ∀ row ∈ [smallRow "2.5" "1", smallRow "5" "2"], row.Fits smallHeader :=
    fun _ => fits_of_tableOf tableOf_sameOrder
  have hcount : 2 * (paramColumns smallHeader).length ≤ 2 ^ 31 := by decide +kernel
  -- The tables of the two files decide what is listed, so that no line is read here.
  obtain ⟨results, hresults, entries, hperm, -, hjoins⟩ :=
    listsRows_of_tags hnamed (by decide +kernel) (sameRows_self _ _) hfits hfits
      (by decide +kernel) insertionOrder (fun _ _ _ => rfl) (tagsGrow_of_length_mul_le hcount)
  rw [← readCsvFiles_eq_listOutcome bucketOrder insertionOrder hbase hpatch tableOf_sameOrder
    tableOf_sameOrder hnamed hnamed] at hresults
  have hlength : results.length = 2 := by
    rw [← hjoins.length_eq, hperm.length_eq]
    rfl
  exact ⟨results, hresults, hlength, reorder_readListing .descending hresults⟩

end Results

/-! ## The printed lines -/

/-- Layouts in which every line comes out the same. -/
structure Layout.Alike (first second : Layout) : Prop where
  lookup : ∀ s, first.benchPrefixes.lookup s = second.benchPrefixes.lookup s
  nameLen : first.nameLen = second.nameLen
  params : first.params = second.params
  len : ∀ k, first.paramScan.len k = second.paramScan.len k
  lengths : first.lengths = second.lengths

section Alike

variable {first second : Layout}

theorem Layout.Alike.header_eq (h : first.Alike second) (withError : Bool) (labels : Labels) :
    header withError labels first = header withError labels second := by
  simp only [header, h.nameLen, h.params, h.len, h.lengths]

theorem Layout.Alike.row_eq (h : first.Alike second) (precision : ℕ) (withError : Bool)
    (pRes : PrintedResult) :
    row precision withError first pRes = row precision withError second pRes := by
  have hname : rowName first pRes = rowName second pRes := by
    have hlookup : first.benchPrefixes.lookup = second.benchPrefixes.lookup := funext h.lookup
    rw [rowName, rowName, hlookup]
  simp only [row, hname, h.nameLen, h.params, h.len, h.lengths]

end Alike

section Permuted

variable {precision : ℕ} {labels : Labels} {results other : List PrintedResult}

/-- Equal labels are equally long. -/
theorem measureNames_eq {left right : HashMap Units Units}
    (h : ∀ s, left.lookup s = right.lookup s) : measureNames left = measureNames right := by
  have hmem : ∀ entry, entry ∈ left.entries ↔ entry ∈ right.entries := by
    rintro ⟨s, dense⟩
    rw [← AList.mem_lookup_iff, ← AList.mem_lookup_iff, h]
  apply eq_of_forall_le_iff
  intro bound
  simp only [le_measureNames_iff, hmem]

theorem len_scanParams_eq (hperm : other.Perm results) (k : String) :
    (scanParams other).len k = (scanParams results).len k := by
  apply eq_of_forall_le_iff
  intro bound
  simp only [le_len_scanParams_iff, List.mem_flatMap, hperm.mem_iff]

theorem mem_foldl_add {scan : ParamScan} {entries : List (BenchmarkParams × String)} {k : String} :
    k ∈ (entries.foldl ParamScan.add scan).params ↔
      k ∈ scan.params ∨ ∃ entry ∈ entries, entry.2 = k := by
  induction entries generalizing scan with
  | nil => simp
  | cons entry entries ih =>
      rw [List.foldl_cons, ih, ParamScan.add, Std.ExtTreeSet.mem_insert, List.exists_mem_cons_iff,
        Std.LawfulEqCmp.compare_eq_iff_eq]
      tauto

theorem params_scanParams_eq (hperm : other.Perm results) :
    (scanParams other).params = (scanParams results).params := by
  apply Std.ExtTreeSet.ext_mem
  intro k
  rw [scanParams, scanParams, ← List.foldl_flatMap, ← List.foldl_flatMap, mem_foldl_add,
    mem_foldl_add]
  simp only [List.mem_flatMap, hperm.mem_iff]

/-- The lengths of the columns are maxima over the results. -/
theorem lengths_eq {first second : Lengths} (hperm : other.Perm results)
    (hfirst : other.foldlM (Lengths.measure precision) (Lengths.start labels) = .ok first)
    (hsecond : results.foldlM (Lengths.measure precision) (Lengths.start labels) = .ok second) :
    first = second := by
  have hsame : ∀ (len : Lengths → ℕ) (text : PrintedResult → Units),
      (∀ (lengths : Lengths) (res : PrintedResult) (scoreUnit : String),
        res.scoreUnit = some scoreUnit →
        len (lengths.raise precision res scoreUnit) = max (len lengths) (text res).length) →
      len first = len second := by
    intro len text hraise
    have hstep : ∀ (state : Lengths) (res : PrintedResult) (next : Lengths),
        state.measure precision res = .ok next →
        len next = max (len state) (text res).length := by
      intro state res next hnext
      obtain ⟨scoreUnit, hunit, rfl⟩ := Lengths.measure_eq_ok hnext
      exact hraise state res scoreUnit hunit
    apply eq_of_forall_le_iff
    intro bound
    rw [le_foldlM_iff len (fun res => (text res).length) hstep hfirst,
      le_foldlM_iff len (fun res => (text res).length) hstep hsecond]
    simp only [hperm.mem_iff]
  have hmode := hsame Lengths.modeLen _ fun _ _ _ _ => rfl
  have hsamples := hsame Lengths.samplesLen _ fun _ _ _ _ => rfl
  have hbase := hsame Lengths.baseScoreLen _ fun _ _ _ _ => rfl
  have hbaseErr := hsame Lengths.baseScoreErrLen _ fun _ _ _ _ => rfl
  have hpatch := hsame Lengths.patchScoreLen _ fun _ _ _ _ => rfl
  have hpatchErr := hsame Lengths.patchScoreErrLen _ fun _ _ _ _ => rfl
  have hunit := hsame Lengths.unitLen (fun res => utf16 (res.scoreUnit.getD "")) (by
    intro lengths res scoreUnit hunit
    rw [hunit]
    rfl)
  have hdiff := hsame Lengths.diffLen _ fun _ _ _ _ => rfl
  cases first
  cases second
  rw [Lengths.mk.injEq]
  exact ⟨hmode, hsamples, hbase, hbaseErr, hpatch, hpatchErr, hunit, hdiff⟩

end Permuted

section WriteOut

variable {toLowerCase : Units → Units} {precision : ℕ} {withError : Bool} {labels : Labels}
  {results other : List PrintedResult}

/-- The names that are shortened. -/
def printedNames (results : List PrintedResult) : List Units :=
  results.map fun res => utf16 (res.params.benchmark.getD "")

/-- The results have well-formed names, none of whose packages are nested, and units. -/
structure Printable (toLowerCase : Units → Units) (results : List PrintedResult) : Prop where
  names : ∀ res ∈ results, ∃ name, res.params.benchmark = some name ∧ WellNamed (utf16 name)
  units : ∀ res ∈ results, ∃ scoreUnit, res.scoreUnit = some scoreUnit
  notNested : ¬Nested toLowerCase (printedNames results)

theorem Printable.of_perm (h : Printable toLowerCase results) (hperm : other.Perm results) :
    Printable toLowerCase other := by
  constructor
  · exact fun res hres => h.names res (hperm.mem_iff.mp hres)
  · exact fun res hres => h.units res (hperm.mem_iff.mp hres)
  · have hnames : (printedNames other).Perm (printedNames results) := hperm.map _
    rw [nested_iff_of_perm toLowerCase hnames]
    exact h.notNested

theorem Printable.wellNamed (h : Printable toLowerCase results) :
    ∀ s ∈ printedNames results, WellNamed s := by
  rw [printedNames, List.forall_mem_map]
  intro res hres
  obtain ⟨name, hname, hwell⟩ := h.names res hres
  rwa [hname]

/-- What is measured of printable results. -/
theorem Printable.exists_layout (h : Printable toLowerCase results) (precision : ℕ)
    (labels : Labels) :
    ∃ layout lengths,
      denseClassNames toLowerCase (printedNames results) = .ok layout.benchPrefixes ∧
      results.foldlM (Lengths.measure precision) (Lengths.start labels) = .ok lengths ∧
      layout = ⟨layout.benchPrefixes, measureNames layout.benchPrefixes, scanParams results,
        lengths.pad⟩ ∧
      measureColumns toLowerCase precision results labels = .ok layout := by
  have hbench : ∀ res ∈ results, benchName res = .ok (utf16 (res.params.benchmark.getD "")) := by
    intro res hres
    obtain ⟨name, hname, -⟩ := h.names res hres
    rw [benchName, hname]
    rfl
  have hmeasure : ∀ res ∈ results, ∀ lengths : Lengths,
      ∃ next, lengths.measure precision res = .ok next := by
    intro res hres lengths
    obtain ⟨scoreUnit, hunit⟩ := h.units res hres
    exact ⟨lengths.raise precision res scoreUnit, by rw [Lengths.measure, hunit]; rfl⟩
  obtain ⟨benchPrefixes, hprefixes, -⟩ := exists_denseClassNames toLowerCase h.wellNamed
  obtain ⟨lengths, hlengths⟩ := exists_foldlM_eq_ok hmeasure (Lengths.start labels)
  refine ⟨⟨benchPrefixes, measureNames benchPrefixes, scanParams results, lengths.pad⟩, lengths,
    hprefixes, hlengths, rfl, ?_⟩
  rw [printedNames] at hprefixes
  rw [measureColumns, mapM_eq_ok hbench, ok_bind, hprefixes, ok_bind, hlengths, ok_bind]

/-- Other orders of the results lead to alike layouts. -/
theorem Printable.alike (h : Printable toLowerCase results) (hperm : other.Perm results)
    {first second : Layout}
    (hfirst : measureColumns toLowerCase precision other labels = .ok first)
    (hsecond : measureColumns toLowerCase precision results labels = .ok second) :
    first.Alike second := by
  obtain ⟨layout, lengths, hprefixes, hlengths, hparts, hlayout⟩ :=
    (h.of_perm hperm).exists_layout precision labels
  obtain ⟨layout', lengths', hprefixes', hlengths', hparts', hlayout'⟩ :=
    h.exists_layout precision labels
  obtain rfl : layout = first := Except.ok.inj (hlayout.symm.trans hfirst)
  obtain rfl : layout' = second := Except.ok.inj (hlayout'.symm.trans hsecond)
  obtain ⟨left, right, hleft, hright, hlookup⟩ :=
    sameLabels_of_perm toLowerCase h.wellNamed h.notNested (hperm.map _)
  obtain rfl : layout'.benchPrefixes = left := Except.ok.inj (hprefixes'.symm.trans hleft)
  obtain rfl : layout.benchPrefixes = right := Except.ok.inj (hprefixes.symm.trans hright)
  rw [hparts, hparts']
  constructor
  · exact fun s => (hlookup s).symm
  · exact (measureNames_eq hlookup).symm
  · exact congrArg Std.ExtTreeSet.toList (params_scanParams_eq hperm)
  · exact len_scanParams_eq hperm
  · exact congrArg Lengths.pad (lengths_eq hperm hlengths hlengths')

/-- The same results in any order have the same header, and each has its line. -/
theorem Printable.exists_lines (h : Printable toLowerCase results) (precision : ℕ)
    (withError : Bool) (labels : Labels) :
    ∃ (head : Units) (line : PrintedResult → Units), ∀ other : List PrintedResult,
      other.Perm results →
      writeOut toLowerCase precision withError other labels = .ok (head :: other.map line) := by
  obtain ⟨layout, -, -, -, -, hlayout⟩ := h.exists_layout precision labels
  refine ⟨printed (header withError labels layout),
    fun pRes => printed (row precision withError layout pRes), ?_⟩
  intro other hperm
  obtain ⟨layout', -, -, -, -, hlayout'⟩ := (h.of_perm hperm).exists_layout precision labels
  have halike := h.alike hperm hlayout' hlayout
  have hrow : row precision withError layout' = row precision withError layout :=
    funext (halike.row_eq precision withError)
  rw [writeOut, hlayout', ok_bind, halike.header_eq, hrow]
  dsimp only
  rw [List.map_cons, List.map_map]
  rfl

end WriteOut

/-- An order moves the lines of the results, and neither it nor the sorting changes any of them,
however the scores are shown, if no packages are nested. -/
theorem writeOut_reorder (toLowerCase : Units → Units) (precision : ℕ) (withError : Bool)
    (labels : Labels) (shown : RunResult → PrintedResult) {results : List RunResult}
    (h : Printable toLowerCase (results.map shown)) :
    ∃ (head : Units) (line : PrintedResult → Units), ∀ order : Order,
      writeOut toLowerCase precision withError ((reorder order results).map shown) labels =
        .ok (head :: ((reorder order results).map shown).map line) := by
  obtain ⟨head, line, hlines⟩ := h.exists_lines precision withError labels
  exact ⟨head, line, fun order => hlines _ ((reorder_perm order results).map shown)⟩

/-- A result of the benchmark whose score of four has become `patchScore`. -/
def resultOf (benchmark : String) (patchScore : ℕ) : RunResult :=
  let params : BenchmarkParams := ⟨some benchmark, .averageTime, ⟨∅⟩⟩
  ⟨params, ⟨params, 5, 4, 0, .ofNat patchScore, 0, 25 * (patchScore - 4), some "ns/op"⟩⟩

/-- The first result gets faster, the second one slower. -/
def changedResults : List RunResult := [resultOf "a.Fast" 5, resultOf "a.Slow" 3]

/-- The result with its scores, as they are exactly. -/
def shownResult (runResult : RunResult) : PrintedResult :=
  { params := runResult.params
    sampleCount := runResult.primaryResult.sampleCount
    baseScore := some 4
    baseScoreError := some 0
    patchScore := some (4 + runResult.primaryResult.diff / 25)
    patchScoreError := some 0
    diff := runResult.primaryResult.diff
    scoreUnit := runResult.primaryResult.scoreUnit }

theorem printable_changedResults : Printable asciiLowerCase (changedResults.map shownResult) := by
  constructor
  · intro res hres
    simp only [changedResults, List.map_cons, List.map_nil, List.mem_cons, List.not_mem_nil,
      or_false] at hres
    rcases hres with rfl | rfl
    · exact ⟨"a.Fast", rfl, by decide⟩
    · exact ⟨"a.Slow", rfl, by decide⟩
  · intro res hres
    obtain ⟨runResult, hrun, rfl⟩ := List.mem_map.mp hres
    simp only [changedResults, List.mem_cons, List.not_mem_nil, or_false] at hrun
    rcases hrun with rfl | rfl
    · exact ⟨"ns/op", rfl⟩
    · exact ⟨"ns/op", rfl⟩
  · rintro ⟨s, hs, _, _, t, ht, hne⟩
    have hsame : ∀ name ∈ printedNames (changedResults.map shownResult),
        packageOf asciiLowerCase name = [utf16 "a"] := by decide
    exact hne ((hsame t ht).trans (hsame s hs).symm)

/-- In the order of the change the same two lines stand the other way round. -/
theorem writeOut_reorder_changedResults :
    ∃ head first second : Units,
      writeOut asciiLowerCase 3 true ((reorder .alpha changedResults).map shownResult)
        defaultLabels = .ok [head, first, second] ∧
      writeOut asciiLowerCase 3 true ((reorder .ascending changedResults).map shownResult)
        defaultLabels = .ok [head, second, first] := by
  obtain ⟨head, line, hlines⟩ :=
    writeOut_reorder asciiLowerCase 3 true defaultLabels shownResult printable_changedResults
  have hascending : reorder .ascending changedResults =
      [resultOf "a.Slow" 3, resultOf "a.Fast" 5] := by
    simp [reorder, changedResults, resultOf, List.mergeSort]
  refine ⟨head, line (shownResult (resultOf "a.Fast" 5)), line (shownResult (resultOf "a.Slow" 3)),
    hlines .alpha, ?_⟩
  rw [hlines .ascending, hascending]
  rfl

end Colata.BenchmarkCompare
