/-
# Joining by key

Files whose rows have the same keys should be joined key by key, in whatever order
their rows stand. The order tags in the stored keys get in the way: a base row meets
the patch row with its key only if the counter stood at the same value for both.
With parameter columns, and short of the counter wrapping round, this means that
both files list their keys in the same order.
-/

import Colata.BenchmarkCompare.Rows
import Mathlib.Data.List.Sort

namespace Colata.BenchmarkCompare

open Colata.Java Colata.Math

/-! ## What joining by key means -/

/-- The result that joins these two lines under the given parameters. -/
structure Joined (params : BenchmarkParams) (baseValues patchValues : CsvLine)
    (runResult : RunResult) : Prop where
  runParams : runResult.params = params
  resultParams : runResult.primaryResult.params = params
  baseScore : doubleCell baseValues "Score" = .ok runResult.primaryResult.baseScore
  baseScoreError :
    doubleCell baseValues "Score Error (99.9%)" = .ok runResult.primaryResult.baseScoreError
  patchScore : doubleCell patchValues "Score" = .ok runResult.primaryResult.patchScore
  patchScoreError :
    doubleCell patchValues "Score Error (99.9%)" = .ok runResult.primaryResult.patchScoreError
  sampleCount : longCell baseValues "Samples" = .ok runResult.primaryResult.sampleCount
  diff : runResult.primaryResult.diff =
    diffOf runResult.primaryResult.baseScore runResult.primaryResult.patchScore
  scoreUnit : runResult.primaryResult.scoreUnit = baseValues.lookup "Unit"

/-- The result joins these two rows: it shows the key of the base row and the numbers of
both. -/
structure IsJoin (header : List String) (base patch : Row) (runResult : RunResult) : Prop where
  benchmark : runResult.params.benchmark = some base.key.benchmark
  mode : runResult.params.mode = base.key.mode
  values : ∀ name ∈ paramColumns header, ∀ trimmed, trimmedName name = some trimmed →
    runResult.params.params.params[trimmed]?.map Value.value = base.data.lookup name
  cells : Joined runResult.params base.data patch.data runResult

/-- The order of the results, by their keys. -/
def resultOrder (first second : RunResult) : Ordering :=
  BenchmarkParams.order first.params second.params

instance : Std.TransCmp resultOrder :=
  inferInstanceAs (Std.TransCmp
    (compareLex (compareOn fun result : RunResult => result.params.mode.ordinal)
      (compareLex (compareOn fun result : RunResult => utf16 (result.params.benchmark.getD ""))
        (compareOn fun result : RunResult => result.params.params.orders))))

/-- The comparison succeeds with one result for every base row, which joins it with the patch
row that has its key. The results stand in the order of their keys. -/
def JoinsByKey (header : List String) (baseRows patchRows : List Row)
    (outcome : Except Failure (List RunResult)) : Prop :=
  ∃ results, outcome = .ok results ∧
    results.Pairwise (fun first second => resultOrder first second = .lt) ∧
    ∃ joined : List Row, joined.Perm baseRows ∧
      List.Forall₂ (fun base runResult => ∃ patch ∈ patchRows, base.key = patch.key ∧
        IsJoin header base patch runResult) joined results

/-- The cells the comparison reads as numbers are numbers. -/
structure NumbersReadable (baseRows patchRows : List Row) : Prop where
  baseScore : ∀ row ∈ baseRows, ∃ x, doubleCell row.data "Score" = .ok x
  baseScoreError : ∀ row ∈ baseRows, ∃ x, doubleCell row.data "Score Error (99.9%)" = .ok x
  sampleCount : ∀ row ∈ baseRows, ∃ n, longCell row.data "Samples" = .ok n
  patchScore : ∀ row ∈ patchRows, ∃ x, doubleCell row.data "Score" = .ok x
  patchScoreError : ∀ row ∈ patchRows, ∃ x, doubleCell row.data "Score Error (99.9%)" = .ok x

theorem exists_eq_ok_iff {α : Type} {outcome : Except Failure α} :
    (∃ value, outcome = .ok value) ↔ outcome.toBool = true := by
  cases outcome with
  | error failure => simp [Except.toBool]
  | ok value => simp [Except.toBool]

instance (baseRows patchRows : List Row) : Decidable (NumbersReadable baseRows patchRows) :=
  decidable_of_iff
    ((∀ row ∈ baseRows, (doubleCell row.data "Score").toBool = true ∧
        (doubleCell row.data "Score Error (99.9%)").toBool = true ∧
        (longCell row.data "Samples").toBool = true) ∧
      ∀ row ∈ patchRows, (doubleCell row.data "Score").toBool = true ∧
        (doubleCell row.data "Score Error (99.9%)").toBool = true) (by
    simp only [← exists_eq_ok_iff]
    constructor
    · exact fun h => ⟨fun row hrow => (h.1 row hrow).1, fun row hrow => (h.1 row hrow).2.1,
        fun row hrow => (h.1 row hrow).2.2, fun row hrow => (h.2 row hrow).1,
        fun row hrow => (h.2 row hrow).2⟩
    · exact fun h => ⟨fun row hrow => ⟨h.baseScore row hrow, h.baseScoreError row hrow,
        h.sampleCount row hrow⟩, fun row hrow => ⟨h.patchScore row hrow, h.patchScoreError row hrow⟩⟩)

/-- Equal keys come with equal tags, and within a benchmark and mode the tags differ. -/
structure TagsAgree (header : List String) (baseRows patchRows : List Row) : Prop where
  same : ∀ (index other : ℕ) (base patch : Row), baseRows[index]? = some base →
    patchRows[other]? = some patch → base.key = patch.key →
      rowTag header index = rowTag header other
  apart : ∀ (index other : ℕ) (first second : Row), baseRows[index]? = some first →
    baseRows[other]? = some second → first.key.benchmark = second.key.benchmark →
      first.key.mode = second.key.mode → rowTag header index = rowTag header other →
        index = other

/-- The rows of two files with this header and the same distinct keys. -/
structure Matching (header : List String) (baseRows patchRows : List Row) : Prop where
  named : ParamsNamed header
  baseFits : ∀ row ∈ baseRows, row.Fits header
  patchFits : ∀ row ∈ patchRows, row.Fits header
  nodup : (baseRows.map Row.key).Nodup
  perm : (baseRows.map Row.key).Perm (patchRows.map Row.key)

/-! ## Finding rows by key -/

/-- In rows that a function tells apart its value determines the position. -/
theorem index_eq_of_map_nodup {α : Type} {f : Row → α} {rows : List Row}
    (hnodup : (rows.map f).Nodup) {index other : ℕ} {first second : Row}
    (hfirst : rows[index]? = some first) (hsecond : rows[other]? = some second)
    (heq : f first = f second) : index = other := by
  have hlt : index < (rows.map f).length := by
    rw [List.length_map]
    exact (List.getElem?_eq_some_iff.mp hfirst).1
  apply (List.getElem?_inj hlt hnodup).mp
  rw [List.getElem?_map, List.getElem?_map, hfirst, hsecond, Option.map_some, Option.map_some,
    heq]

section Store

variable {columns : HashOrder String} {header : List String}

theorem mem_storeRows {rows : List Row} {start : ℕ} {file : CsvFile} {params : BenchmarkParams} :
    params ∈ storeRows columns header start rows file ↔
      (∃ (index : ℕ) (row : Row), rows[index]? = some row ∧
        params = paramsAt columns header (start + index) row) ∨ params ∈ file := by
  induction rows generalizing start file with
  | nil => simp [storeRows]
  | cons first rows ih =>
      rw [storeRows, ih, HashMap.mem_put]
      constructor
      · intro h
        rcases h with ⟨index, row, hrow, heq⟩ | heq | hmem
        · exact Or.inl ⟨index + 1, row, hrow, by rw [heq, Nat.add_right_comm, Nat.add_assoc]⟩
        · exact Or.inl ⟨0, first, rfl, heq⟩
        · exact Or.inr hmem
      · intro h
        rcases h with ⟨index, row, hrow, heq⟩ | hmem
        · cases index with
          | zero =>
              obtain rfl : first = row := Option.some.inj hrow
              exact Or.inr (Or.inl heq)
          | succ index =>
              exact Or.inl ⟨index, row, hrow, by rw [heq, Nat.add_right_comm, Nat.add_assoc]⟩
        · exact Or.inr (Or.inr hmem)

theorem lookup_storeRows_of_forall_ne {rows : List Row} {start : ℕ} {file : CsvFile}
    {params : BenchmarkParams}
    (h : ∀ (index : ℕ) (row : Row), rows[index]? = some row →
      params ≠ paramsAt columns header (start + index) row) :
    (storeRows columns header start rows file).lookup params = file.lookup params := by
  induction rows generalizing start file with
  | nil => rfl
  | cons first rows ih =>
      rw [storeRows, ih, HashMap.lookup_put, if_neg (by simpa using h 0 first rfl)]
      intro index row hrow
      rw [Nat.add_right_comm, Nat.add_assoc]
      exact h (index + 1) row hrow

/-- The line stored under the parameters of a row is that of the row, if no later row has
the same parameters. -/
theorem lookup_storeRows_of_apart (columns : HashOrder String) (header : List String)
    {rows : List Row} (start : ℕ) (file : CsvFile) {index : ℕ} {row : Row}
    (hrow : rows[index]? = some row)
    (hapart : ∀ (later : ℕ) (other : Row), rows[later]? = some other → index < later →
      paramsAt columns header (start + index) row ≠ paramsAt columns header (start + later) other) :
    (storeRows columns header start rows file).lookup
      (paramsAt columns header (start + index) row) = some row.data := by
  induction rows generalizing start file index with
  | nil => cases hrow
  | cons first rows ih =>
      cases index with
      | zero =>
          obtain rfl : first = row := Option.some.inj hrow
          rw [storeRows, lookup_storeRows_of_forall_ne, Nat.add_zero, HashMap.lookup_put,
            if_pos rfl]
          intro later other hother
          rw [Nat.add_right_comm, Nat.add_assoc]
          exact hapart (later + 1) other hother (Nat.succ_pos later)
      | succ index =>
          rw [storeRows, ← Nat.add_assoc, Nat.add_right_comm]
          refine ih _ _ hrow fun later other hother hlater => ?_
          rw [Nat.add_right_comm, Nat.add_right_comm start 1]
          exact hapart (later + 1) other hother (Nat.succ_lt_succ hlater)

theorem lookup_storeRows (columns : HashOrder String) {rows : List Row} (hnamed : ParamsNamed header)
    (hfits : ∀ row ∈ rows, row.Fits header) (hnodup : (rows.map Row.key).Nodup) (start : ℕ)
    (file : CsvFile) {index : ℕ} {row : Row} (hrow : rows[index]? = some row) :
    (storeRows columns header start rows file).lookup
      (paramsAt columns header (start + index) row) = some row.data := by
  refine lookup_storeRows_of_apart columns header start file hrow
    fun later other hother hlater heq => ?_
  have hkey := ((paramsAt_eq_iff hnamed (hfits row (List.mem_of_getElem? hrow))
    (hfits other (List.mem_of_getElem? hother)) _ _).mp heq).1
  exact absurd (index_eq_of_map_nodup hnodup hrow hother hkey) (Nat.ne_of_lt hlater)

/-- What the map of a file holds. -/
theorem lookup_storeRows_eq_some_iff {rows : List Row} (hnamed : ParamsNamed header)
    (hfits : ∀ row ∈ rows, row.Fits header) (hnodup : (rows.map Row.key).Nodup)
    {params : BenchmarkParams} {data : CsvLine} :
    (storeRows columns header 0 rows ∅).lookup params = some data ↔
      ∃ (index : ℕ) (row : Row), rows[index]? = some row ∧
        params = paramsAt columns header index row ∧ data = row.data := by
  constructor
  · intro h
    have hmem : params ∈ storeRows columns header 0 rows ∅ :=
      AList.lookup_isSome.mp (Option.isSome_iff_exists.mpr ⟨data, h⟩)
    rcases mem_storeRows.mp hmem with ⟨index, row, hrow, heq⟩ | hempty
    · have hstored := lookup_storeRows columns hnamed hfits hnodup 0 ∅ hrow
      rw [← heq, h] at hstored
      rw [Nat.zero_add] at heq
      exact ⟨index, row, hrow, heq, Option.some.inj hstored⟩
    · exact absurd hempty (AList.notMem_empty params)
  · intro h
    obtain ⟨index, row, hrow, rfl, rfl⟩ := h
    have hstored := lookup_storeRows columns hnamed hfits hnodup 0 ∅ hrow
    rwa [Nat.zero_add] at hstored

end Store

/-! ## The loop over the base keys -/

theorem joinRow_eq_ok_iff {params : BenchmarkParams} {baseValues : CsvLine}
    {patchValues : Option CsvLine} {runResult : RunResult} :
    joinRow params baseValues patchValues = .ok runResult ↔
      ∃ data, patchValues = some data ∧ Joined params baseValues data runResult := by
  simp only [joinRow, bind_eq_ok]
  constructor
  · intro h
    obtain ⟨_, hbase, _, hbaseError, data, hdata, _, hpatch, _, hpatchError, _, hsamples, hrun⟩ := h
    cases patchValues with
    | none => cases hdata
    | some found =>
        cases hdata
        cases hrun
        exact ⟨data, rfl, rfl, rfl, hbase, hbaseError, hpatch, hpatchError, hsamples, rfl, rfl⟩
  · intro h
    obtain ⟨data, rfl, h⟩ := h
    refine ⟨_, h.baseScore, _, h.baseScoreError, data, rfl, _, h.patchScore, _, h.patchScoreError,
      _, h.sampleCount, ?_⟩
    rw [← h.diff, ← h.scoreUnit]
    obtain ⟨runParams, result⟩ := runResult
    obtain rfl : runParams = params := h.runParams
    obtain ⟨resultParams, _, _, _, _, _, _, _⟩ := result
    obtain rfl : resultParams = runParams := h.resultParams
    rfl

/-- The numbers of two rows can be joined if they are readable. -/
theorem exists_joined {baseRows patchRows : List Row} (h : NumbersReadable baseRows patchRows)
    {base patch : Row} (hbase : base ∈ baseRows) (hpatch : patch ∈ patchRows)
    (params : BenchmarkParams) : ∃ runResult, Joined params base.data patch.data runResult := by
  obtain ⟨baseScore, hbaseScore⟩ := h.baseScore base hbase
  obtain ⟨baseScoreError, hbaseScoreError⟩ := h.baseScoreError base hbase
  obtain ⟨sampleCount, hsampleCount⟩ := h.sampleCount base hbase
  obtain ⟨patchScore, hpatchScore⟩ := h.patchScore patch hpatch
  obtain ⟨patchScoreError, hpatchScoreError⟩ := h.patchScoreError patch hpatch
  exact ⟨⟨params, params, sampleCount, baseScore, baseScoreError, patchScore, patchScoreError,
    diffOf baseScore patchScore, base.data.lookup "Unit"⟩, rfl, rfl, hbaseScore, hbaseScoreError,
    hpatchScore, hpatchScoreError, hsampleCount, rfl, rfl⟩

theorem exists_mem_of_forall₂ {α β : Type} {rel : α → β → Prop} {left : List α} {right : List β}
    (h : List.Forall₂ rel left right) {x : α} (hx : x ∈ left) : ∃ y ∈ right, rel x y := by
  induction h with
  | nil => cases hx
  | cons hfirst _ ih =>
      rcases List.mem_cons.mp hx with rfl | hrest
      · exact ⟨_, List.mem_cons_self, hfirst⟩
      · obtain ⟨y, hy, hrel⟩ := ih hrest
        exact ⟨y, List.mem_cons_of_mem _ hy, hrel⟩

/-- The result joins what the two files hold under the parameters. -/
def JoinsStored (baseFile patchFile : CsvFile) (params : BenchmarkParams) (runResult : RunResult) :
    Prop :=
  ∃ base patch, baseFile.lookup params = some base ∧ patchFile.lookup params = some patch ∧
    Joined params base patch runResult

theorem map_params_eq_of_forall₂ {baseFile patchFile : CsvFile} {list : List BenchmarkParams}
    {joins : List RunResult} (h : List.Forall₂ (JoinsStored baseFile patchFile) list joins) :
    joins.map RunResult.params = list := by
  induction h with
  | nil => rfl
  | cons hfirst _ ih =>
      obtain ⟨_, _, _, _, hjoined⟩ := hfirst
      rw [List.map_cons, hjoined.runParams, ih]

/-- If the keys that are looped over have joins, the loop succeeds and the results represent
them. -/
theorem foldlM_addResult {baseFile patchFile : CsvFile} {list : List BenchmarkParams}
    (hjoin : ∀ params ∈ list, ∃ runResult, JoinsStored baseFile patchFile params runResult)
    (hcompare : ∀ first ∈ list, ∀ second ∈ list,
      first.compareTo second = .ok (BenchmarkParams.order first second)) :
    ∃ results joins, list.foldlM (addResult baseFile patchFile) [] = .ok results ∧
      List.Forall₂ (JoinsStored baseFile patchFile) list joins ∧
      TreeSet.Represents resultOrder joins results := by
  induction list using List.reverseRecOn with
  | nil => exact ⟨[], [], rfl, List.Forall₂.nil, TreeSet.represents_nil resultOrder⟩
  | append_singleton list params ih =>
      have hlast : params ∈ list ++ [params] := by simp
      obtain ⟨results, joins, hresults, hjoins, hrepresents⟩ := ih
        (fun other hother => hjoin other (List.mem_append_left _ hother))
        (fun first hfirst second hsecond => hcompare first (List.mem_append_left _ hfirst)
          second (List.mem_append_left _ hsecond))
      obtain ⟨runResult, base, patch, hbase, hpatch, hjoined⟩ := hjoin params hlast
      have hcomparator : ∀ other ∈ runResult :: joins,
          sortComparator runResult other = .ok (resultOrder runResult other) := by
        intro other hother
        have hin : other.params ∈ list ++ [params] := by
          rcases List.mem_cons.mp hother with rfl | hmem
          · rwa [hjoined.runParams]
          · rw [← map_params_eq_of_forall₂ hjoins]
            exact List.mem_append_left _ (List.mem_map_of_mem hmem)
        rw [sortComparator, resultOrder, hjoined.runParams]
        exact hcompare params hlast other.params hin
      obtain ⟨next, hnext, hnextRepresents⟩ := hrepresents.add hcomparator
      have hstep : addResult baseFile patchFile results params = .ok next := by
        simp only [addResult, bind_eq_ok]
        refine ⟨base, by rw [hbase]; rfl, runResult, ?_, hnext⟩
        exact joinRow_eq_ok_iff.mpr ⟨patch, hpatch, hjoined⟩
      refine ⟨next, joins ++ [runResult], ?_, ?_, hnextRepresents⟩
      · rw [List.foldlM_append, hresults]
        show List.foldlM (addResult baseFile patchFile) results [params] = .ok next
        rw [List.foldlM_cons, hstep]
        rfl
      · exact List.rel_append hjoins
          (List.Forall₂.cons ⟨base, patch, hbase, hpatch, hjoined⟩ List.Forall₂.nil)

/-- If the loop succeeds, every key has a join. -/
theorem exists_joined_of_foldlM {baseFile patchFile : CsvFile} {list : List BenchmarkParams}
    {start results : List RunResult}
    (h : list.foldlM (addResult baseFile patchFile) start = .ok results)
    {params : BenchmarkParams} (hparams : params ∈ list) :
    ∃ runResult, JoinsStored baseFile patchFile params runResult := by
  induction list generalizing start with
  | nil => cases hparams
  | cons first list ih =>
      rw [List.foldlM_cons, bind_eq_ok] at h
      obtain ⟨next, hstep, hrest⟩ := h
      rcases List.mem_cons.mp hparams with rfl | hmem
      · simp only [addResult, bind_eq_ok] at hstep
        obtain ⟨base, hbase, runResult, hjoin, _⟩ := hstep
        obtain ⟨patch, hpatch, hjoined⟩ := joinRow_eq_ok_iff.mp hjoin
        cases hfound : baseFile.lookup params with
        | none =>
            rw [hfound] at hbase
            cases hbase
        | some found =>
            rw [hfound] at hbase
            cases hbase
            exact ⟨runResult, base, patch, hfound, hpatch, hjoined⟩
      · exact ih hrest hmem

/-! ## Keys and results -/

section Matching

variable {columns : HashOrder String} {header : List String} {baseRows patchRows : List Row}

/-- A result shows the key of the row it joins. -/
theorem key_eq_of_isJoin (hnamed : ParamsNamed header) {first second patch other : Row}
    (hfits : first.Fits header) (hfits' : second.Fits header) {runResult : RunResult}
    (hfirst : IsJoin header first patch runResult)
    (hsecond : IsJoin header second other runResult) : first.key = second.key := by
  have hbenchmark : first.key.benchmark = second.key.benchmark :=
    Option.some.inj (hfirst.benchmark.symm.trans hsecond.benchmark)
  have hmode : first.key.mode = second.key.mode := hfirst.mode.symm.trans hsecond.mode
  have hvalues : first.key.values = second.key.values := by
    rw [hfits.values, hfits'.values]
    apply List.map_congr_left
    intro name hname
    obtain ⟨trimmed, htrimmed⟩ := hnamed.named name hname
    rw [← hfirst.values name hname trimmed htrimmed, ← hsecond.values name hname trimmed htrimmed]
  cases hleft : first.key
  cases hright : second.key
  simp_all

theorem isJoin_of_joined (hnamed : ParamsNamed header) {base patch : Row}
    (hfits : base.Fits header) {index : ℕ} {runResult : RunResult}
    (h : Joined (paramsAt columns header index base) base.data patch.data runResult) :
    IsJoin header base patch runResult where
  benchmark := by rw [h.runParams]; rfl
  mode := by rw [h.runParams]; rfl
  values := by
    intro name hname trimmed htrimmed
    obtain ⟨position, hposition⟩ :=
      List.mem_iff_getElem?.mp ((mem_paramOrder columns).mpr hname)
    have hstored := getElem?_paramsAt hnamed base index hposition
    rw [htrimmed, Option.getD_some] at hstored
    rw [h.runParams, hstored, hfits.lookup_eq hname]
    rfl
  cells := by rwa [h.runParams]

/-- The keys the loop runs over. -/
theorem mem_order_keys (rows : HashOrder BenchmarkParams) {params : BenchmarkParams} :
    params ∈ rows.order (storeRows columns header 0 baseRows ∅).keys ↔
      ∃ (index : ℕ) (row : Row), baseRows[index]? = some row ∧
        params = paramsAt columns header index row := by
  rw [(rows.perm _).mem_iff, ← AList.mem_keys, mem_storeRows]
  constructor
  · intro h
    rcases h with ⟨index, row, hrow, heq⟩ | hempty
    · exact ⟨index, row, hrow, by rwa [Nat.zero_add] at heq⟩
    · exact absurd hempty (AList.notMem_empty params)
  · intro h
    obtain ⟨index, row, hrow, heq⟩ := h
    exact Or.inl ⟨index, row, hrow, by rwa [Nat.zero_add]⟩

theorem compareTo_of_mem_order_keys (rows : HashOrder BenchmarkParams) :
    ∀ first ∈ rows.order (storeRows columns header 0 baseRows ∅).keys,
      ∀ second ∈ rows.order (storeRows columns header 0 baseRows ∅).keys,
        first.compareTo second = .ok (BenchmarkParams.order first second) := by
  intro first hfirst second hsecond
  obtain ⟨_, _, _, rfl⟩ := (mem_order_keys rows).mp hfirst
  obtain ⟨_, _, _, rfl⟩ := (mem_order_keys rows).mp hsecond
  exact compareTo_paramsAt _ _

theorem Matching.exists_base (h : Matching header baseRows patchRows) {patch : Row}
    (hpatch : patch ∈ patchRows) :
    ∃ (index : ℕ) (base : Row), baseRows[index]? = some base ∧ base.key = patch.key := by
  have hkey : patch.key ∈ baseRows.map Row.key :=
    h.perm.mem_iff.mpr (List.mem_map_of_mem hpatch)
  obtain ⟨base, hbase, heq⟩ := List.mem_map.mp hkey
  obtain ⟨index, hindex⟩ := List.mem_iff_getElem?.mp hbase
  exact ⟨index, base, hindex, heq⟩

theorem Matching.exists_patch (h : Matching header baseRows patchRows) {base : Row}
    (hbase : base ∈ baseRows) :
    ∃ (index : ℕ) (patch : Row), patchRows[index]? = some patch ∧ base.key = patch.key := by
  have hkey : base.key ∈ patchRows.map Row.key := h.perm.mem_iff.mp (List.mem_map_of_mem hbase)
  obtain ⟨patch, hpatch, heq⟩ := List.mem_map.mp hkey
  obtain ⟨index, hindex⟩ := List.mem_iff_getElem?.mp hpatch
  exact ⟨index, patch, hindex, heq.symm⟩

/-- A base row meets the patch row with its key if their tags agree, and no other row. -/
theorem Matching.lookup_patch_iff (h : Matching header baseRows patchRows) {index : ℕ}
    {base : Row} (hbase : baseRows[index]? = some base) {data : CsvLine} :
    (storeRows columns header 0 patchRows ∅).lookup (paramsAt columns header index base) =
        some data ↔
      ∃ (other : ℕ) (patch : Row), patchRows[other]? = some patch ∧ data = patch.data ∧
        base.key = patch.key ∧ rowTag header index = rowTag header other := by
  rw [lookup_storeRows_eq_some_iff h.named h.patchFits (h.perm.nodup_iff.mp h.nodup)]
  constructor
  · intro hstored
    obtain ⟨other, patch, hpatch, heq, hdata⟩ := hstored
    have hagree := (paramsAt_eq_iff h.named (h.baseFits base (List.mem_of_getElem? hbase))
      (h.patchFits patch (List.mem_of_getElem? hpatch)) index other).mp heq
    exact ⟨other, patch, hpatch, hdata, hagree⟩
  · intro hmeets
    obtain ⟨other, patch, hpatch, hdata, hagree⟩ := hmeets
    exact ⟨other, patch, hpatch, (paramsAt_eq_iff h.named
      (h.baseFits base (List.mem_of_getElem? hbase))
      (h.patchFits patch (List.mem_of_getElem? hpatch)) index other).mpr hagree, hdata⟩

/-- The parameters tell the base rows apart. -/
theorem Matching.eq_of_paramsAt_eq (h : Matching header baseRows patchRows) {index other : ℕ}
    {base row : Row} (hbase : baseRows[index]? = some base) (hrow : baseRows[other]? = some row)
    (heq : paramsAt columns header index base = paramsAt columns header other row) :
    index = other ∧ base = row := by
  have hkey : base.key = row.key :=
    ((paramsAt_eq_iff h.named (h.baseFits base (List.mem_of_getElem? hbase))
      (h.baseFits row (List.mem_of_getElem? hrow)) index other).mp heq).1
  obtain rfl := index_eq_of_map_nodup h.nodup hbase hrow hkey
  exact ⟨rfl, Option.some.inj (hbase.symm.trans hrow)⟩

/-- Rows that are joined by key show the join of every two rows with one key. -/
theorem JoinsByKey.exists_isJoin (h : Matching header baseRows patchRows)
    {outcome : Except Failure (List RunResult)} (hjoins : JoinsByKey header baseRows patchRows outcome)
    {results : List RunResult} (hok : outcome = .ok results) :
    ∀ base ∈ baseRows, ∀ patch ∈ patchRows, base.key = patch.key →
      ∃ runResult ∈ results, IsJoin header base patch runResult := by
  intro base hbase patch hpatch hkey
  obtain ⟨results', hok', _, joined, hperm, hjoined⟩ := hjoins
  obtain rfl : results' = results := Except.ok.inj (hok'.symm.trans hok)
  obtain ⟨runResult, hrun, found, hfound, hfoundKey, hisJoin⟩ :=
    exists_mem_of_forall₂ hjoined (hperm.mem_iff.mpr hbase)
  obtain rfl : patch = found := List.inj_on_of_nodup_map (h.perm.nodup_iff.mp h.nodup)
    hpatch hfound (hkey.symm.trans hfoundKey)
  exact ⟨runResult, hrun, hisJoin⟩

/-- The outcome of joining the stored rows. -/
def joinOutcome (columns : HashOrder String) (rows : HashOrder BenchmarkParams)
    (header : List String) (baseRows patchRows : List Row) : Except Failure (List RunResult) :=
  (rows.order (storeRows columns header 0 baseRows ∅).keys).foldlM
    (addResult (storeRows columns header 0 baseRows ∅) (storeRows columns header 0 patchRows ∅)) []

/-- The results represent the joins of a list that has one for every base row. -/
structure Represented (columns : HashOrder String) (header : List String)
    (baseRows patchRows : List Row) (results joins : List RunResult) : Prop where
  represents : TreeSet.Represents resultOrder joins results
  covers : ∀ (index : ℕ) (base : Row), baseRows[index]? = some base →
    ∃ patch ∈ patchRows, base.key = patch.key ∧ ∃ runResult ∈ joins,
      Joined (paramsAt columns header index base) base.data patch.data runResult
  sound : ∀ runResult ∈ joins, ∃ (index : ℕ) (base : Row), baseRows[index]? = some base ∧
    ∃ patch ∈ patchRows, base.key = patch.key ∧
      Joined (paramsAt columns header index base) base.data patch.data runResult

/-- Every base row meets the patch row with its key, and the two can be joined. -/
def Meets (columns : HashOrder String) (header : List String) (baseRows patchRows : List Row) :
    Prop :=
  ∀ (index : ℕ) (base : Row), baseRows[index]? = some base →
    ∃ (other : ℕ) (patch : Row), patchRows[other]? = some patch ∧ base.key = patch.key ∧
      rowTag header index = rowTag header other ∧ ∃ runResult,
        Joined (paramsAt columns header index base) base.data patch.data runResult

/-- What is stored under the parameters of a base row are that row and the patch row it
meets. -/
theorem Matching.meets_of_joinsStored (h : Matching header baseRows patchRows) {index : ℕ}
    {base : Row} (hbase : baseRows[index]? = some base) {runResult : RunResult}
    (hjoins : JoinsStored (storeRows columns header 0 baseRows ∅)
      (storeRows columns header 0 patchRows ∅) (paramsAt columns header index base) runResult) :
    ∃ (other : ℕ) (patch : Row), patchRows[other]? = some patch ∧ base.key = patch.key ∧
      rowTag header index = rowTag header other ∧
        Joined (paramsAt columns header index base) base.data patch.data runResult := by
  obtain ⟨data, patchData, hdata, hpatchData, hjoined⟩ := hjoins
  obtain ⟨found, row, hrow, heq, rfl⟩ :=
    (lookup_storeRows_eq_some_iff h.named h.baseFits h.nodup).mp hdata
  obtain ⟨rfl, rfl⟩ := h.eq_of_paramsAt_eq hbase hrow heq
  obtain ⟨other, patch, hpatch, rfl, hkey, htag⟩ := (h.lookup_patch_iff hbase).mp hpatchData
  exact ⟨other, patch, hpatch, hkey, htag, hjoined⟩

/-- If every base row meets the patch row with its key, the comparison succeeds. -/
theorem Matching.represented (h : Matching header baseRows patchRows)
    (rows : HashOrder BenchmarkParams) (hmeets : Meets columns header baseRows patchRows) :
    ∃ results joins, joinOutcome columns rows header baseRows patchRows = .ok results ∧
      Represented columns header baseRows patchRows results joins := by
  have hstored : ∀ params ∈ rows.order (storeRows columns header 0 baseRows ∅).keys,
      ∃ runResult, JoinsStored (storeRows columns header 0 baseRows ∅)
        (storeRows columns header 0 patchRows ∅) params runResult := by
    intro params hparams
    obtain ⟨index, base, hbase, rfl⟩ := (mem_order_keys rows).mp hparams
    obtain ⟨other, patch, hpatch, hkey, htag, runResult, hjoined⟩ := hmeets index base hbase
    refine ⟨runResult, base.data, patch.data, ?_, ?_, hjoined⟩
    · exact (lookup_storeRows_eq_some_iff h.named h.baseFits h.nodup).mpr
        ⟨index, base, hbase, rfl, rfl⟩
    · exact (h.lookup_patch_iff hbase).mpr ⟨other, patch, hpatch, rfl, hkey, htag⟩
  obtain ⟨results, joins, hresults, hjoins, hrepresents⟩ :=
    foldlM_addResult hstored (compareTo_of_mem_order_keys rows)
  refine ⟨results, joins, hresults, hrepresents, ?_, ?_⟩
  · intro index base hbase
    obtain ⟨runResult, hrun, hstoredJoin⟩ :=
      exists_mem_of_forall₂ hjoins ((mem_order_keys rows).mpr ⟨index, base, hbase, rfl⟩)
    obtain ⟨_, patch, hpatch, hkey, _, hjoined⟩ := h.meets_of_joinsStored hbase hstoredJoin
    exact ⟨patch, List.mem_of_getElem? hpatch, hkey, runResult, hrun, hjoined⟩
  · intro runResult hrun
    obtain ⟨params, hparams, hstoredJoin⟩ := exists_mem_of_forall₂ hjoins.flip hrun
    obtain ⟨index, base, hbase, rfl⟩ := (mem_order_keys rows).mp hparams
    obtain ⟨_, patch, hpatch, hkey, _, hjoined⟩ := h.meets_of_joinsStored hbase hstoredJoin
    exact ⟨index, base, hbase, patch, List.mem_of_getElem? hpatch, hkey, hjoined⟩

/-- If the comparison succeeds, every base row has met the patch row with its key. -/
theorem Matching.meets_of_eq_ok (h : Matching header baseRows patchRows)
    {rows : HashOrder BenchmarkParams} {results : List RunResult}
    (hok : joinOutcome columns rows header baseRows patchRows = .ok results) :
    Meets columns header baseRows patchRows := by
  intro index base hbase
  obtain ⟨runResult, hjoins⟩ :=
    exists_joined_of_foldlM hok ((mem_order_keys rows).mpr ⟨index, base, hbase, rfl⟩)
  obtain ⟨other, patch, hpatch, hkey, htag, hjoined⟩ := h.meets_of_joinsStored hbase hjoins
  exact ⟨other, patch, hpatch, hkey, htag, runResult, hjoined⟩

/-- Numbers that have been joined are readable. -/
theorem Matching.numbersReadable (h : Matching header baseRows patchRows)
    (hmeets : Meets columns header baseRows patchRows) : NumbersReadable baseRows patchRows := by
  have hbase : ∀ base ∈ baseRows, ∃ params patch runResult,
      Joined params base.data patch runResult := by
    intro base hin
    obtain ⟨index, hindex⟩ := List.mem_iff_getElem?.mp hin
    obtain ⟨_, patch, _, _, _, runResult, hjoined⟩ := hmeets index base hindex
    exact ⟨_, _, runResult, hjoined⟩
  have hpatch : ∀ patch ∈ patchRows, ∃ params base runResult,
      Joined params base patch.data runResult := by
    intro patch hin
    obtain ⟨index, base, hindex, hkey⟩ := h.exists_base hin
    obtain ⟨_, found, hfound, hfoundKey, _, runResult, hjoined⟩ := hmeets index base hindex
    obtain rfl : found = patch := List.inj_on_of_nodup_map (h.perm.nodup_iff.mp h.nodup)
      (List.mem_of_getElem? hfound) hin (hfoundKey.symm.trans hkey)
    exact ⟨_, _, runResult, hjoined⟩
  constructor
  · exact fun row hrow => have ⟨_, _, _, hjoined⟩ := hbase row hrow; ⟨_, hjoined.baseScore⟩
  · exact fun row hrow => have ⟨_, _, _, hjoined⟩ := hbase row hrow; ⟨_, hjoined.baseScoreError⟩
  · exact fun row hrow => have ⟨_, _, _, hjoined⟩ := hbase row hrow; ⟨_, hjoined.sampleCount⟩
  · exact fun row hrow => have ⟨_, _, _, hjoined⟩ := hpatch row hrow; ⟨_, hjoined.patchScore⟩
  · exact fun row hrow =>
      have ⟨_, _, _, hjoined⟩ := hpatch row hrow; ⟨_, hjoined.patchScoreError⟩

/-- Readable numbers and tags that agree make every base row meet. -/
theorem Matching.meets (h : Matching header baseRows patchRows)
    (hnumbers : NumbersReadable baseRows patchRows) (htags : TagsAgree header baseRows patchRows) :
    Meets columns header baseRows patchRows := by
  intro index base hbase
  have hin := List.mem_of_getElem? hbase
  obtain ⟨other, patch, hpatch, hkey⟩ := h.exists_patch hin
  exact ⟨other, patch, hpatch, hkey, htags.same index other base patch hbase hpatch hkey,
    exists_joined hnumbers hin (List.mem_of_getElem? hpatch) _⟩

/-! ## The results and the rows -/

/-- The key under which a row at its position is stored. -/
abbrev entryKey (columns : HashOrder String) (header : List String) (entry : Row × ℕ) :
    BenchmarkParams :=
  paramsAt columns header entry.2 entry.1

theorem pairwise_resultOrder_iff {entries : List (Row × ℕ)} {results : List RunResult}
    (h : results.map RunResult.params = entries.map (entryKey columns header)) :
    (results.Pairwise fun first second => resultOrder first second = .lt) ↔
      entries.Pairwise fun first second => BenchmarkParams.order (entryKey columns header first)
        (entryKey columns header second) = .lt := by
  have hparams : (results.map RunResult.params).Pairwise (fun first second =>
        BenchmarkParams.order first second = .lt) ↔
      (entries.map (entryKey columns header)).Pairwise (fun first second =>
        BenchmarkParams.order first second = .lt) := by rw [h]
  rwa [List.pairwise_map, List.pairwise_map] at hparams

theorem nodup_zipIdx (rows : List Row) : rows.zipIdx.Nodup := by
  apply List.Nodup.of_map Prod.snd
  rw [List.zipIdx_map_snd]
  exact List.nodup_range'

theorem map_eq_map_of_forall₂ {α β γ : Type} {f : α → γ} {g : β → γ} {left : List α}
    {right : List β} (h : List.Forall₂ (fun x y => f x = g y) left right) :
    left.map f = right.map g := by
  rw [← List.forall₂_eq_eq_eq, List.forall₂_map_left_iff, List.forall₂_map_right_iff]
  exact h

theorem exists_forall₂_of_forall {α β : Type} {rel : α → β → Prop} {right : List β}
    (h : ∀ y ∈ right, ∃ x, rel x y) : ∃ left, List.Forall₂ rel left right := by
  induction right with
  | nil => exact ⟨[], List.Forall₂.nil⟩
  | cons y right ih =>
      obtain ⟨x, hx⟩ := h y List.mem_cons_self
      obtain ⟨left, hleft⟩ := ih fun other hother => h other (List.mem_cons_of_mem y hother)
      exact ⟨x :: left, List.Forall₂.cons hx hleft⟩

section Represented

variable {results joins : List RunResult}

/-- If every base row is joined with the patch row that has its key, its parameters are among
the results. -/
theorem Represented.exists_params (h : Matching header baseRows patchRows)
    (hrepresented : Represented columns header baseRows patchRows results joins)
    (hall : ∀ base ∈ baseRows, ∀ patch ∈ patchRows, base.key = patch.key →
      ∃ runResult ∈ results, IsJoin header base patch runResult)
    {index : ℕ} {base : Row} (hbase : baseRows[index]? = some base) :
    ∃ runResult ∈ results, runResult.params = paramsAt columns header index base := by
  have hin := List.mem_of_getElem? hbase
  obtain ⟨_, patch, hpatch, hkey⟩ := h.exists_patch hin
  obtain ⟨runResult, hrun, hisJoin⟩ := hall base hin patch (List.mem_of_getElem? hpatch) hkey
  obtain ⟨found, row, hrow, patch', _, _, hjoined⟩ :=
    hrepresented.sound runResult (hrepresented.represents.subset runResult hrun)
  have hfits := h.baseFits row (List.mem_of_getElem? hrow)
  have hsame := key_eq_of_isJoin h.named (h.baseFits base hin) hfits hisJoin
    (isJoin_of_joined h.named hfits hjoined)
  obtain rfl := index_eq_of_map_nodup h.nodup hbase hrow hsame
  obtain rfl : base = row := Option.some.inj (hbase.symm.trans hrow)
  exact ⟨runResult, hrun, hjoined.runParams⟩

/-- Then the tags agree: rows with the same tag would tie, and the results hold only one of
two that tie. -/
theorem Represented.tagsAgree (h : Matching header baseRows patchRows)
    (hrepresented : Represented columns header baseRows patchRows results joins)
    (hmeets : Meets columns header baseRows patchRows)
    (hall : ∀ base ∈ baseRows, ∀ patch ∈ patchRows, base.key = patch.key →
      ∃ runResult ∈ results, IsJoin header base patch runResult) :
    TagsAgree header baseRows patchRows where
  same := by
    intro index other base patch hbase hpatch hkey
    obtain ⟨found, row, hrow, hrowKey, htag, _⟩ := hmeets index base hbase
    obtain rfl := index_eq_of_map_nodup (h.perm.nodup_iff.mp h.nodup) hrow hpatch
      (hrowKey.symm.trans hkey)
    exact htag
  apart := by
    intro index other first second hfirst hsecond hbenchmark hmode htag
    obtain ⟨left, hleft, hleftParams⟩ := hrepresented.exists_params h hall hfirst
    obtain ⟨right, hright, hrightParams⟩ := hrepresented.exists_params h hall hsecond
    have htie : resultOrder left right = .eq := by
      rw [resultOrder, hleftParams, hrightParams, order_paramsAt_eq_iff h.named]
      exact ⟨hmode, hbenchmark, htag⟩
    have hsame := hrepresented.represents.eq_of_tie hleft hright htie
    rw [hsame, hrightParams] at hleftParams
    exact (h.eq_of_paramsAt_eq hfirst hsecond hleftParams.symm).1

/-- The result joins the row at its position with the patch row that has its key. -/
def JoinsEntry (columns : HashOrder String) (header : List String)
    (baseRows patchRows : List Row) (entry : Row × ℕ) (runResult : RunResult) : Prop :=
  entry ∈ baseRows.zipIdx ∧ ∃ patch ∈ patchRows, entry.1.key = patch.key ∧
    Joined (entryKey columns header entry) entry.1.data patch.data runResult

/-- If the tags agree, what ties with the join of a row is a join of that row, so that every
row is shown, and shown once. -/
theorem Represented.exists_entries (h : Matching header baseRows patchRows)
    (hrepresented : Represented columns header baseRows patchRows results joins)
    (htags : TagsAgree header baseRows patchRows) :
    ∃ entries : List (Row × ℕ), entries.Perm baseRows.zipIdx ∧
      List.Forall₂ (JoinsEntry columns header baseRows patchRows) entries results := by
  have hsound : ∀ runResult ∈ results, ∃ entry,
      JoinsEntry columns header baseRows patchRows entry runResult := by
    intro runResult hrun
    obtain ⟨index, base, hbase, patch, hpatch, hkey, hjoined⟩ :=
      hrepresented.sound runResult (hrepresented.represents.subset runResult hrun)
    exact ⟨(base, index), List.mem_zipIdx_iff_getElem?.mpr hbase, patch, hpatch, hkey, hjoined⟩
  obtain ⟨entries, hentries⟩ := exists_forall₂_of_forall hsound
  refine ⟨entries, ?_, hentries⟩
  have hparams : results.map RunResult.params = entries.map (entryKey columns header) :=
    map_eq_map_of_forall₂ (hentries.flip.imp fun _ _ hjoins =>
      have ⟨_, _, _, _, hjoined⟩ := hjoins
      hjoined.runParams)
  have hnodup : entries.Nodup := by
    apply ((pairwise_resultOrder_iff hparams).mp hrepresented.represents.sorted).imp
    intro first second hlt heq
    rw [heq] at hlt
    exact absurd (hlt.symm.trans Std.ReflCmp.compare_self) (by decide)
  rw [List.perm_ext_iff_of_nodup hnodup (nodup_zipIdx baseRows)]
  intro entry
  constructor
  · intro hentry
    obtain ⟨_, _, hjoins⟩ := exists_mem_of_forall₂ hentries hentry
    exact hjoins.1
  · intro hentry
    have hrow := List.mem_zipIdx_iff_getElem?.mp hentry
    obtain ⟨_, _, _, runResult, hrun, hjoined⟩ := hrepresented.covers entry.2 entry.1 hrow
    obtain ⟨shown, hshown, htie⟩ := hrepresented.represents.covers runResult hrun
    obtain ⟨other, hother, hin, _, _, _, hshownJoined⟩ :=
      exists_mem_of_forall₂ hentries.flip hshown
    rw [resultOrder, hjoined.runParams, hshownJoined.runParams,
      order_paramsAt_eq_iff h.named] at htie
    obtain ⟨hmode, hbenchmark, htag⟩ := htie
    have hrow' := List.mem_zipIdx_iff_getElem?.mp hin
    have hindex := htags.apart entry.2 other.2 entry.1 other.1 hrow hrow' hbenchmark hmode htag
    rw [← hindex, hrow] at hrow'
    have hsame : entry = other := Prod.ext (Option.some.inj hrow') hindex
    exact hsame ▸ hother

/-- Then the rows are joined by key. -/
theorem Represented.joinsByKey (h : Matching header baseRows patchRows)
    (hrepresented : Represented columns header baseRows patchRows results joins)
    (htags : TagsAgree header baseRows patchRows) :
    JoinsByKey header baseRows patchRows (.ok results) := by
  obtain ⟨entries, hperm, hentries⟩ := hrepresented.exists_entries h htags
  refine ⟨results, rfl, hrepresented.represents.sorted, entries.map Prod.fst, ?_, ?_⟩
  · have hrows := hperm.map Prod.fst
    rwa [List.zipIdx_map_fst] at hrows
  · rw [List.forall₂_map_left_iff]
    refine hentries.imp fun entry runResult hjoins => ?_
    obtain ⟨hentry, patch, hpatch, hkey, hjoined⟩ := hjoins
    have hfits := h.baseFits entry.1
      (List.mem_of_getElem? (List.mem_zipIdx_iff_getElem?.mp hentry))
    exact ⟨patch, hpatch, hkey, isJoin_of_joined h.named hfits hjoined⟩

end Represented

/-- For files with the same distinct keys, the comparison joins by key exactly when the
numbers are readable and equal keys come with equal tags. -/
theorem joinsByKey_joinOutcome_iff (h : Matching header baseRows patchRows)
    (rows : HashOrder BenchmarkParams) :
    JoinsByKey header baseRows patchRows (joinOutcome columns rows header baseRows patchRows) ↔
      NumbersReadable baseRows patchRows ∧ TagsAgree header baseRows patchRows := by
  constructor
  · intro hjoins
    obtain ⟨results, hok, _⟩ := id hjoins
    have hall := hjoins.exists_isJoin h hok
    have hmeets := h.meets_of_eq_ok hok
    obtain ⟨results', joins, hok', hrepresented⟩ := h.represented rows hmeets
    obtain rfl : results' = results := Except.ok.inj (hok'.symm.trans hok)
    exact ⟨h.numbersReadable hmeets, hrepresented.tagsAgree h hmeets hall⟩
  · rintro ⟨hnumbers, htags⟩
    obtain ⟨results, joins, hok, hrepresented⟩ := h.represented rows (h.meets hnumbers htags)
    rw [hok]
    exact hrepresented.joinsByKey h htags

/-- Positions are told apart by their tags until the counter wraps round. -/
theorem rowTag_eq_iff (hcolumns : paramColumns header ≠ []) {count : ℕ}
    (hcount : count * (paramColumns header).length ≤ 2 ^ 32) {index other : ℕ}
    (hindex : index < count) (hother : other < count) :
    rowTag header index = rowTag header other ↔ index = other := by
  have hpos : 0 < (paramColumns header).length := List.length_pos_iff.mpr hcolumns
  have hlt : ∀ position < count, position * (paramColumns header).length < 2 ^ 32 :=
    fun position hposition => lt_of_lt_of_le (Nat.mul_lt_mul_of_pos_right hposition hpos) hcount
  constructor
  · intro h
    have hmod := congrArg BitVec.toNat h
    rw [rowTag, rowTag, BitVec.toNat_ofNat, BitVec.toNat_ofNat, Nat.mod_eq_of_lt (hlt index hindex),
      Nat.mod_eq_of_lt (hlt other hother)] at hmod
    exact Nat.eq_of_mul_eq_mul_right hpos hmod
  · exact fun h => by rw [h]

/-- If the counter comes back to zero after each row, all tags are zero. -/
theorem rowTag_eq_zero_of_dvd (hdvd : 2 ^ 32 ∣ (paramColumns header).length) (index : ℕ) :
    rowTag header index = 0 := by
  rw [rowTag, BitVec.ofNat_eq_ofNat, ← BitVec.toNat_inj, BitVec.toNat_ofNat, BitVec.toNat_ofNat,
    Nat.mod_eq_zero_of_dvd (dvd_mul_of_dvd_right hdvd index), Nat.zero_mod]

/-- Then benchmark and mode have to tell the rows apart. -/
theorem tagsAgree_of_dvd (hdvd : 2 ^ 32 ∣ (paramColumns header).length)
    (hnodup : (baseRows.map fun row => (row.key.benchmark, row.key.mode)).Nodup) :
    TagsAgree header baseRows patchRows := by
  constructor
  · intro index other _ _ _ _ _
    rw [rowTag_eq_zero_of_dvd hdvd, rowTag_eq_zero_of_dvd hdvd]
  · intro index other first second hfirst hsecond hbenchmark hmode _
    exact index_eq_of_map_nodup hnodup hfirst hsecond (Prod.ext hbenchmark hmode)

/-- Without parameters they do: benchmark and mode make up the whole key. -/
theorem Matching.nodup_of_no_columns (h : Matching header baseRows patchRows)
    (hcolumns : paramColumns header = []) :
    (baseRows.map fun row => (row.key.benchmark, row.key.mode)).Nodup := by
  have hvalues : ∀ row ∈ baseRows, row.key.values = [] := by
    intro row hrow
    rw [(h.baseFits row hrow).values, hcolumns, List.map_nil]
  have hpairs := h.nodup
  rw [List.Nodup, List.pairwise_map] at hpairs ⊢
  refine hpairs.imp_of_mem ?_
  intro first second hfirst hsecond hne heq
  obtain ⟨hbenchmark, hmode⟩ := Prod.mk.injEq .. ▸ heq
  apply hne
  cases hkey : first.key
  cases hother : second.key
  have hleft := hvalues first hfirst
  have hright := hvalues second hsecond
  simp_all

theorem Matching.tagsAgree_of_no_columns (h : Matching header baseRows patchRows)
    (hcolumns : paramColumns header = []) : TagsAgree header baseRows patchRows :=
  tagsAgree_of_dvd (by simp [hcolumns]) (h.nodup_of_no_columns hcolumns)

section Counted

variable (h : Matching header baseRows patchRows) (hcolumns : paramColumns header ≠ [])
  (hcount : baseRows.length * (paramColumns header).length ≤ 2 ^ 32)
include h hcolumns hcount

/-- Tags that agree put equal keys at equal positions. -/
theorem Matching.map_key_eq (htags : TagsAgree header baseRows patchRows) :
    baseRows.map Row.key = patchRows.map Row.key := by
  have hlength : baseRows.length = patchRows.length := by
    simpa using h.perm.length_eq
  apply List.ext_getElem?
  intro index
  rw [List.getElem?_map, List.getElem?_map]
  cases hbase : baseRows[index]? with
  | none =>
      rw [List.getElem?_eq_none_iff, hlength] at hbase
      rw [List.getElem?_eq_none_iff.mpr hbase]
  | some base =>
      obtain ⟨other, patch, hpatch, hkey⟩ := h.exists_patch (List.mem_of_getElem? hbase)
      have hindex : index < baseRows.length := (List.getElem?_eq_some_iff.mp hbase).1
      have hother : other < baseRows.length := hlength ▸ (List.getElem?_eq_some_iff.mp hpatch).1
      have htag := htags.same index other base patch hbase hpatch hkey
      obtain rfl := (rowTag_eq_iff hcolumns hcount hindex hother).mp htag
      rw [hpatch, Option.map_some, Option.map_some, hkey]

/-- In files that list their keys in the same order the tags agree. -/
theorem Matching.tagsAgree_of_map_key_eq (hkeys : baseRows.map Row.key = patchRows.map Row.key) :
    TagsAgree header baseRows patchRows := by
  constructor
  · intro index other base patch hbase hpatch hkey
    have hfound : (baseRows.map Row.key)[other]? = some base.key := by
      rw [hkeys, List.getElem?_map, hpatch, Option.map_some, hkey]
    rw [List.getElem?_map, Option.map_eq_some_iff] at hfound
    obtain ⟨row, hrow, hrowKey⟩ := hfound
    rw [index_eq_of_map_nodup h.nodup hbase hrow hrowKey.symm]
  · intro index other first second hfirst hsecond _ _ htag
    exact (rowTag_eq_iff hcolumns hcount (List.getElem?_eq_some_iff.mp hfirst).1
      (List.getElem?_eq_some_iff.mp hsecond).1).mp htag

end Counted

/-- Short of the counter wrapping round, equal keys have equal tags exactly when there is
no parameter or both files list their keys in the same order. -/
theorem Matching.tagsAgree_iff (h : Matching header baseRows patchRows)
    (hcount : baseRows.length * (paramColumns header).length ≤ 2 ^ 32) :
    TagsAgree header baseRows patchRows ↔
      paramColumns header = [] ∨ baseRows.map Row.key = patchRows.map Row.key := by
  by_cases hcolumns : paramColumns header = []
  · exact ⟨fun _ => Or.inl hcolumns, fun _ => h.tagsAgree_of_no_columns hcolumns⟩
  · constructor
    · exact fun htags => Or.inr (h.map_key_eq hcolumns hcount htags)
    · exact fun hsame => h.tagsAgree_of_map_key_eq hcolumns hcount (hsame.resolve_left hcolumns)

end Matching

/-! ## The comparison of two files -/

/-- Elements are mapped one by one. -/
theorem mapM_eq_some_iff {α β : Type} {f : α → Option β} {list : List α} {values : List β} :
    list.mapM f = some values ↔ List.Forall₂ (fun x value => f x = some value) list values := by
  induction list generalizing values with
  | nil => simp [eq_comm]
  | cons x list ih =>
      rw [List.mapM_cons]
      simp only [Option.bind_eq_bind, Option.bind_eq_some_iff, ih]
      constructor
      · rintro ⟨value, hvalue, rest, hrest, heq⟩
        cases heq
        exact List.Forall₂.cons hvalue hrest
      · intro h
        cases h with
        | cons hvalue hrest => exact ⟨_, hvalue, _, hrest, rfl⟩

theorem fits_of_tableOf {text : String} {header : List String} {rows : List Row}
    (h : tableOf text = some (header, rows)) {row : Row} (hrow : row ∈ rows) :
    row.Fits header := by
  unfold tableOf at h
  cases hlines : lines text with
  | nil => simp [hlines] at h
  | cons first rest =>
      simp only [hlines, Option.map_eq_some_iff, Prod.mk.injEq] at h
      obtain ⟨found, hfound, rfl, rfl⟩ := h
      obtain ⟨line, _, hline⟩ := exists_mem_of_forall₂ (mapM_eq_some_iff.mp hfound).flip hrow
      exact (rowOf_eq_some hline).2.2.2

section Files

variable {csvPaths : List CsvPath} {basePath patchPath : CsvPath} {header : List String}
  {baseRows patchRows : List Row}

/-- The comparison of two files that spell tables joins their stored rows. -/
theorem readCsvFiles_eq_joinOutcome (columns : HashOrder String) (rows : HashOrder BenchmarkParams)
    (hbase : labelCsvPaths csvPaths .base = some basePath)
    (hpatch : labelCsvPaths csvPaths .patch = some patchPath)
    (hbaseTable : tableOf basePath.text = some (header, baseRows))
    (hpatchTable : tableOf patchPath.text = some (header, patchRows))
    (hnamed : ParamsNamed header) :
    readCsvFiles columns rows csvPaths = joinOutcome columns rows header baseRows patchRows := by
  have hbaseFile : readCsv columns (some basePath) = _ := readCsv_eq_ok hnamed hbaseTable
  have hpatchFile : readCsv columns (some patchPath) = _ := readCsv_eq_ok hnamed hpatchTable
  rw [readCsvFiles, hbase, hpatch, hbaseFile, hpatchFile]
  rfl

theorem matching_of_tableOf {baseText patchText : String}
    (hbaseTable : tableOf baseText = some (header, baseRows))
    (hpatchTable : tableOf patchText = some (header, patchRows))
    (hnamed : ParamsNamed header) (hnodup : (baseRows.map Row.key).Nodup)
    (hperm : (baseRows.map Row.key).Perm (patchRows.map Row.key)) :
    Matching header baseRows patchRows :=
  ⟨hnamed, fun _ => fits_of_tableOf hbaseTable, fun _ => fits_of_tableOf hpatchTable, hnodup,
    hperm⟩

end Files

/-! ## Two small files -/

/-- `String.hashCode`. -/
def hashCode (text : String) : BitVec 32 :=
  (utf16 text).foldl (fun hash unit => 31 * hash + .ofNat 32 unit) 0

/-- How OpenJDK enumerates up to twelve names: by bucket, and by insertion inside one. -/
def bucketOrder : HashOrder String where
  order keys := keys.reverse.insertionSort fun first second => bucket first ≤ bucket second
  perm keys := (List.perm_insertionSort _ _).trans keys.reverse_perm
where
  bucket (name : String) : ℕ := ((hashCode name ^^^ (hashCode name >>> 16)) &&& 15).toNat

/-- Keys in the order of their insertion. -/
def insertionOrder : HashOrder BenchmarkParams := ⟨List.reverse, List.reverse_perm⟩

def smallHeader : List String :=
  ["Benchmark", "Mode", "Threads", "Samples", "Score", "Score Error (99.9%)", "Unit", "Param: n"]

/-- A file with this header and these data lines. -/
def smallText (rows : List String) : String :=
  "\n".intercalate (",".intercalate (smallHeader.map fun name => "\"" ++ name ++ "\"") :: rows)

def firstLine : String := "\"a.b\",\"thrpt\",1,1,2.5,NaN,\"ops/ms\",1"

def secondLine : String := "\"a.b\",\"thrpt\",1,1,5,NaN,\"ops/ms\",2"

/-- The row of a line with this score and parameter. -/
def smallRow (score param : String) : Row :=
  ⟨⟨"a.b", .throughput, [some param]⟩,
    (lineData smallHeader ["a.b", "thrpt", "1", "1", score, "NaN", "ops/ms", param] ∅).toOption.getD ∅⟩

theorem rowOf_firstLine : rowOf smallHeader firstLine = some (smallRow "2.5" "1") := by
  decide +kernel

theorem rowOf_secondLine : rowOf smallHeader secondLine = some (smallRow "5" "2") := by
  decide +kernel

/-- The table of a small file, line by line. -/
theorem tableOf_smallText {lines : List String} {rows : List Row}
    (hlines : ∀ line ∈ lines, Plain line.toList) (hlast : lines.getLast? ≠ some "")
    (hrows : (lines.filter fun line => !isBlank line).mapM (rowOf smallHeader) = some rows) :
    tableOf (smallText lines) = some (smallHeader, rows) := by
  refine tableOf_intercalate ?_ ?_ (by decide +kernel) hrows
  · rw [List.forall_mem_cons]
    exact ⟨by decide +kernel, hlines⟩
  · cases lines with
    | nil => decide +kernel
    | cons line lines => exact hlast

theorem tableOf_sameOrder :
    tableOf (smallText [firstLine, secondLine]) =
      some (smallHeader, [smallRow "2.5" "1", smallRow "5" "2"]) := by
  have hfilter : ([firstLine, secondLine].filter fun line => !isBlank line) =
      [firstLine, secondLine] := by decide +kernel
  refine tableOf_smallText (by decide +kernel) (by decide +kernel) ?_
  simp [hfilter, rowOf_firstLine, rowOf_secondLine]

theorem tableOf_swapped :
    tableOf (smallText [secondLine, firstLine]) =
      some (smallHeader, [smallRow "5" "2", smallRow "2.5" "1"]) := by
  have hfilter : ([secondLine, firstLine].filter fun line => !isBlank line) =
      [secondLine, firstLine] := by decide +kernel
  refine tableOf_smallText (by decide +kernel) (by decide +kernel) ?_
  simp [hfilter, rowOf_firstLine, rowOf_secondLine]

def basePath : CsvPath := ⟨"base-x.csv", smallText [firstLine, secondLine]⟩

def samePath : CsvPath := ⟨"patch-x.csv", smallText [firstLine, secondLine]⟩

def swappedPath : CsvPath := ⟨"patch-x.csv", smallText [secondLine, firstLine]⟩

end Colata.BenchmarkCompare
