/-
# Listing the rows of two files

Two files that list the same rows in the same order should give one result for each
row, ordered by mode, benchmark and position. The keys that are looked up carry order
tags: a row finds its partner if both files hand out the tags of a row alike, and the
results stand in the order of the positions as long as the tags grow.
-/

import Colata.BenchmarkCompare.JoinByKey
import Mathlib.Data.List.Perm.Basic

namespace Colata.BenchmarkCompare

open Colata.Java Colata.Math

/-! ## Tags -/

/-- The parameter column that the comparison of two keys looks at first. -/
structure Leads (header : List String) (lead : String) : Prop where
  mem : lead ∈ paramColumns header
  first : ∀ name ∈ paramColumns header,
    Java.compareTo ((trimmedName lead).getD "") ((trimmedName name).getD "") ≠ .gt

section Words

variable {width : ℕ}

/-- Consecutive words. -/
def wordsFrom (start : BitVec width) (count : ℕ) : List (BitVec width) :=
  (List.range count).map fun k => start + .ofNat width k

theorem wordsFrom_succ_eq_cons (start : BitVec width) (count : ℕ) :
    wordsFrom start (count + 1) = start :: (wordsFrom start count).map (· + 1) := by
  rw [wordsFrom, List.range_succ_eq_map, List.map_cons, List.map_map, wordsFrom, List.map_map]
  simp [BitVec.ofNat_add, BitVec.add_assoc]

theorem wordsFrom_succ_eq_append (start : BitVec width) (count : ℕ) :
    wordsFrom start (count + 1) = wordsFrom start count ++ [start + .ofNat width count] := by
  rw [wordsFrom, List.range_succ, List.map_append]
  rfl

/-- Moving the words by one drops their start and adds their end. -/
theorem count_map_wordsFrom (start : BitVec width) (count : ℕ) (x : BitVec width) :
    (if start = x then 1 else 0) + ((wordsFrom start count).map (· + 1)).count x =
      (wordsFrom start count).count x + if start + .ofNat width count = x then 1 else 0 := by
  have hcount := congrArg (List.count x)
    ((wordsFrom_succ_eq_cons start count).symm.trans (wordsFrom_succ_eq_append start count))
  rw [List.count_cons, List.count_append, List.count_singleton] at hcount
  simp only [beq_iff_eq] at hcount
  omega

/-- Consecutive words, as many of them as there are columns, determine the first one, or
else there are so many that the counter always comes back to it. -/
theorem start_eq_of_wordsFrom_perm {count : ℕ} {first second : BitVec width}
    (h : (wordsFrom first count).Perm (wordsFrom second count)) :
    first = second ∨ BitVec.ofNat width count = BitVec.ofNat width 0 := by
  have hfirst := count_map_wordsFrom first count second
  have hsecond := count_map_wordsFrom second count second
  rw [h.count_eq, (h.map (· + 1)).count_eq] at hfirst
  by_contra hne
  rw [not_or] at hne
  obtain ⟨hstart, hround⟩ := hne
  have hend : second + .ofNat width count ≠ second := by
    intro heq
    exact hround (by simpa using heq)
  rw [if_neg hstart] at hfirst
  rw [if_pos rfl, if_neg hend] at hsecond
  omega

end Words

section Tags

variable {columns : HashOrder String} {header other : List String}

theorem map_tagAt (columns : HashOrder String) (header : List String) (index : ℕ) :
    (paramOrder columns header).map (tagAt columns header index) =
      wordsFrom (rowTag header index) (paramColumns header).length := by
  have hperm := paramOrder_perm columns header
  have hnodup : (paramOrder columns header).Nodup :=
    hperm.nodup_iff.mpr ((List.nodup_dedup header).filter _)
  apply List.ext_getElem
  · rw [wordsFrom, List.length_map, List.length_map, List.length_range, hperm.length_eq]
  · intro k hk _
    simp only [wordsFrom, List.getElem_map, List.getElem_range, tagAt, columnTag]
    rw [hnodup.idxOf_getElem]

/-- If the tags of two rows agree, the columns have the same tags in both files. -/
theorem columnTag_eq_of_tagAt_eq
    (hcolumns : ∀ name, name ∈ paramColumns header ↔ name ∈ paramColumns other) {index position : ℕ}
    (htags : ∀ name ∈ paramColumns header,
      tagAt columns header index name = tagAt columns other position name)
    {name : String} (hname : name ∈ paramColumns header) :
    columnTag columns header name = columnTag columns other name := by
  have hperm := paramColumns_perm hcolumns
  have hwords : (wordsFrom (rowTag header index) (paramColumns header).length).Perm
      (wordsFrom (rowTag other position) (paramColumns header).length) := by
    rw [← map_tagAt columns header index, hperm.length_eq, ← map_tagAt columns other position,
      List.map_congr_left fun name hname => htags name ((mem_paramOrder columns).mp hname)]
    exact ((paramOrder_perm columns header).trans
      (hperm.trans (paramOrder_perm columns other).symm)).map _
  have hstart : rowTag header index = rowTag other position := by
    rcases start_eq_of_wordsFrom_perm hwords with hstart | hround
    · exact hstart
    · rw [← rowTag_congr hcolumns, rowTag, rowTag, BitVec.ofNat_mul, BitVec.ofNat_mul, hround,
        BitVec.mul_zero, BitVec.mul_zero]
  have htag := htags name hname
  rw [tagAt, tagAt, hstart] at htag
  exact (BitVec.add_right_inj _).mp htag

/-! ## The tag that decides -/

/-- The parameter names of a file in their order. -/
def paramNames (columns : HashOrder String) (header : List String) : List String :=
  (assignParams ∅ (paramOrder columns header) ∅ 0).keys

theorem keys_paramsAt_eq_paramNames (row : Row) (index : ℕ) :
    (paramsAt columns header index row).params.params.keys = paramNames columns header :=
  keys_assignParams _ _ _ _ _ rfl

theorem mem_paramNames (columns : HashOrder String) (hnamed : ParamsNamed header) {key : String} :
    key ∈ paramNames columns header ↔
      ∃ name ∈ paramColumns header, (trimmedName name).getD "" = key := by
  rw [paramNames, Std.ExtTreeMap.mem_keys, ← Std.ExtTreeMap.isSome_getElem?_iff_mem]
  constructor
  · intro hsome
    by_contra hnone
    rw [getElem?_assignParams_of_forall_ne fun name hname heq =>
      hnone ⟨name, (mem_paramOrder columns).mp hname, heq⟩] at hsome
    simp at hsome
  · rintro ⟨name, hname, rfl⟩
    have hposition := List.getElem?_idxOf ((mem_paramOrder columns).mpr hname)
    rw [getElem?_assignParams (hnamed.pairwise columns) ∅ 0 hposition]
    rfl

theorem pairwise_paramNames (columns : HashOrder String) (header : List String) :
    (paramNames columns header).Pairwise fun first second =>
      Java.compareTo first second = .lt :=
  Std.ExtTreeMap.ordered_keys

theorem exists_leads (columns : HashOrder String) (hnamed : ParamsNamed header)
    (hcolumns : paramColumns header ≠ []) : ∃ lead, Leads header lead := by
  obtain ⟨column, hcolumn⟩ := List.exists_mem_of_ne_nil _ hcolumns
  have hkey := (mem_paramNames columns hnamed).mpr ⟨column, hcolumn, rfl⟩
  have hordered := pairwise_paramNames columns header
  cases hnames : paramNames columns header with
  | nil => simp [hnames] at hkey
  | cons key keys =>
      rw [hnames] at hordered
      obtain ⟨lead, hlead, rfl⟩ :=
        (mem_paramNames columns hnamed).mp (hnames ▸ List.mem_cons_self)
      refine ⟨lead, hlead, fun name hname => ?_⟩
      have hin := (mem_paramNames columns hnamed).mpr ⟨name, hname, rfl⟩
      rw [hnames, List.mem_cons] at hin
      rcases hin with heq | hin
      · have htie : Java.compareTo ((trimmedName lead).getD "") ((trimmedName lead).getD "") = .eq :=
          Std.ReflCmp.compare_self
        rw [heq, htie]
        decide
      · rw [List.rel_of_pairwise_cons hordered hin]
        decide

/-- The name of the column that leads is the first key. -/
theorem Leads.paramNames_eq_cons {lead : String} (hlead : Leads header lead)
    (columns : HashOrder String) (hnamed : ParamsNamed header) :
    ∃ keys, paramNames columns header = (trimmedName lead).getD "" :: keys := by
  have hkey := (mem_paramNames columns hnamed).mpr ⟨lead, hlead.mem, rfl⟩
  have hordered := pairwise_paramNames columns header
  cases hnames : paramNames columns header with
  | nil => simp [hnames] at hkey
  | cons key keys =>
      rw [hnames] at hordered hkey
      obtain ⟨name, hname, rfl⟩ :=
        (mem_paramNames columns hnamed).mp (hnames ▸ List.mem_cons_self)
      rcases List.mem_cons.mp hkey with heq | hin
      · exact ⟨keys, by rw [heq]⟩
      · have hlt := List.rel_of_pairwise_cons hordered hin
        exact absurd (Std.OrientedCmp.gt_of_lt hlt) (hlead.first name hname)

/-- The tag of the leading column is the first one of a row. -/
theorem Leads.orders_eq_cons {lead : String} (hlead : Leads header lead)
    (columns : HashOrder String) (hnamed : ParamsNamed header) (row : Row) (index : ℕ) :
    ∃ tags, (paramsAt columns header index row).params.orders =
      (tagAt columns header index lead).toInt :: tags := by
  obtain ⟨keys, hkeys⟩ := hlead.paramNames_eq_cons columns hnamed
  rw [WorkloadParams.orders_eq_map_keys, keys_paramsAt_eq_paramNames, hkeys, List.map_cons,
    getElem?_paramsAt_column columns hnamed row index hlead.mem]
  exact ⟨_, rfl⟩

/-- The tag of the leading column decides between the tags of two rows. -/
theorem compare_orders_paramsAt (hnamed : ParamsNamed header) {lead : String}
    (hlead : Leads header lead) (first second : Row) (index position : ℕ) :
    compare (paramsAt columns header index first).params.orders
        (paramsAt columns header position second).params.orders =
      compare (tagAt columns header index lead).toInt (tagAt columns header position lead).toInt := by
  obtain ⟨tags, hfirst⟩ := hlead.orders_eq_cons columns hnamed first index
  obtain ⟨tags', hsecond⟩ := hlead.orders_eq_cons columns hnamed second position
  cases htags : compare (tagAt columns header index lead).toInt
      (tagAt columns header position lead).toInt with
  | eq =>
      have htag : rowTag header index = rowTag header position :=
        (BitVec.add_left_inj _).mp (BitVec.toInt_inj.mp (Std.LawfulEqCmp.eq_of_compare htags))
      rw [(orders_paramsAt_eq_iff hnamed index position).mpr htag]
      exact Std.ReflCmp.compare_self
  | lt =>
      rw [hfirst, hsecond, List.compare_cons_cons, htags]
      rfl
  | gt =>
      rw [hfirst, hsecond, List.compare_cons_cons, htags]
      rfl

end Tags

/-! ## What listing the rows means -/

/-- Both files have the same parameter columns and row for row the same benchmark, mode
and parameters. -/
structure SameRows (header other : List String) (baseRows patchRows : List Row) : Prop where
  columns : ∀ name, name ∈ paramColumns header ↔ name ∈ paramColumns other
  rows : List.Forall₂ (fun base patch => base.key.benchmark = patch.key.benchmark ∧
    base.key.mode = patch.key.mode ∧
      ∀ name ∈ paramColumns header, base.data.lookup name = patch.data.lookup name)
    baseRows patchRows

/-- Rows with their positions, by mode, then by benchmark, then by position. -/
def rowOrder (first second : Row × ℕ) : Ordering :=
  compareLex (compareOn fun entry : Row × ℕ => entry.1.key.mode.ordinal)
    (compareLex (compareOn fun entry : Row × ℕ => utf16 entry.1.key.benchmark)
      (compareOn Prod.snd)) first second

instance : Std.TransCmp rowOrder := inferInstanceAs (Std.TransCmp (compareLex _ (compareLex _ _)))

/-- The comparison succeeds with one result for every base row, which joins it with the
patch row at its position; the results stand in the order of the rows. -/
def ListsRows (columns : HashOrder String) (header : List String) (baseRows patchRows : List Row)
    (outcome : Except Failure (List RunResult)) : Prop :=
  ∃ results, outcome = .ok results ∧ ∃ entries : List (Row × ℕ),
    entries.Perm baseRows.zipIdx ∧
    entries.Pairwise (fun first second => rowOrder first second = .lt) ∧
    List.Forall₂ (fun entry runResult => ∃ patch, patchRows[entry.2]? = some patch ∧
      runResult.params = paramsAt columns header entry.2 entry.1 ∧
        IsJoin header entry.1 patch runResult) entries results

/-- Every parameter column gets the same tag in both files. -/
def TagsAlike (columns : HashOrder String) (header other : List String) : Prop :=
  ∀ name ∈ paramColumns header, columnTag columns header name = columnTag columns other name

/-- Among the rows of a benchmark and mode the tag that decides grows, as a signed number. -/
def TagsGrow (columns : HashOrder String) (header : List String) (rows : List Row) : Prop :=
  ∀ (index later : ℕ) (first second : Row) (lead : String), rows[index]? = some first →
    rows[later]? = some second → index < later → first.key.mode = second.key.mode →
      first.key.benchmark = second.key.benchmark → Leads header lead →
        (tagAt columns header index lead).toInt < (tagAt columns header later lead).toInt

section Growth

variable {columns : HashOrder String} {header : List String} {rows : List Row}

/-- The comparator orders two rows by position exactly when, should mode and benchmark tie,
their tags stand in the order of the positions. -/
theorem order_entryKey_eq_rowOrder_iff (first second : Row × ℕ) :
    BenchmarkParams.order (entryKey columns header first) (entryKey columns header second) =
        rowOrder first second ↔
      (first.1.key.mode = second.1.key.mode → first.1.key.benchmark = second.1.key.benchmark →
        compare (entryKey columns header first).params.orders
          (entryKey columns header second).params.orders = compare first.2 second.2) := by
  have hmodes : compare first.1.key.mode.ordinal second.1.key.mode.ordinal = .eq ↔
      first.1.key.mode = second.1.key.mode :=
    ⟨fun h => Mode.ordinal_injective (Std.LawfulEqCmp.eq_of_compare h),
      fun h => by rw [h]; exact Std.ReflCmp.compare_self⟩
  have hnames : compare (utf16 first.1.key.benchmark) (utf16 second.1.key.benchmark) = .eq ↔
      first.1.key.benchmark = second.1.key.benchmark :=
    ⟨fun h => utf16_injective (Std.LawfulEqCmp.eq_of_compare h),
      fun h => by rw [h]; exact Std.ReflCmp.compare_self⟩
  rw [← hmodes, ← hnames]
  show (compare first.1.key.mode.ordinal second.1.key.mode.ordinal).then
      ((compare (utf16 first.1.key.benchmark) (utf16 second.1.key.benchmark)).then
        (compare (entryKey columns header first).params.orders
          (entryKey columns header second).params.orders)) =
    (compare first.1.key.mode.ordinal second.1.key.mode.ordinal).then
      ((compare (utf16 first.1.key.benchmark) (utf16 second.1.key.benchmark)).then
        (compare first.2 second.2)) ↔ _
  cases compare first.1.key.mode.ordinal second.1.key.mode.ordinal with
  | lt => simp
  | gt => simp
  | eq => cases compare (utf16 first.1.key.benchmark) (utf16 second.1.key.benchmark) <;> simp

/-- The tags grow exactly when the comparator sees the rows in their order. -/
theorem tagsGrow_iff (hnamed : ParamsNamed header) (hcolumns : paramColumns header ≠ []) :
    TagsGrow columns header rows ↔ ∀ first ∈ rows.zipIdx, ∀ second ∈ rows.zipIdx,
      BenchmarkParams.order (entryKey columns header first) (entryKey columns header second) =
        rowOrder first second := by
  constructor
  · intro hgrow first hfirst second hsecond
    obtain ⟨lead, hlead⟩ := exists_leads columns hnamed hcolumns
    have hfirstRow := List.mem_zipIdx_iff_getElem?.mp hfirst
    have hsecondRow := List.mem_zipIdx_iff_getElem?.mp hsecond
    rw [order_entryKey_eq_rowOrder_iff]
    intro hmode hbenchmark
    rw [compare_orders_paramsAt hnamed hlead]
    rcases Nat.lt_trichotomy first.2 second.2 with hlt | heq | hgt
    · rw [compare_lt_iff_lt.mpr hlt, compare_lt_iff_lt]
      exact hgrow _ _ _ _ lead hfirstRow hsecondRow hlt hmode hbenchmark hlead
    · rw [heq, compare_eq_iff_eq.mpr rfl]
      exact (compare_eq_iff_eq.mpr rfl).symm
    · rw [compare_gt_iff_gt.mpr hgt, compare_gt_iff_gt]
      exact hgrow _ _ _ _ lead hsecondRow hfirstRow hgt hmode.symm hbenchmark.symm hlead
  · intro horder index later first second lead hfirst hsecond hlt hmode hbenchmark hlead
    have hentries := horder (first, index) (List.mem_zipIdx_iff_getElem?.mpr hfirst)
      (second, later) (List.mem_zipIdx_iff_getElem?.mpr hsecond)
    have htags := (order_entryKey_eq_rowOrder_iff _ _).mp hentries hmode hbenchmark
    rw [compare_orders_paramsAt hnamed hlead, compare_lt_iff_lt.mpr hlt, compare_lt_iff_lt] at htags
    exact htags

/-- Until the counter passes the largest integer the tags grow. -/
theorem tagsGrow_of_length_mul_le
    (hcount : rows.length * (paramColumns header).length ≤ 2 ^ 31) :
    TagsGrow columns header rows := by
  intro index later first second lead hfirst hsecond hlt _ _ hlead
  have hplace : (paramOrder columns header).idxOf lead < (paramColumns header).length := by
    rw [← (paramOrder_perm columns header).length_eq]
    exact List.idxOf_lt_length_of_mem ((mem_paramOrder columns).mpr hlead.mem)
  have htag : ∀ position < rows.length, (tagAt columns header position lead).toInt =
      position * (paramColumns header).length + (paramOrder columns header).idxOf lead := by
    intro position hposition
    have hbound : (position + 1) * (paramColumns header).length ≤
        rows.length * (paramColumns header).length := Nat.mul_le_mul_right _ hposition
    rw [Nat.succ_mul] at hbound
    rw [tagAt, rowTag, columnTag, ← BitVec.ofNat_add, BitVec.toInt_ofNat', Int.bmod_eq_of_le]
    · push_cast
      rfl
    · omega
    · omega
  have hsecondLt : later < rows.length := (List.getElem?_eq_some_iff.mp hsecond).1
  have hgrow : index * (paramColumns header).length < later * (paramColumns header).length :=
    Nat.mul_lt_mul_of_pos_right hlt (by omega)
  rw [htag index (by omega), htag later hsecondLt]
  omega

end Growth

/-! ## The loop over the base keys -/

/-- The outcome of looking the stored base rows up among the stored patch rows. -/
def listOutcome (columns : HashOrder String) (rows : HashOrder BenchmarkParams)
    (header other : List String) (baseRows patchRows : List Row) : Except Failure (List RunResult) :=
  (rows.order (storeRows columns header 0 baseRows ∅).keys).foldlM
    (addResult (storeRows columns header 0 baseRows ∅) (storeRows columns other 0 patchRows ∅)) []

section Loop

variable {columns : HashOrder String} {header other : List String} {baseRows patchRows : List Row}

/-- The keys the loop runs over are those of the rows at their positions. -/
theorem mem_order_keys_iff_entry (rows : HashOrder BenchmarkParams) {params : BenchmarkParams} :
    params ∈ rows.order (storeRows columns header 0 baseRows ∅).keys ↔
      ∃ entry ∈ baseRows.zipIdx, params = entryKey columns header entry := by
  rw [mem_order_keys]
  constructor
  · rintro ⟨index, row, hrow, heq⟩
    exact ⟨(row, index), List.mem_zipIdx_iff_getElem?.mpr hrow, heq⟩
  · rintro ⟨entry, hentry, heq⟩
    exact ⟨entry.2, entry.1, List.mem_zipIdx_iff_getElem?.mp hentry, heq⟩

/-- The results of a loop that succeeds are sorted. -/
theorem pairwise_of_foldlM_eq_ok {baseFile patchFile : CsvFile} {list : List BenchmarkParams}
    {results : List RunResult}
    (hok : list.foldlM (addResult baseFile patchFile) [] = .ok results)
    (hcompare : ∀ first ∈ list, ∀ second ∈ list,
      first.compareTo second = .ok (BenchmarkParams.order first second)) :
    results.Pairwise fun first second => resultOrder first second = .lt := by
  obtain ⟨found, _, hfound, _, hrepresents⟩ :=
    foldlM_addResult (fun params hparams => exists_joined_of_foldlM hok hparams) hcompare
  obtain rfl : found = results := Except.ok.inj (hfound.symm.trans hok)
  exact hrepresents.sorted

/-- Results that show the keys of rows stand in the order of the keys. -/
theorem map_params_eq_map_entryKey {entries : List (Row × ℕ)} {results : List RunResult}
    (h : List.Forall₂ (fun entry runResult => ∃ patch, patchRows[entry.2]? = some patch ∧
      runResult.params = paramsAt columns header entry.2 entry.1 ∧
        IsJoin header entry.1 patch runResult) entries results) :
    results.map RunResult.params = entries.map (entryKey columns header) :=
  map_eq_map_of_forall₂ (h.flip.imp fun _ _ hjoins =>
    have ⟨_, _, hparams, _⟩ := hjoins
    hparams)

/-- If every row is listed, the comparator sees the rows in their order. -/
theorem ListsRows.tagsGrow {rows : HashOrder BenchmarkParams} (hnamed : ParamsNamed header)
    (hcolumns : paramColumns header ≠ [])
    (hlists : ListsRows columns header baseRows patchRows
      (listOutcome columns rows header other baseRows patchRows)) :
    TagsGrow columns header baseRows := by
  obtain ⟨results, hok, entries, hperm, hsorted, hjoins⟩ := hlists
  have hkeys := (pairwise_resultOrder_iff (map_params_eq_map_entryKey hjoins)).mp
    (pairwise_of_foldlM_eq_ok hok (compareTo_of_mem_order_keys rows))
  have hagree : entries.Pairwise fun first second =>
      BenchmarkParams.order (entryKey columns header first) (entryKey columns header second) =
        rowOrder first second := by
    apply (hkeys.and hsorted).imp
    rintro first second ⟨hkey, hrow⟩
    rw [hkey, hrow]
  have hsymm : Std.Symm fun first second : Row × ℕ =>
      BenchmarkParams.order (entryKey columns header first) (entryKey columns header second) =
        rowOrder first second := by
    constructor
    intro first second h
    have hswap : BenchmarkParams.order (entryKey columns header second)
        (entryKey columns header first) = (BenchmarkParams.order (entryKey columns header first)
          (entryKey columns header second)).swap := Std.OrientedCmp.eq_swap
    rw [hswap, h]
    exact Std.OrientedCmp.eq_swap.symm
  rw [tagsGrow_iff hnamed hcolumns]
  intro first hfirst second hsecond
  refine hagree.forall_of_forall (fun entry _ => ?_) (hperm.mem_iff.mpr hfirst)
    (hperm.mem_iff.mpr hsecond)
  exact Std.ReflCmp.compare_self.trans Std.ReflCmp.compare_self.symm

/-- If every row finds a partner, both files hand out the tags alike. -/
theorem tagsAlike_of_eq_ok {rows : HashOrder BenchmarkParams} {results : List RunResult}
    (hnamed : ParamsNamed header) (hsame : SameRows header other baseRows patchRows)
    (hbaseFits : ∀ row ∈ baseRows, row.Fits header) (hpatchFits : ∀ row ∈ patchRows, row.Fits other)
    (hok : listOutcome columns rows header other baseRows patchRows = .ok results)
    (hne : baseRows ≠ []) : TagsAlike columns header other := by
  obtain ⟨first, hfirst⟩ : ∃ first, baseRows[0]? = some first := by
    cases baseRows with
    | nil => exact absurd rfl hne
    | cons first _ => exact ⟨first, rfl⟩
  have hkey : paramsAt columns header 0 first ∈
      rows.order (storeRows columns header 0 baseRows ∅).keys :=
    (mem_order_keys rows).mpr ⟨0, first, hfirst, rfl⟩
  obtain ⟨_, _, data, _, hpatch, _⟩ := exists_joined_of_foldlM hok hkey
  have hmem : paramsAt columns header 0 first ∈ storeRows columns other 0 patchRows ∅ :=
    AList.lookup_isSome.mp (Option.isSome_iff_exists.mpr ⟨data, hpatch⟩)
  rcases mem_storeRows.mp hmem with ⟨position, patch, hrow, heq⟩ | hempty
  · obtain ⟨-, -, hcells⟩ := (paramsAt_eq_paramsAt_iff hnamed hsame.columns
      (hbaseFits first (List.mem_of_getElem? hfirst))
      (hpatchFits patch (List.mem_of_getElem? hrow)) 0 _).mp heq
    exact fun name hname =>
      columnTag_eq_of_tagAt_eq hsame.columns (fun other hother => (hcells other hother).2) hname
  · exact absurd hempty (AList.notMem_empty _)

/-- Rows at the same position agree. -/
theorem SameRows.exists_patch (hsame : SameRows header other baseRows patchRows) {index : ℕ}
    {base : Row} (hbase : baseRows[index]? = some base) :
    ∃ patch, patchRows[index]? = some patch ∧ base.key.benchmark = patch.key.benchmark ∧
      base.key.mode = patch.key.mode ∧
        ∀ name ∈ paramColumns header, base.data.lookup name = patch.data.lookup name := by
  have hrows := hsame.rows
  generalize baseRows = left at hrows hbase
  generalize patchRows = right at hrows
  induction hrows generalizing index with
  | nil => cases hbase
  | @cons first second _ _ hfirst _ ih =>
      cases index with
      | zero =>
          obtain rfl : first = base := Option.some.inj hbase
          exact ⟨second, rfl, hfirst⟩
      | succ index => exact ih hbase

/-- Under tags that are alike, a row is stored under the same parameters in both files. -/
theorem SameRows.entryKey_eq (hsame : SameRows header other baseRows patchRows)
    (hnamed : ParamsNamed header) (hbaseFits : ∀ row ∈ baseRows, row.Fits header)
    (hpatchFits : ∀ row ∈ patchRows, row.Fits other) (halike : TagsAlike columns header other)
    {index : ℕ} {base patch : Row} (hbase : baseRows[index]? = some base)
    (hpatch : patchRows[index]? = some patch) :
    paramsAt columns header index base = paramsAt columns other index patch := by
  obtain ⟨found, hfound, hbenchmark, hmode, hvalues⟩ := hsame.exists_patch hbase
  obtain rfl : found = patch := Option.some.inj (hfound.symm.trans hpatch)
  rw [paramsAt_eq_paramsAt_iff hnamed hsame.columns (hbaseFits base (List.mem_of_getElem? hbase))
    (hpatchFits found (List.mem_of_getElem? hpatch))]
  refine ⟨hbenchmark, hmode, fun name hname => ⟨hvalues name hname, ?_⟩⟩
  rw [tagAt, tagAt, halike name hname, rowTag_congr hsame.columns]

/-- Where the tags grow, no two rows tie. -/
theorem TagsGrow.eq_of_tie (hgrow : TagsGrow columns header baseRows) (hnamed : ParamsNamed header)
    (hcolumns : paramColumns header ≠ []) {first second : Row × ℕ}
    (hfirst : first ∈ baseRows.zipIdx) (hsecond : second ∈ baseRows.zipIdx)
    (htie : BenchmarkParams.order (entryKey columns header first)
      (entryKey columns header second) = .eq) : first = second := by
  rw [(tagsGrow_iff hnamed hcolumns).mp hgrow first hfirst second hsecond] at htie
  have hposition : first.2 = second.2 := by
    simp only [rowOrder, compareLex, compareOn, Ordering.then_eq_eq] at htie
    exact compare_eq_iff_eq.mp htie.2.2
  have hrow := List.mem_zipIdx_iff_getElem?.mp hfirst
  rw [hposition, List.mem_zipIdx_iff_getElem?.mp hsecond] at hrow
  exact Prod.ext (Option.some.inj hrow).symm hposition

theorem TagsGrow.entryKey_inj (hgrow : TagsGrow columns header baseRows)
    (hnamed : ParamsNamed header) (hcolumns : paramColumns header ≠ []) {first second : Row × ℕ}
    (hfirst : first ∈ baseRows.zipIdx) (hsecond : second ∈ baseRows.zipIdx)
    (heq : entryKey columns header first = entryKey columns header second) : first = second := by
  refine hgrow.eq_of_tie hnamed hcolumns hfirst hsecond ?_
  rw [heq]
  exact Std.ReflCmp.compare_self

/-- Where the tags grow, every row keeps its line. -/
theorem TagsGrow.lookup_base (hgrow : TagsGrow columns header baseRows)
    (hnamed : ParamsNamed header) (hcolumns : paramColumns header ≠ []) {entry : Row × ℕ}
    (hentry : entry ∈ baseRows.zipIdx) :
    (storeRows columns header 0 baseRows ∅).lookup (entryKey columns header entry) =
      some entry.1.data := by
  have hstored := lookup_storeRows_of_apart columns header 0 ∅
    (List.mem_zipIdx_iff_getElem?.mp hentry) fun later row hrow hlater heq => ?_
  · rwa [Nat.zero_add] at hstored
  · have hmem : (row, later) ∈ baseRows.zipIdx := List.mem_zipIdx_iff_getElem?.mpr hrow
    rw [Nat.zero_add, Nat.zero_add] at heq
    rw [hgrow.entryKey_inj hnamed hcolumns hentry hmem heq] at hlater
    exact absurd hlater (Nat.lt_irrefl _)

/-- Where moreover the tags are alike, a base row finds the patch row at its position. -/
theorem TagsGrow.lookup_patch (hgrow : TagsGrow columns header baseRows)
    (hnamed : ParamsNamed header) (hcolumns : paramColumns header ≠ [])
    (hsame : SameRows header other baseRows patchRows)
    (hbaseFits : ∀ row ∈ baseRows, row.Fits header) (hpatchFits : ∀ row ∈ patchRows, row.Fits other)
    (halike : TagsAlike columns header other) {entry : Row × ℕ} (hentry : entry ∈ baseRows.zipIdx)
    {patch : Row} (hpatch : patchRows[entry.2]? = some patch) :
    (storeRows columns other 0 patchRows ∅).lookup (entryKey columns header entry) =
      some patch.data := by
  have hkey : ∀ {index : ℕ} {base row : Row}, baseRows[index]? = some base →
      patchRows[index]? = some row →
        paramsAt columns header index base = paramsAt columns other index row :=
    fun hbase hrow => hsame.entryKey_eq hnamed hbaseFits hpatchFits halike hbase hrow
  have hbase := List.mem_zipIdx_iff_getElem?.mp hentry
  have hstored := lookup_storeRows_of_apart columns other 0 ∅ hpatch
    fun later row hrow hlater heq => ?_
  · rw [Nat.zero_add, ← hkey hbase hpatch] at hstored
    exact hstored
  · obtain ⟨second, hsecond⟩ : ∃ second, baseRows[later]? = some second := by
      have hlength := hsame.rows.length_eq
      have hlt := (List.getElem?_eq_some_iff.mp hrow).1
      exact ⟨baseRows[later], List.getElem?_eq_getElem (by omega)⟩
    have hmem : (second, later) ∈ baseRows.zipIdx := List.mem_zipIdx_iff_getElem?.mpr hsecond
    rw [Nat.zero_add, Nat.zero_add, ← hkey hbase hpatch, ← hkey hsecond hrow] at heq
    rw [hgrow.entryKey_inj hnamed hcolumns hentry hmem heq] at hlater
    exact absurd hlater (Nat.lt_irrefl _)

/-- Where the tags grow, the keys that the loop runs over are those of the rows, each once. -/
theorem TagsGrow.order_keys_perm (hgrow : TagsGrow columns header baseRows)
    (hnamed : ParamsNamed header) (hcolumns : paramColumns header ≠ [])
    (rows : HashOrder BenchmarkParams) :
    (rows.order (storeRows columns header 0 baseRows ∅).keys).Perm
      (baseRows.zipIdx.map (entryKey columns header)) := by
  have hnodup : (rows.order (storeRows columns header 0 baseRows ∅).keys).Nodup :=
    (rows.perm _).nodup_iff.mpr (AList.keys_nodup _)
  rw [List.perm_ext_iff_of_nodup hnodup ((nodup_zipIdx baseRows).map_on
    fun first hfirst second hsecond heq => hgrow.entryKey_inj hnamed hcolumns hfirst hsecond heq)]
  intro params
  rw [mem_order_keys_iff_entry, List.mem_map]
  exact ⟨fun ⟨entry, hentry, heq⟩ => ⟨entry, hentry, heq.symm⟩,
    fun ⟨entry, hentry, heq⟩ => ⟨entry, hentry, heq.symm⟩⟩

/-- Where the tags grow, no result is lost. -/
theorem TagsGrow.results_perm (hgrow : TagsGrow columns header baseRows)
    (hnamed : ParamsNamed header) (hcolumns : paramColumns header ≠ [])
    (rows : HashOrder BenchmarkParams) {joins results : List RunResult}
    (hparams : joins.map RunResult.params =
      rows.order (storeRows columns header 0 baseRows ∅).keys)
    (hrepresents : TreeSet.Represents resultOrder joins results) : results.Perm joins := by
  have hnodup : (joins.map RunResult.params).Nodup := by
    rw [hparams]
    exact (rows.perm _).nodup_iff.mpr (AList.keys_nodup _)
  refine hrepresents.perm (List.Nodup.of_map _ hnodup) fun first hfirst second hsecond htie => ?_
  have hentry : ∀ runResult ∈ joins, ∃ entry ∈ baseRows.zipIdx,
      runResult.params = entryKey columns header entry := by
    intro runResult hrun
    rw [← mem_order_keys_iff_entry rows, ← hparams]
    exact List.mem_map_of_mem hrun
  obtain ⟨left, hleft, hleftKey⟩ := hentry first hfirst
  obtain ⟨right, hright, hrightKey⟩ := hentry second hsecond
  rw [resultOrder, hleftKey, hrightKey] at htie
  have hsame := hgrow.eq_of_tie hnamed hcolumns hleft hright htie
  exact List.inj_on_of_nodup_map hnodup hfirst hsecond (by rw [hleftKey, hrightKey, hsame])

/-- Alike and growing tags find the patch row at the position of a base row. -/
theorem TagsGrow.exists_lookup_patch (hgrow : TagsGrow columns header baseRows)
    (hnamed : ParamsNamed header) (hcolumns : paramColumns header ≠ [])
    (hsame : SameRows header other baseRows patchRows)
    (hbaseFits : ∀ row ∈ baseRows, row.Fits header) (hpatchFits : ∀ row ∈ patchRows, row.Fits other)
    (halike : baseRows ≠ [] → TagsAlike columns header other) :
    ∀ entry ∈ baseRows.zipIdx, ∃ patch, patchRows[entry.2]? = some patch ∧
      (storeRows columns other 0 patchRows ∅).lookup (entryKey columns header entry) =
        some patch.data := by
  intro entry hentry
  have hne : baseRows ≠ [] := by
    rintro rfl
    cases hentry
  obtain ⟨patch, hpatch, -⟩ := hsame.exists_patch (List.mem_zipIdx_iff_getElem?.mp hentry)
  exact ⟨patch, hpatch, hgrow.lookup_patch hnamed hcolumns hsame hbaseFits hpatchFits (halike hne)
    hentry hpatch⟩

section Found

variable (hgrow : TagsGrow columns header baseRows) (hnamed : ParamsNamed header)
  (hcolumns : paramColumns header ≠ [])
  (hfind : ∀ entry ∈ baseRows.zipIdx, ∃ patch, patchRows[entry.2]? = some patch ∧
    (storeRows columns other 0 patchRows ∅).lookup (entryKey columns header entry) =
      some patch.data)
include hgrow hnamed hcolumns hfind

/-- Then the parameters of every base row join two stored rows. -/
theorem TagsGrow.exists_joinsStored (hnumbers : NumbersReadable baseRows patchRows)
    (rows : HashOrder BenchmarkParams) :
    ∀ params ∈ rows.order (storeRows columns header 0 baseRows ∅).keys,
      ∃ runResult, JoinsStored (storeRows columns header 0 baseRows ∅)
        (storeRows columns other 0 patchRows ∅) params runResult := by
  intro params hparams
  obtain ⟨entry, hentry, rfl⟩ := (mem_order_keys_iff_entry rows).mp hparams
  obtain ⟨patch, hpatch, hlookup⟩ := hfind entry hentry
  obtain ⟨runResult, hjoined⟩ := exists_joined hnumbers
    (List.mem_of_getElem? (List.mem_zipIdx_iff_getElem?.mp hentry)) (List.mem_of_getElem? hpatch)
    (entryKey columns header entry)
  exact ⟨runResult, entry.1.data, patch.data, hgrow.lookup_base hnamed hcolumns hentry, hlookup,
    hjoined⟩

/-- What joins the stored rows under the parameters of a base row joins that row and the patch
row at its position. -/
theorem TagsGrow.isJoin_of_joinsStored (hbaseFits : ∀ row ∈ baseRows, row.Fits header)
    {entry : Row × ℕ} (hentry : entry ∈ baseRows.zipIdx) {runResult : RunResult}
    (hjoins : JoinsStored (storeRows columns header 0 baseRows ∅)
      (storeRows columns other 0 patchRows ∅) (entryKey columns header entry) runResult) :
    ∃ patch, patchRows[entry.2]? = some patch ∧
      runResult.params = paramsAt columns header entry.2 entry.1 ∧
        IsJoin header entry.1 patch runResult := by
  obtain ⟨base, patchData, hbase, hpatchData, hjoined⟩ := hjoins
  rw [hgrow.lookup_base hnamed hcolumns hentry] at hbase
  obtain ⟨patch, hpatch, hlookup⟩ := hfind entry hentry
  rw [hlookup] at hpatchData
  cases hbase
  cases hpatchData
  have hfits := hbaseFits entry.1 (List.mem_of_getElem? (List.mem_zipIdx_iff_getElem?.mp hentry))
  exact ⟨patch, hpatch, hjoined.runParams, isJoin_of_joined hnamed hfits hjoined⟩

end Found

/-- Alike and growing tags list every row. -/
theorem listsRows_of_tags (hnamed : ParamsNamed header) (hcolumns : paramColumns header ≠ [])
    (hsame : SameRows header other baseRows patchRows)
    (hbaseFits : ∀ row ∈ baseRows, row.Fits header) (hpatchFits : ∀ row ∈ patchRows, row.Fits other)
    (hnumbers : NumbersReadable baseRows patchRows) (rows : HashOrder BenchmarkParams)
    (halike : baseRows ≠ [] → TagsAlike columns header other)
    (hgrow : TagsGrow columns header baseRows) :
    ListsRows columns header baseRows patchRows
      (listOutcome columns rows header other baseRows patchRows) := by
  have hfind := hgrow.exists_lookup_patch hnamed hcolumns hsame hbaseFits hpatchFits halike
  obtain ⟨results, joins, hresults, hjoins, hrepresents⟩ :=
    foldlM_addResult (hgrow.exists_joinsStored hnamed hcolumns hfind hnumbers rows)
      (compareTo_of_mem_order_keys rows)
  have hkeys := hgrow.order_keys_perm hnamed hcolumns rows
  -- The joins in the order of the rows, and the results as a rearrangement of them.
  obtain ⟨rowJoins, hrowJoins, hrearranged⟩ := List.perm_comp_forall₂ hkeys.symm hjoins
  have hshown : results.Perm rowJoins := (hgrow.results_perm hnamed hcolumns rows
    (map_params_eq_of_forall₂ hjoins) hrepresents).trans hrearranged.symm
  have hlisted : List.Forall₂ (fun runResult entry => ∃ patch, patchRows[entry.2]? = some patch ∧
      runResult.params = paramsAt columns header entry.2 entry.1 ∧
        IsJoin header entry.1 patch runResult) rowJoins baseRows.zipIdx := by
    have hentries := (List.forall₂_and_left (p := fun entry => entry ∈ baseRows.zipIdx) _ _).mpr
      ⟨fun _ hentry => hentry, List.forall₂_map_left_iff.mp hrowJoins⟩
    exact hentries.flip.imp fun runResult entry h =>
      hgrow.isJoin_of_joinsStored hnamed hcolumns hfind hbaseFits h.1 h.2
  obtain ⟨entries, hentries, hperm⟩ := List.perm_comp_forall₂ hshown hlisted
  refine ⟨results, hresults, entries, hperm, ?_, hentries.flip⟩
  have hsorted := (pairwise_resultOrder_iff (map_params_eq_map_entryKey hentries.flip)).mp
    hrepresents.sorted
  apply hsorted.imp_of_mem
  intro first second hfirst hsecond hlt
  rwa [(tagsGrow_iff hnamed hcolumns).mp hgrow first (hperm.mem_iff.mp hfirst) second
    (hperm.mem_iff.mp hsecond)] at hlt

/-- Every row is listed exactly when both files hand out the tags alike and the tags grow. -/
theorem listsRows_listOutcome_iff (hnamed : ParamsNamed header)
    (hcolumns : paramColumns header ≠ []) (hsame : SameRows header other baseRows patchRows)
    (hbaseFits : ∀ row ∈ baseRows, row.Fits header) (hpatchFits : ∀ row ∈ patchRows, row.Fits other)
    (hnumbers : NumbersReadable baseRows patchRows) (rows : HashOrder BenchmarkParams) :
    ListsRows columns header baseRows patchRows
        (listOutcome columns rows header other baseRows patchRows) ↔
      (baseRows ≠ [] → TagsAlike columns header other) ∧ TagsGrow columns header baseRows := by
  constructor
  · intro hlists
    refine ⟨fun hne => ?_, hlists.tagsGrow hnamed hcolumns⟩
    obtain ⟨results, hok, -⟩ := hlists
    exact tagsAlike_of_eq_ok hnamed hsame hbaseFits hpatchFits hok hne
  · rintro ⟨halike, hgrow⟩
    exact listsRows_of_tags hnamed hcolumns hsame hbaseFits hpatchFits hnumbers rows halike hgrow

end Loop

/-! ## The comparison of two files -/

section Files

variable {csvPaths : List CsvPath} {basePath patchPath : CsvPath} {header other : List String}
  {baseRows patchRows : List Row}

/-- The comparison of two files that spell tables looks up the stored rows. -/
theorem readCsvFiles_eq_listOutcome (columns : HashOrder String) (rows : HashOrder BenchmarkParams)
    (hbase : labelCsvPaths csvPaths .base = some basePath)
    (hpatch : labelCsvPaths csvPaths .patch = some patchPath)
    (hbaseTable : tableOf basePath.text = some (header, baseRows))
    (hpatchTable : tableOf patchPath.text = some (other, patchRows))
    (hnamed : ParamsNamed header) (hnamed' : ParamsNamed other) :
    readCsvFiles columns rows csvPaths =
      listOutcome columns rows header other baseRows patchRows := by
  have hbaseFile : readCsv columns (some basePath) = _ := readCsv_eq_ok hnamed hbaseTable
  have hpatchFile : readCsv columns (some patchPath) = _ := readCsv_eq_ok hnamed' hpatchTable
  rw [readCsvFiles, hbase, hpatch, hbaseFile, hpatchFile]
  rfl

/-- For a base file with parameter columns and a patch file that lists the same rows in the
same order, the comparison lists every row exactly when the parameter columns have the same
tags in both files and the tag that decides grows with the position. -/
theorem listsRows_readCsvFiles_iff {columns : HashOrder String} {rows : HashOrder BenchmarkParams}
    (hbase : labelCsvPaths csvPaths .base = some basePath)
    (hpatch : labelCsvPaths csvPaths .patch = some patchPath)
    (hbaseTable : tableOf basePath.text = some (header, baseRows))
    (hpatchTable : tableOf patchPath.text = some (other, patchRows))
    (hnamed : ParamsNamed header) (hcolumns : paramColumns header ≠ [])
    (hsame : SameRows header other baseRows patchRows)
    (hnumbers : NumbersReadable baseRows patchRows) :
    ListsRows columns header baseRows patchRows (readCsvFiles columns rows csvPaths) ↔
      (baseRows ≠ [] → TagsAlike columns header other) ∧ TagsGrow columns header baseRows := by
  rw [readCsvFiles_eq_listOutcome columns rows hbase hpatch hbaseTable hpatchTable hnamed
    (hnamed.of_mem_iff hsame.columns)]
  exact listsRows_listOutcome_iff hnamed hcolumns hsame (fun _ => fits_of_tableOf hbaseTable)
    (fun _ => fits_of_tableOf hpatchTable) hnumbers rows

end Files

/-! ## Two small files -/

theorem sameRows_self (header : List String) (rows : List Row) : SameRows header header rows rows :=
  ⟨fun _ => Iff.rfl, List.forall₂_same.mpr fun _ _ => ⟨rfl, rfl, fun _ _ => rfl⟩⟩

/-- Both rows of the small files are listed. -/
theorem listsRows_readCsvFiles_samePath :
    ListsRows bucketOrder smallHeader [smallRow "2.5" "1", smallRow "5" "2"]
      [smallRow "2.5" "1", smallRow "5" "2"]
      (readCsvFiles bucketOrder insertionOrder [basePath, samePath]) := by
  have hbase : labelCsvPaths [basePath, samePath] .base = some basePath := rfl
  have hpatch : labelCsvPaths [basePath, samePath] .patch = some samePath := rfl
  have hcount : 2 * (paramColumns smallHeader).length ≤ 2 ^ 31 := by decide +kernel
  exact (listsRows_readCsvFiles_iff hbase hpatch tableOf_sameOrder tableOf_sameOrder
    (by decide +kernel) (by decide +kernel) (sameRows_self _ _) (by decide +kernel)).mpr
      ⟨fun _ _ _ => rfl, tagsGrow_of_length_mul_le hcount⟩

/-- A header with these two parameters; the hash codes of `Param: a` and `Param: q` meet in
one bucket. -/
def pairHeader (first second : String) : List String :=
  ["Benchmark", "Mode", "Samples", "Score", "Score Error (99.9%)", "Unit", first, second]

/-- A file with one row. -/
def pairText (first second firstValue secondValue : String) : String :=
  "\n".intercalate [",".intercalate (pairHeader first second),
    ",".intercalate ["a.b", "thrpt", "1", "2.5", "NaN", "ops/ms", firstValue, secondValue]]

def pairRow (first second firstValue secondValue : String) : Row :=
  ⟨⟨"a.b", .throughput, [some firstValue, some secondValue]⟩,
    (lineData (pairHeader first second)
      ["a.b", "thrpt", "1", "2.5", "NaN", "ops/ms", firstValue, secondValue] ∅).toOption.getD ∅⟩

def pairPath : CsvPath := ⟨"base-x.csv", pairText "Param: a" "Param: q" "1" "2"⟩

def turnedPath : CsvPath := ⟨"patch-x.csv", pairText "Param: q" "Param: a" "2" "1"⟩

theorem tableOf_pairPath :
    tableOf pairPath.text =
      some (pairHeader "Param: a" "Param: q", [pairRow "Param: a" "Param: q" "1" "2"]) :=
  tableOf_intercalate (by decide +kernel) (by decide +kernel) (by decide +kernel) (by decide +kernel)

theorem tableOf_turnedPath :
    tableOf turnedPath.text =
      some (pairHeader "Param: q" "Param: a", [pairRow "Param: q" "Param: a" "2" "1"]) :=
  tableOf_intercalate (by decide +kernel) (by decide +kernel) (by decide +kernel) (by decide +kernel)

theorem sameRows_turned :
    SameRows (pairHeader "Param: a" "Param: q") (pairHeader "Param: q" "Param: a")
      [pairRow "Param: a" "Param: q" "1" "2"] [pairRow "Param: q" "Param: a" "2" "1"] := by
  have hbase : paramColumns (pairHeader "Param: a" "Param: q") = ["Param: a", "Param: q"] := by
    decide +kernel
  have hpatch : paramColumns (pairHeader "Param: q" "Param: a") = ["Param: q", "Param: a"] := by
    decide +kernel
  refine ⟨fun name => ?_, List.Forall₂.cons ⟨rfl, rfl, ?_⟩ List.Forall₂.nil⟩
  · rw [hbase, hpatch]
    exact (List.Perm.swap _ _ _).mem_iff
  · rw [hbase]
    decide +kernel

/-- With its parameter columns the other way round a patch file fails to match the same rows. -/
theorem not_forall_listsRows_readCsvFiles :
    ¬ ∀ (columns : HashOrder String) (rows : HashOrder BenchmarkParams) (csvPaths : List CsvPath)
      (basePath patchPath : CsvPath) (header other : List String) (baseRows patchRows : List Row),
      labelCsvPaths csvPaths .base = some basePath →
      labelCsvPaths csvPaths .patch = some patchPath →
      tableOf basePath.text = some (header, baseRows) →
      tableOf patchPath.text = some (other, patchRows) →
      ParamsNamed header → paramColumns header ≠ [] → SameRows header other baseRows patchRows →
      NumbersReadable baseRows patchRows →
      ListsRows columns header baseRows patchRows (readCsvFiles columns rows csvPaths) := by
  intro hall
  have hbase : labelCsvPaths [pairPath, turnedPath] .base = some pairPath := rfl
  have hpatch : labelCsvPaths [pairPath, turnedPath] .patch = some turnedPath := rfl
  have hnamed : ParamsNamed (pairHeader "Param: a" "Param: q") := by decide +kernel
  have hlists := hall bucketOrder insertionOrder _ _ _ _ _ _ _ hbase hpatch tableOf_pairPath
    tableOf_turnedPath hnamed (by decide +kernel) sameRows_turned (by decide +kernel)
  rw [readCsvFiles_eq_listOutcome bucketOrder insertionOrder hbase hpatch tableOf_pairPath
    tableOf_turnedPath hnamed (hnamed.of_mem_iff sameRows_turned.columns)] at hlists
  obtain ⟨results, hok, -⟩ := hlists
  have halike := tagsAlike_of_eq_ok hnamed sameRows_turned (fun _ => fits_of_tableOf tableOf_pairPath)
    (fun _ => fits_of_tableOf tableOf_turnedPath) hok (List.cons_ne_nil _ _)
  exact absurd (halike "Param: a" (by decide +kernel)) (by decide +kernel)

end Colata.BenchmarkCompare
