/-
# The rows of a result file

A row of a file has a key, which is its benchmark, its mode and the values of its
parameters, and a position. The reader stores it under parameters that spell the
key and, in the order tags, the position times the number of parameters, as far as
32 bits go. Two rows are stored under equal parameters exactly when their keys and
their tags agree.
-/

import Colata.BenchmarkCompare.ReadCsv
import Mathlib.Data.List.Dedup

namespace Colata.BenchmarkCompare

open Colata.Java Colata.Math

/-- The names of the parameter columns. -/
def paramColumns (header : List String) : List String := header.dedup.filter isParam

/-- What identifies a row: benchmark, mode and the value of every parameter column. -/
structure RowKey where
  benchmark : String
  mode : Mode
  values : List (Option String)
  deriving DecidableEq

structure Row where
  key : RowKey
  data : CsvLine

instance : DecidableEq Row := fun first second =>
  decidable_of_iff (first.key = second.key ∧ first.data.entries = second.data.entries) <| by
    rw [← AList.ext_iff]
    cases first
    cases second
    rw [Row.mk.injEq]

/-- The row that a line spells, if it has a cell for every column and names its
benchmark and a mode. -/
def rowOf (header : List String) (line : String) : Option Row := do
  let data ← (lineData header (parseCsvLine line) ∅).toOption
  let benchmark ← data.lookup "Benchmark"
  let mode ← (modeOf data).toOption
  some ⟨⟨benchmark, mode, (paramColumns header).map data.lookup⟩, data⟩

/-- The header and the rows of a file all of whose data lines spell rows. -/
def tableOf (text : String) : Option (List String × List Row) :=
  match lines text with
  | [] => none
  | first :: rest =>
      ((rest.filter fun line => !isBlank line).mapM (rowOf (parseCsvLine first))).map fun rows =>
        (parseCsvLine first, rows)

/-- The table of a text that was put together from a header and lines. -/
theorem tableOf_intercalate {first : String} {rest : List String} {header : List String}
    {rows : List Row} (hplain : ∀ line ∈ first :: rest, Plain line.toList)
    (hlast : (first :: rest).getLast? ≠ some "") (hheader : parseCsvLine first = header)
    (hrows : (rest.filter fun line => !isBlank line).mapM (rowOf header) = some rows) :
    tableOf ("\n".intercalate (first :: rest)) = some (header, rows) := by
  subst hheader
  simp only [tableOf, lines_intercalate hplain hlast, hrows, Option.map_some]

/-- Every parameter column has a name behind its colon, and different columns have different
names. -/
structure ParamsNamed (header : List String) : Prop where
  named : ∀ name ∈ paramColumns header, ∃ trimmed, trimmedName name = some trimmed
  distinct : ∀ first ∈ paramColumns header, ∀ second ∈ paramColumns header,
    trimmedName first = trimmedName second → first = second

instance (header : List String) : Decidable (ParamsNamed header) :=
  decidable_of_iff
    ((∀ name ∈ paramColumns header, (trimmedName name).isSome = true) ∧
      ∀ first ∈ paramColumns header, ∀ second ∈ paramColumns header,
        trimmedName first = trimmedName second → first = second)
    ⟨fun h => ⟨fun name hname => Option.isSome_iff_exists.mp (h.1 name hname), h.2⟩,
      fun h => ⟨fun name hname => Option.isSome_iff_exists.mpr (h.named name hname), h.distinct⟩⟩

/-- The counter at the start of the row at this position. -/
def rowTag (header : List String) (index : ℕ) : BitVec 32 :=
  .ofNat 32 (index * (paramColumns header).length)

/-! ## The cells of a row -/

/-- The keys of a map after putting these, the latest first. -/
def insertedKeys (names keys : List String) : List String :=
  names.foldl (fun keys name => if name ∈ keys then keys else name :: keys) keys

theorem keys_lineData {header values : List String} {data result : CsvLine}
    (h : lineData header values data = .ok result) :
    result.keys = insertedKeys header data.keys := by
  induction header generalizing values data with
  | nil =>
      cases h
      rfl
  | cons name header ih =>
      cases values with
      | nil => cases h
      | cons value values =>
          rw [ih h, HashMap.keys_put]
          rfl

theorem mem_insertedKeys {names keys : List String} {name : String} :
    name ∈ insertedKeys names keys ↔ name ∈ names ∨ name ∈ keys := by
  induction names generalizing keys with
  | nil => simp [insertedKeys]
  | cons first names ih =>
      rw [insertedKeys, List.foldl_cons, ← insertedKeys, ih, List.mem_cons]
      split_ifs with hmem
      · constructor
        · tauto
        · rintro ((rfl | hnames) | hkeys)
          · exact .inr hmem
          · exact .inl hnames
          · exact .inr hkeys
      · rw [List.mem_cons]
        tauto

theorem nodup_insertedKeys {names keys : List String} (hkeys : keys.Nodup) :
    (insertedKeys names keys).Nodup := by
  induction names generalizing keys with
  | nil => exact hkeys
  | cons first names ih =>
      rw [insertedKeys, List.foldl_cons]
      split_ifs with hmem
      · exact ih hkeys
      · exact ih (List.nodup_cons.mpr ⟨hmem, hkeys⟩)

/-- The parameter columns in the order in which a row enumerates them. -/
def paramOrder (columns : HashOrder String) (header : List String) : List String :=
  (columns.order (insertedKeys header [])).filter isParam

theorem paramOrder_perm (columns : HashOrder String) (header : List String) :
    (paramOrder columns header).Perm (paramColumns header) := by
  apply ((columns.perm _).filter isParam).trans
  apply List.Perm.filter
  rw [List.perm_ext_iff_of_nodup (nodup_insertedKeys List.nodup_nil)
    (List.nodup_dedup header)]
  intro name
  rw [mem_insertedKeys, List.mem_dedup]
  simp

/-! ## The parameters of a row -/

/-- Store parameters with consecutive tags. -/
def assignParams (data : CsvLine) : List String → ParamMap → BitVec 32 → ParamMap
  | [], map, _ => map
  | name :: names, map, tag =>
      assignParams data names
        (map.insert ((trimmedName name).getD "") ⟨(data.lookup name).getD "", tag⟩) (tag + 1)

private theorem add_one_add_ofNat (tag : BitVec 32) (count : ℕ) :
    tag + 1 + .ofNat 32 count = tag + .ofNat 32 (count + 1) := by
  rw [BitVec.ofNat_add, BitVec.add_assoc, BitVec.add_comm 1]
  rfl

theorem foldlM_addParam (data : CsvLine) (names : List String) (map : ParamMap) (tag : BitVec 32)
    (hnamed : ∀ name ∈ names.filter isParam, ∃ trimmed, trimmedName name = some trimmed) :
    names.foldlM (addParam data) (map, tag) =
      .ok (assignParams data (names.filter isParam) map tag,
        tag + .ofNat 32 (names.filter isParam).length) := by
  induction names generalizing map tag with
  | nil =>
      rw [List.filter_nil, List.length_nil, BitVec.add_zero]
      rfl
  | cons name names ih =>
      by_cases hparam : isParam name = true
      · rw [List.filter_cons_of_pos hparam] at hnamed ⊢
        obtain ⟨trimmed, htrimmed⟩ := hnamed name List.mem_cons_self
        have hrest := ih (map.insert trimmed ⟨(data.lookup name).getD "", tag⟩) (tag + 1)
          fun other hother => hnamed other (List.mem_cons_of_mem name hother)
        rw [List.foldlM_cons, addParam, if_pos hparam, htrimmed]
        show List.foldlM (addParam data) _ names = _
        rw [hrest, assignParams, htrimmed, List.length_cons, add_one_add_ofNat, Option.getD_some]
      · rw [List.filter_cons_of_neg hparam] at hnamed ⊢
        rw [List.foldlM_cons, addParam, if_neg hparam]
        exact ih map tag hnamed

/-- A parameter that is not assigned keeps its value. -/
theorem getElem?_assignParams_of_forall_ne {data : CsvLine} {names : List String}
    {map : ParamMap} {tag : BitVec 32} {key : String}
    (hkey : ∀ name ∈ names, (trimmedName name).getD "" ≠ key) :
    (assignParams data names map tag)[key]? = map[key]? := by
  induction names generalizing map tag with
  | nil => rfl
  | cons name names ih =>
      have hname := hkey name List.mem_cons_self
      rw [assignParams, ih fun other hother => hkey other (List.mem_cons_of_mem name hother),
        Std.ExtTreeMap.getElem?_insert, if_neg]
      exact fun heq => hname (Std.LawfulEqCmp.eq_of_compare heq)

/-- The parameter at a position gets the tag that many steps on. -/
theorem getElem?_assignParams {data : CsvLine} {names : List String}
    (hdistinct : names.Pairwise fun first second =>
      (trimmedName first).getD "" ≠ (trimmedName second).getD "")
    (map : ParamMap) (tag : BitVec 32) {index : ℕ} {name : String}
    (hname : names[index]? = some name) :
    (assignParams data names map tag)[(trimmedName name).getD ""]? =
      some ⟨(data.lookup name).getD "", tag + .ofNat 32 index⟩ := by
  induction names generalizing map tag index with
  | nil => cases hname
  | cons first names ih =>
      obtain ⟨hfirst, hrest⟩ := List.pairwise_cons.mp hdistinct
      cases index with
      | zero =>
          obtain rfl : first = name := Option.some.inj hname
          rw [assignParams, getElem?_assignParams_of_forall_ne fun other hother =>
            (hfirst other hother).symm, Std.ExtTreeMap.getElem?_insert_self]
          simp
      | succ index =>
          rw [assignParams, ih hrest _ _ hname, add_one_add_ofNat]

/-- Tags and values do not decide which parameters there are. -/
theorem keys_assignParams (first second : CsvLine) (names : List String) {map other : ParamMap}
    (tag tag' : BitVec 32) (h : map.keys = other.keys) :
    (assignParams first names map tag).keys = (assignParams second names other tag').keys := by
  induction names generalizing map other tag tag' with
  | nil => exact h
  | cons name names ih =>
      apply ih
      rw [ParamMap.keys_eq_iff] at h ⊢
      intro key
      rw [Std.ExtTreeMap.mem_insert, Std.ExtTreeMap.mem_insert, h]

/-- The parameters under which a row is stored when the counter stands at `tag`. -/
def paramsFrom (columns : HashOrder String) (header : List String) (tag : BitVec 32) (row : Row) :
    BenchmarkParams :=
  ⟨some row.key.benchmark, row.key.mode,
    ⟨assignParams row.data (paramOrder columns header) ∅ tag⟩⟩

/-- The parameters under which the row at a position is stored. -/
def paramsAt (columns : HashOrder String) (header : List String) (index : ℕ) (row : Row) :
    BenchmarkParams :=
  paramsFrom columns header (rowTag header index) row

/-- The cells of the row are those of its header and its key. -/
structure Row.Fits (header : List String) (row : Row) : Prop where
  keys : row.data.keys = insertedKeys header []
  values : row.key.values = (paramColumns header).map row.data.lookup

theorem rowOf_eq_some {header : List String} {line : String} {row : Row}
    (h : rowOf header line = some row) :
    lineData header (parseCsvLine line) ∅ = .ok row.data ∧
      row.data.lookup "Benchmark" = some row.key.benchmark ∧ modeOf row.data = .ok row.key.mode ∧
      row.Fits header := by
  simp only [rowOf, Option.bind_eq_bind, Option.bind_eq_some_iff] at h
  obtain ⟨data, hdata, benchmark, hbenchmark, mode, hmode, hrow⟩ := h
  cases hrow
  cases hline : lineData header (parseCsvLine line) ∅ with
  | error failure => simp [hline, Except.toOption] at hdata
  | ok result =>
      obtain rfl : result = data := by simpa [hline, Except.toOption] using hdata
      cases hfound : modeOf result with
      | error failure => simp [hfound, Except.toOption] at hmode
      | ok found =>
          obtain rfl : found = mode := by simpa [hfound, Except.toOption] using hmode
          exact ⟨rfl, hbenchmark, rfl, keys_lineData hline, rfl⟩

section Fits

variable {columns : HashOrder String} {header : List String} {first second : Row}

theorem mem_paramOrder (columns : HashOrder String) {name : String} :
    name ∈ paramOrder columns header ↔ name ∈ paramColumns header :=
  (paramOrder_perm columns header).mem_iff

theorem Row.Fits.lookup_eq (h : first.Fits header) {name : String}
    (hname : name ∈ paramColumns header) :
    first.data.lookup name = some ((first.data.lookup name).getD "") := by
  have hheader : name ∈ header := List.mem_dedup.mp (List.mem_of_mem_filter hname)
  have hkeys : name ∈ first.data.keys := by
    rw [h.keys, mem_insertedKeys]
    exact Or.inl hheader
  obtain ⟨value, hvalue⟩ := Option.isSome_iff_exists.mp (AList.lookup_isSome.mpr hkeys)
  rw [hvalue, Option.getD_some]

theorem ParamsNamed.pairwise (h : ParamsNamed header) (columns : HashOrder String) :
    (paramOrder columns header).Pairwise fun first second =>
      (trimmedName first).getD "" ≠ (trimmedName second).getD "" := by
  have hnodup : (paramOrder columns header).Nodup :=
    (paramOrder_perm columns header).nodup_iff.mpr ((List.nodup_dedup header).filter _)
  apply hnodup.imp_of_mem
  intro left right hleft hright hne heq
  obtain ⟨name, hname⟩ := h.named left ((mem_paramOrder columns).mp hleft)
  obtain ⟨other, hother⟩ := h.named right ((mem_paramOrder columns).mp hright)
  rw [hname, hother, Option.getD_some, Option.getD_some] at heq
  apply hne
  apply h.distinct left ((mem_paramOrder columns).mp hleft) right ((mem_paramOrder columns).mp hright)
  rw [hname, hother, heq]

theorem rowTag_eq_zero (h : paramOrder columns header = []) (index : ℕ) :
    rowTag header index = 0 := by
  have hlength := (paramOrder_perm columns header).length_eq
  rw [h] at hlength
  rw [rowTag, ← hlength, List.length_nil, Nat.mul_zero]
  rfl

/-- What is stored for the parameter at a position of the enumeration. -/
theorem getElem?_paramsAt (hnamed : ParamsNamed header) (row : Row) (index : ℕ) {position : ℕ}
    {name : String} (hname : (paramOrder columns header)[position]? = some name) :
    (paramsAt columns header index row).params.params[(trimmedName name).getD ""]? =
      some ⟨(row.data.lookup name).getD "", rowTag header index + .ofNat 32 position⟩ :=
  getElem?_assignParams (hnamed.pairwise columns) ∅ (rowTag header index) hname

/-- The place of a parameter column in the enumeration of a row. -/
def columnTag (columns : HashOrder String) (header : List String) (name : String) : BitVec 32 :=
  .ofNat 32 ((paramOrder columns header).idxOf name)

/-- The order tag of a parameter in the row at a position. -/
def tagAt (columns : HashOrder String) (header : List String) (index : ℕ) (name : String) :
    BitVec 32 :=
  rowTag header index + columnTag columns header name

section Columns

variable {other : List String}

theorem getElem?_paramsAt_column (columns : HashOrder String) (hnamed : ParamsNamed header)
    (row : Row) (index : ℕ) {name : String} (hname : name ∈ paramColumns header) :
    (paramsAt columns header index row).params.params[(trimmedName name).getD ""]? =
      some ⟨(row.data.lookup name).getD "", tagAt columns header index name⟩ :=
  getElem?_paramsAt hnamed row index
    (List.getElem?_idxOf ((mem_paramOrder columns).mpr hname))

theorem getElem?_paramsAt_of_forall_ne (row : Row) (index : ℕ) {key : String}
    (hkey : ∀ name ∈ paramColumns header, (trimmedName name).getD "" ≠ key) :
    (paramsAt columns header index row).params.params[key]? = none := by
  rw [paramsAt, paramsFrom, getElem?_assignParams_of_forall_ne fun name hname =>
    hkey name ((mem_paramOrder columns).mp hname)]
  simp

theorem ParamsNamed.of_mem_iff (hnamed : ParamsNamed header)
    (hcolumns : ∀ name, name ∈ paramColumns header ↔ name ∈ paramColumns other) :
    ParamsNamed other where
  named := fun name hname => hnamed.named name ((hcolumns name).mpr hname)
  distinct := fun first hfirst second hsecond =>
    hnamed.distinct first ((hcolumns first).mpr hfirst) second ((hcolumns second).mpr hsecond)

theorem paramColumns_perm
    (hcolumns : ∀ name, name ∈ paramColumns header ↔ name ∈ paramColumns other) :
    (paramColumns header).Perm (paramColumns other) := by
  have hnodup : ∀ names : List String, (paramColumns names).Nodup :=
    fun names => (List.nodup_dedup names).filter _
  exact (List.perm_ext_iff_of_nodup (hnodup header) (hnodup other)).mpr hcolumns

/-- The counter moves alike in files with the same parameter columns. -/
theorem rowTag_congr (hcolumns : ∀ name, name ∈ paramColumns header ↔ name ∈ paramColumns other)
    (index : ℕ) : rowTag header index = rowTag other index := by
  rw [rowTag, rowTag, (paramColumns_perm hcolumns).length_eq]

/-- Rows of two files are stored under equal parameters exactly when benchmark, mode, and
the values and tags of all parameters agree. -/
theorem paramsAt_eq_paramsAt_iff (hnamed : ParamsNamed header)
    (hcolumns : ∀ name, name ∈ paramColumns header ↔ name ∈ paramColumns other)
    (hfirst : first.Fits header) (hsecond : second.Fits other) (index position : ℕ) :
    paramsAt columns header index first = paramsAt columns other position second ↔
      first.key.benchmark = second.key.benchmark ∧ first.key.mode = second.key.mode ∧
        ∀ name ∈ paramColumns header, first.data.lookup name = second.data.lookup name ∧
          tagAt columns header index name = tagAt columns other position name := by
  have hnamed' := hnamed.of_mem_iff hcolumns
  constructor
  · intro h
    refine ⟨Option.some.inj (congrArg BenchmarkParams.benchmark h),
      congrArg BenchmarkParams.mode h, fun name hname => ?_⟩
    have hcell := getElem?_paramsAt_column columns hnamed first index hname
    rw [h, getElem?_paramsAt_column columns hnamed' second position ((hcolumns name).mp hname),
      Option.some.injEq, Value.mk.injEq] at hcell
    refine ⟨?_, hcell.2.symm⟩
    rw [hfirst.lookup_eq hname, hsecond.lookup_eq ((hcolumns name).mp hname), hcell.1]
  · rintro ⟨hbenchmark, hmode, hcells⟩
    have hparams : (paramsAt columns header index first).params.params =
        (paramsAt columns other position second).params.params := by
      apply Std.ExtTreeMap.ext_getElem?
      intro key
      by_cases hkey : ∃ name ∈ paramColumns header, (trimmedName name).getD "" = key
      · obtain ⟨name, hname, rfl⟩ := hkey
        rw [getElem?_paramsAt_column columns hnamed first index hname,
          getElem?_paramsAt_column columns hnamed' second position ((hcolumns name).mp hname),
          (hcells name hname).1, (hcells name hname).2]
      · rw [getElem?_paramsAt_of_forall_ne first index fun name hname heq => hkey ⟨name, hname, heq⟩,
          getElem?_paramsAt_of_forall_ne second position fun name hname heq =>
            hkey ⟨name, (hcolumns name).mpr hname, heq⟩]
    unfold paramsAt paramsFrom at hparams ⊢
    simp only at hparams
    rw [hbenchmark, hmode, hparams]

end Columns

/-- Rows of one file are stored under equal parameters exactly when their keys and the
counter at their start agree. -/
theorem paramsAt_eq_iff (hnamed : ParamsNamed header) (hfirst : first.Fits header)
    (hsecond : second.Fits header) (index other : ℕ) :
    paramsAt columns header index first = paramsAt columns header other second ↔
      first.key = second.key ∧ rowTag header index = rowTag header other := by
  rw [paramsAt_eq_paramsAt_iff hnamed (fun _ => Iff.rfl) hfirst hsecond]
  constructor
  · rintro ⟨hbenchmark, hmode, hcells⟩
    have hvalues : first.key.values = second.key.values := by
      rw [hfirst.values, hsecond.values]
      exact List.map_congr_left fun name hname => (hcells name hname).1
    refine ⟨by cases hleft : first.key; cases hright : second.key; simp_all, ?_⟩
    cases hnames : paramOrder columns header with
    | nil => rw [rowTag_eq_zero hnames, rowTag_eq_zero hnames]
    | cons name names =>
        have hname : name ∈ paramColumns header :=
          (mem_paramOrder columns).mp (hnames ▸ List.mem_cons_self)
        exact (BitVec.add_left_inj _).mp (hcells name hname).2
  · rintro ⟨hkey, htag⟩
    refine ⟨by rw [hkey], by rw [hkey], fun name hname => ⟨?_, by rw [tagAt, tagAt, htag]⟩⟩
    have hmap := hfirst.values.symm.trans ((congrArg RowKey.values hkey).trans hsecond.values)
    exact List.map_inj_left.mp hmap name hname

theorem keys_paramsAt (index other : ℕ) :
    (paramsAt columns header index first).params.params.keys =
      (paramsAt columns header other second).params.params.keys :=
  keys_assignParams _ _ _ _ _ rfl

/-- The comparison of two stored rows succeeds. -/
theorem compareTo_paramsAt (index other : ℕ) :
    (paramsAt columns header index first).compareTo (paramsAt columns header other second) =
      .ok (BenchmarkParams.order (paramsAt columns header index first)
        (paramsAt columns header other second)) :=
  BenchmarkParams.compareTo_of_keys_eq rfl rfl (keys_paramsAt index other)

/-- Stored rows have the same list of tags exactly when the counter stood at the same value. -/
theorem orders_paramsAt_eq_iff (hnamed : ParamsNamed header) (index other : ℕ) :
    (paramsAt columns header index first).params.orders =
      (paramsAt columns header other second).params.orders ↔
        rowTag header index = rowTag header other := by
  rw [WorkloadParams.orders_eq_map_keys, WorkloadParams.orders_eq_map_keys,
    keys_paramsAt index other, List.map_inj_left]
  constructor
  · intro h
    cases hnames : paramOrder columns header with
    | nil => rw [rowTag_eq_zero hnames, rowTag_eq_zero hnames]
    | cons name names =>
        have hposition : (paramOrder columns header)[0]? = some name := by rw [hnames]; rfl
        have hleft := getElem?_paramsAt hnamed first index hposition
        have hright := getElem?_paramsAt hnamed second other hposition
        have hmem : (trimmedName name).getD "" ∈
            (paramsAt columns header other second).params.params.keys := by
          rw [Std.ExtTreeMap.mem_keys, ← Std.ExtTreeMap.isSome_getElem?_iff_mem, hright]
          rfl
        have hint := h _ hmem
        rw [hleft, hright] at hint
        exact (BitVec.add_left_inj _).mp (BitVec.toInt_inj.mp hint)
  · intro htag key hkey
    by_cases hname : ∃ name ∈ paramOrder columns header, (trimmedName name).getD "" = key
    · obtain ⟨name, hmem, rfl⟩ := hname
      obtain ⟨position, hposition⟩ := List.mem_iff_getElem?.mp hmem
      rw [getElem?_paramsAt hnamed first index hposition,
        getElem?_paramsAt hnamed second other hposition, htag]
      rfl
    · rw [Std.ExtTreeMap.mem_keys, ← Std.ExtTreeMap.isSome_getElem?_iff_mem, paramsAt,
        paramsFrom, getElem?_assignParams_of_forall_ne fun name hmem heq =>
          hname ⟨name, hmem, heq⟩] at hkey
      simp at hkey

/-- Stored rows tie in the comparison exactly when benchmark, mode and tags agree; the
values do not matter. -/
theorem order_paramsAt_eq_iff (hnamed : ParamsNamed header) (index other : ℕ) :
    BenchmarkParams.order (paramsAt columns header index first)
        (paramsAt columns header other second) = .eq ↔
      first.key.mode = second.key.mode ∧ first.key.benchmark = second.key.benchmark ∧
        rowTag header index = rowTag header other := by
  rw [BenchmarkParams.order_eq_iff rfl rfl, orders_paramsAt_eq_iff hnamed]
  rfl

end Fits

/-! ## Reading the rows -/

/-- A line that spells a row is stored under its parameters, and the counter moves on by
the number of parameters. -/
theorem readFields_eq_ok {columns : HashOrder String} {header : List String}
    (hnamed : ParamsNamed header) {line : String} {row : Row} (h : rowOf header line = some row)
    (tag : BitVec 32) :
    readFields columns header tag (parseCsvLine line) =
      .ok ((paramsFrom columns header tag row, row.data),
        tag + .ofNat 32 (paramColumns header).length) := by
  obtain ⟨hdata, hbenchmark, hmode, hfits⟩ := rowOf_eq_some h
  have horder : (columns.order row.data.keys).filter isParam = paramOrder columns header := by
    rw [hfits.keys, paramOrder]
  have hparams : ∀ name ∈ (columns.order row.data.keys).filter isParam,
      ∃ trimmed, trimmedName name = some trimmed := by
    intro name hname
    rw [horder, mem_paramOrder] at hname
    exact hnamed.named name hname
  have hfold := foldlM_addParam row.data (columns.order row.data.keys) ∅ tag hparams
  rw [horder, (paramOrder_perm columns header).length_eq] at hfold
  simp only [readFields, bind_eq_ok]
  refine ⟨row.data, hdata, _, hfold, row.key.mode, hmode, ?_⟩
  rw [hbenchmark]
  rfl

/-- Store rows from a position on. -/
def storeRows (columns : HashOrder String) (header : List String) :
    ℕ → List Row → CsvFile → CsvFile
  | _, [], file => file
  | index, row :: rows, file =>
      storeRows columns header (index + 1) rows
        (file.put (paramsAt columns header index row) row.data)

theorem rowTag_succ (header : List String) (index : ℕ) :
    rowTag header index + .ofNat 32 (paramColumns header).length = rowTag header (index + 1) := by
  rw [rowTag, rowTag, ← BitVec.ofNat_add, Nat.succ_mul]

theorem foldlM_addRow (columns : HashOrder String) {header : List String}
    (hnamed : ParamsNamed header) {lines : List String} {rows : List Row}
    (h : (lines.filter fun line => !isBlank line).mapM (rowOf header) = some rows)
    (index : ℕ) (file : CsvFile) :
    lines.foldlM (addRow columns header) (file, rowTag header index) =
      .ok (storeRows columns header index rows file, rowTag header (index + rows.length)) := by
  induction lines generalizing rows index file with
  | nil =>
      cases h
      rfl
  | cons line lines ih =>
      by_cases hblank : isBlank line = true
      · rw [List.filter_cons_of_neg (by simp [hblank])] at h
        rw [List.foldlM_cons, addRow, if_pos hblank]
        exact ih h index file
      · rw [List.filter_cons_of_pos (by simp [hblank]), List.mapM_cons] at h
        simp only [Option.bind_eq_bind, Option.bind_eq_some_iff] at h
        obtain ⟨row, hrow, rest, hrest, heq⟩ := h
        cases heq
        rw [List.foldlM_cons, addRow, if_neg hblank, addFields, readFields_eq_ok hnamed hrow]
        show List.foldlM (addRow columns header) (_, _) lines = _
        rw [rowTag_succ]
        have hstep := ih hrest (index + 1) (file.put (paramsAt columns header index row) row.data)
        rw [List.length_cons, Nat.add_comm rest.length, ← Nat.add_assoc]
        exact hstep

/-- A file that spells a table is read into its stored rows. -/
theorem readCsv_eq_ok {columns : HashOrder String} {path : CsvPath} {header : List String}
    {rows : List Row} (hnamed : ParamsNamed header)
    (htable : tableOf path.text = some (header, rows)) :
    readCsv columns (some path) = .ok (storeRows columns header 0 rows ∅) := by
  unfold tableOf at htable
  cases hlines : lines path.text with
  | nil => simp [hlines] at htable
  | cons first rest =>
      simp only [hlines, Option.map_eq_some_iff, Prod.mk.injEq] at htable
      obtain ⟨found, hfound, rfl, rfl⟩ := htable
      have hfold := foldlM_addRow columns hnamed hfound 0 ∅
      have hzero : rowTag (parseCsvLine first) 0 = 0 := by simp [rowTag]
      rw [hzero] at hfold
      simp only [readCsv, hlines, hfold]
      rfl

end Colata.BenchmarkCompare
