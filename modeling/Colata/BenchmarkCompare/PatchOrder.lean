/-
# The order of the patch rows

To join by key is to ask nothing of the order in which the patch file lists its rows. The order
tags ask for it: every order of the patch rows gives the same result only if there is at most
one row, or if the counter comes back to zero after each row.
-/

import Colata.BenchmarkCompare.JoinByKey
import Colata.BenchmarkCompare.Listing
import Mathlib.Data.List.Perm.Basic

namespace Colata.BenchmarkCompare

open Colata.Java Colata.Math

/-- The comparison of the base file with a patch file that lists these rows, in whatever order,
has the given outcome. -/
def UnchangedByOrder (columns : HashOrder String) (rows : HashOrder BenchmarkParams)
    (basePath : CsvPath) (header : List String) (patchRows : List Row)
    (outcome : Except Failure (List RunResult)) : Prop :=
  ∀ (csvPaths : List CsvPath) (patchPath : CsvPath) (otherRows : List Row),
    labelCsvPaths csvPaths .base = some basePath →
    labelCsvPaths csvPaths .patch = some patchPath →
    tableOf patchPath.text = some (header, otherRows) → otherRows.Perm patchRows →
      readCsvFiles columns rows csvPaths = outcome

/-- The tags agree however the patch file lists the keys of these rows. -/
def AnyOrder (header : List String) (baseRows : List Row) : Prop :=
  baseRows.length ≤ 1 ∨ 2 ^ 32 ∣ (paramColumns header).length ∧
    (baseRows.map fun row => (row.key.benchmark, row.key.mode)).Nodup

instance (header : List String) (baseRows : List Row) : Decidable (AnyOrder header baseRows) :=
  inferInstanceAs (Decidable (_ ∨ _))

/-! ## The tags under every order -/

section Matching

variable {header : List String} {baseRows patchRows otherRows : List Row}

theorem Matching.of_perm (h : Matching header baseRows patchRows)
    (hperm : otherRows.Perm patchRows) : Matching header baseRows otherRows where
  named := h.named
  baseFits := h.baseFits
  patchFits := fun row hrow => h.patchFits row (hperm.mem_iff.mp hrow)
  nodup := h.nodup
  perm := h.perm.trans (hperm.map Row.key).symm

theorem Matching.length_eq (h : Matching header baseRows patchRows) :
    baseRows.length = patchRows.length := by
  simpa using h.perm.length_eq

/-- A single row stands at position zero in both files. -/
theorem Matching.tagsAgree_of_length_le_one (h : Matching header baseRows patchRows)
    (hlength : baseRows.length ≤ 1) : TagsAgree header baseRows patchRows := by
  have hzero : ∀ rows : List Row, rows.length ≤ 1 → ∀ (index : ℕ) (row : Row),
      rows[index]? = some row → index = 0 := by
    intro rows hrows index row hrow
    have hlt := (List.getElem?_eq_some_iff.mp hrow).1
    omega
  constructor
  · intro index other base patch hbase hpatch _
    rw [hzero baseRows hlength index base hbase,
      hzero patchRows (h.length_eq ▸ hlength) other patch hpatch]
  · intro index other first second hfirst hsecond _ _ _
    rw [hzero baseRows hlength index first hfirst, hzero baseRows hlength other second hsecond]

theorem dvd_of_rowTag_eq (heq : rowTag header 0 = rowTag header 1) :
    2 ^ 32 ∣ (paramColumns header).length := by
  have hmod := congrArg BitVec.toNat heq
  rw [rowTag, rowTag, BitVec.toNat_ofNat, BitVec.toNat_ofNat, Nat.zero_mul, Nat.one_mul,
    Nat.zero_mod] at hmod
  exact Nat.dvd_of_mod_eq_zero hmod.symm

/-- Of two rows the patch file may list either one first, so that the first base row meets
the tag of the second position too. -/
theorem Matching.dvd_of_forall_tagsAgree (h : Matching header baseRows patchRows)
    (hlength : 1 < baseRows.length)
    (hall : ∀ otherRows : List Row, otherRows.Perm patchRows →
      TagsAgree header baseRows otherRows) : 2 ^ 32 ∣ (paramColumns header).length := by
  have hbase : baseRows[0]? = some baseRows[0] := List.getElem?_eq_getElem (by omega)
  obtain ⟨_, patch, hpatch, hkey⟩ := h.exists_patch (List.mem_of_getElem? hbase)
  have hperm := List.perm_cons_erase (List.mem_of_getElem? hpatch)
  cases hrest : patchRows.erase patch with
  | nil =>
      have hone := hperm.length_eq
      rw [hrest, ← h.length_eq, List.length_singleton] at hone
      omega
  | cons second rest =>
      rw [hrest] at hperm
      have htags := hall (second :: patch :: rest) ((List.Perm.swap ..).trans hperm.symm)
      exact dvd_of_rowTag_eq (htags.same 0 1 baseRows[0] patch hbase rfl hkey)

/-- The tags agree for every order of the patch rows exactly when no order can make them
differ. -/
theorem Matching.forall_tagsAgree_iff (h : Matching header baseRows patchRows) :
    (∀ otherRows : List Row, otherRows.Perm patchRows → TagsAgree header baseRows otherRows) ↔
      AnyOrder header baseRows := by
  constructor
  · intro hall
    by_cases hlength : baseRows.length ≤ 1
    · exact Or.inl hlength
    · have hdvd := h.dvd_of_forall_tagsAgree (by omega) hall
      have htags := hall patchRows (List.Perm.refl _)
      refine Or.inr ⟨hdvd, List.nodup_iff_injective_get.mpr ?_⟩
      intro index other heq
      simp only [List.get_eq_getElem, List.getElem_map, Prod.mk.injEq] at heq
      apply Fin.ext
      exact htags.apart index other _ _ (List.getElem?_eq_getElem _) (List.getElem?_eq_getElem _)
        heq.1 heq.2 ((rowTag_eq_zero_of_dvd hdvd _).trans (rowTag_eq_zero_of_dvd hdvd _).symm)
  · intro hany otherRows hperm
    rcases hany with hlength | ⟨hdvd, hnodup⟩
    · exact (h.of_perm hperm).tagsAgree_of_length_le_one hlength
    · exact tagsAgree_of_dvd hdvd hnodup

/-- Short of the counter wrapping round, that is to have no parameter or a single row. -/
theorem Matching.anyOrder_iff (h : Matching header baseRows patchRows)
    (hcount : baseRows.length * (paramColumns header).length ≤ 2 ^ 32) :
    AnyOrder header baseRows ↔ baseRows.length ≤ 1 ∨ paramColumns header = [] := by
  constructor
  · rintro (hlength | ⟨hdvd, _⟩)
    · exact Or.inl hlength
    · by_cases hlength : baseRows.length ≤ 1
      · exact Or.inl hlength
      · refine Or.inr (List.eq_nil_of_length_eq_zero (Nat.eq_zero_of_dvd_of_lt hdvd ?_))
        have htwo := Nat.mul_le_mul_right (paramColumns header).length (Nat.lt_of_not_le hlength)
        omega
  · rintro (hlength | hcolumns)
    · exact Or.inl hlength
    · exact Or.inr ⟨by simp [hcolumns], h.nodup_of_no_columns hcolumns⟩

/-! ## The outcome under every order -/

variable {columns : HashOrder String}

/-- A base row meets the same patch row in both orders. -/
theorem Matching.lookup_eq_of_perm (h : Matching header baseRows patchRows)
    (hperm : otherRows.Perm patchRows) (htags : TagsAgree header baseRows patchRows)
    (hother : TagsAgree header baseRows otherRows) {index : ℕ} {base : Row}
    (hbase : baseRows[index]? = some base) :
    (storeRows columns header 0 otherRows ∅).lookup (paramsAt columns header index base) =
      (storeRows columns header 0 patchRows ∅).lookup (paramsAt columns header index base) := by
  obtain ⟨place, patch, hpatch, hkey⟩ := h.exists_patch (List.mem_of_getElem? hbase)
  obtain ⟨moved, hmoved⟩ := List.mem_iff_getElem?.mp
    (hperm.mem_iff.mpr (List.mem_of_getElem? hpatch))
  rw [(h.lookup_patch_iff hbase).mpr
      ⟨place, patch, hpatch, rfl, hkey, htags.same _ _ _ _ hbase hpatch hkey⟩,
    ((h.of_perm hperm).lookup_patch_iff hbase).mpr
      ⟨moved, patch, hmoved, rfl, hkey, hother.same _ _ _ _ hbase hmoved hkey⟩]

/-- If the tags agree for both orders, the rows are joined alike. -/
theorem Matching.joinOutcome_eq_of_perm (h : Matching header baseRows patchRows)
    (rows : HashOrder BenchmarkParams) (hperm : otherRows.Perm patchRows)
    (htags : TagsAgree header baseRows patchRows) (hother : TagsAgree header baseRows otherRows) :
    joinOutcome columns rows header baseRows otherRows =
      joinOutcome columns rows header baseRows patchRows := by
  apply foldlM_congr_of_mem
  intro params hparams results
  obtain ⟨index, base, hbase, rfl⟩ := (mem_order_keys rows).mp hparams
  rw [addResult, addResult, h.lookup_eq_of_perm hperm htags hother hbase]

/-- Being joined by key does not depend on the order of the patch rows. -/
theorem JoinsByKey.of_perm {outcome : Except Failure (List RunResult)}
    (h : JoinsByKey header baseRows patchRows outcome) (hperm : otherRows.Perm patchRows) :
    JoinsByKey header baseRows otherRows outcome := by
  obtain ⟨results, hok, hsorted, joined, hjoined, hrows⟩ := h
  refine ⟨results, hok, hsorted, joined, hjoined, hrows.imp ?_⟩
  intro base runResult hjoin
  obtain ⟨patch, hpatch, hjoin⟩ := hjoin
  exact ⟨patch, hperm.mem_iff.mpr hpatch, hjoin⟩

end Matching

/-! ## Files for every order -/

/-- A file can list its rows in any order. -/
theorem exists_tableOf_of_perm {text : String} {header : List String} {rows otherRows : List Row}
    (htable : tableOf text = some (header, rows)) (hperm : otherRows.Perm rows) :
    ∃ otherText, tableOf otherText = some (header, otherRows) := by
  by_cases hempty : otherRows = []
  · subst hempty
    rw [hperm.nil_eq.symm] at htable
    exact ⟨text, htable⟩
  unfold tableOf at htable
  cases hlines : lines text with
  | nil => simp [hlines] at htable
  | cons first rest =>
      simp only [hlines, Option.map_eq_some_iff, Prod.mk.injEq] at htable
      obtain ⟨found, hfound, hheader, rfl⟩ := htable
      obtain ⟨otherLines, hrows, hlist⟩ :=
        List.perm_comp_forall₂ hperm (mapM_eq_some_iff.mp hfound).flip
      have hmem : ∀ line ∈ otherLines, line ∈ rest ∧ isBlank line = false := by
        intro line hline
        simpa using List.mem_filter.mp (hlist.mem_iff.mp hline)
      have hplain : ∀ line ∈ first :: rest, Plain line.toList :=
        fun line hline => plain_of_mem_lines (hlines ▸ hline)
      refine ⟨"\n".intercalate (first :: otherLines), tableOf_intercalate ?_ ?_ hheader ?_⟩
      · rw [List.forall_mem_cons]
        exact ⟨hplain first List.mem_cons_self,
          fun line hline => hplain line (List.mem_cons_of_mem first (hmem line hline).1)⟩
      · intro hlast
        have hne : otherLines ≠ [] := by
          rintro rfl
          exact hempty (List.forall₂_nil_right_iff.mp hrows)
        rw [List.getLast?_cons_of_ne_nil hne] at hlast
        exact absurd (hmem "" (List.mem_of_getLast? hlast)).2 (by decide)
      · have hfilter : (otherLines.filter fun line => !isBlank line) = otherLines :=
          List.filter_eq_self.mpr fun line hline => by simp [(hmem line hline).2]
        rw [hfilter, mapM_eq_some_iff, ← hheader]
        exact hrows.flip

theorem labelOf_of_labelCsvPaths {csvPaths : List CsvPath} {label : Label} {path : CsvPath}
    (h : labelCsvPaths csvPaths label = some path) : labelOf path.fileName = label := by
  rw [labelCsvPaths_eq] at h
  exact of_decide_eq_true (List.mem_filter.mp (List.mem_of_getLast? h)).2

section Files

variable {columns : HashOrder String} {rows : HashOrder BenchmarkParams}
  {csvPaths : List CsvPath} {basePath patchPath : CsvPath} {header : List String}
  {baseRows patchRows : List Row}

/-- A patch file with the rows in another order can take the place of the patch file. -/
theorem exists_csvPaths_of_perm (hbase : labelCsvPaths csvPaths .base = some basePath)
    (hpatch : labelCsvPaths csvPaths .patch = some patchPath) (text : String) :
    labelCsvPaths [basePath, ⟨patchPath.fileName, text⟩] .base = some basePath ∧
      labelCsvPaths [basePath, ⟨patchPath.fileName, text⟩] .patch =
        some ⟨patchPath.fileName, text⟩ := by
  simp [labelCsvPaths, labelOf_of_labelCsvPaths hbase, labelOf_of_labelCsvPaths hpatch]

end Files

end Colata.BenchmarkCompare
