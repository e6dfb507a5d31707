/-
# Counting the instructions of one log

`count-instructions.sh` counts the mnemonics of the address lines of a single file. The
comparison of two files joins what it prints for each of them, and adds up to what it
prints for one behind the other.
-/

import Colata.CompareInstructions.Report

namespace Colata.CompareInstructions

open Colata.Math Colata.Awk

/-! ## The program -/

/-- The array `counts`. Its keys are listed as they are added. -/
structure Tally where
  keys : List Line
  counts : Line → ℕ

def Tally.empty : Tally := ⟨[], fun _ => 0⟩

/-- The rule for a record. -/
def Tally.record (tally : Tally) (line : Line) : Tally :=
  if (Regex.matchStart addressPattern line).isNone then tally
  else
    let instruction := firstField (removeStart addressAndSpaces line)
    if instruction = [] then tally
    else ⟨addKey tally.keys instruction, increment tally.counts instruction⟩

/-- The words of the program. -/
def countWords : List (List Char) :=
  ["line".toList, "fields".toList, "instruction".toList, "counts".toList]

/-- The argument of the script, or `/dev/stdin` if it is empty or left out, which is `none`. -/
def operandFile (standardInput : List Char) : Option File → File
  | some file => file
  | none => ⟨"/dev/stdin".toList, standardInput, by decide⟩

/-- The records that awk reads for the operand. -/
def recordsRead (standardInput : List Char) (argument : Option File) : List Line :=
  (inputTexts standardInput [operandFile standardInput argument]).flatMap inputRecords

/-- The instructions with their counts, in the order in which `sort` writes them. -/
def countRows (shell : Shell Line (Line × ℕ)) (argument : Option File) : List (Line × ℕ) :=
  let file := operandFile shell.standardInput argument
  if shell.reassigns countWords [file] then shell.reassigned [file]
  else
    let tally := (recordsRead shell.standardInput argument).foldl Tally.record .empty
    shell.sort.arrange ((shell.keyOrder.arrange tally.keys).map fun instruction =>
      (instruction, tally.counts instruction))

/-- `"%-16s %d\n"`. -/
def countText (row : Line × ℕ) : String :=
  padRight 16 (String.ofList row.1) ++ " " ++ toString row.2

/-- The printed lines. -/
def countInstructions (shell : Shell Line (Line × ℕ)) (argument : Option File) : List String :=
  (countRows shell argument).map countText

/-! ## What is counted -/

/-- The array counts these lines. -/
structure Tally.Count (tally : Tally) (lines : List Line) : Prop where
  nodup : tally.keys.Nodup
  mem_iff : ∀ mnemonic, mnemonic ∈ tally.keys ↔ 0 < countOf lines mnemonic
  counts_eq : ∀ mnemonic, tally.counts mnemonic = countOf lines mnemonic

theorem Tally.empty_count : Tally.empty.Count [] where
  nodup := List.nodup_nil
  mem_iff mnemonic := by simp [Tally.empty, countOf]
  counts_eq mnemonic := rfl

theorem Tally.record_of_none {line : Line} (h : mnemonicOf line = none) (tally : Tally) :
    tally.record line = tally := by
  unfold mnemonicOf at h
  unfold Tally.record
  dsimp only at h ⊢
  split_ifs at h with hnone hempty
  · rw [if_pos hnone]
  · rw [if_neg hnone, if_pos hempty]

theorem Tally.record_of_some {line instruction : Line} (h : mnemonicOf line = some instruction)
    (tally : Tally) :
    tally.record line = ⟨addKey tally.keys instruction, increment tally.counts instruction⟩ := by
  unfold mnemonicOf at h
  unfold Tally.record
  dsimp only at h ⊢
  split_ifs at h with hnone hempty
  obtain rfl := Option.some.inj h
  rw [if_neg hnone, if_neg hempty]

theorem Tally.Count.record {tally : Tally} {lines : List Line} (h : tally.Count lines)
    (line : Line) : (tally.record line).Count (lines ++ [line]) := by
  cases hmnemonic : mnemonicOf line with
  | none =>
    rw [Tally.record_of_none hmnemonic]
    refine ⟨h.nodup, fun mnemonic => ?_, fun mnemonic => ?_⟩
    · rw [countOf_concat_of_none hmnemonic, h.mem_iff]
    · rw [countOf_concat_of_none hmnemonic, h.counts_eq]
  | some instruction =>
    rw [Tally.record_of_some hmnemonic]
    refine ⟨nodup_addKey h.nodup instruction, fun mnemonic => ?_, fun mnemonic => ?_⟩
    · rw [countOf_concat_of_some hmnemonic, mem_addKey, h.mem_iff]
      split_ifs with heq <;> simp [heq, eq_comm]
    · rw [countOf_concat_of_some hmnemonic, ← h.counts_eq]
      exact increment_apply tally.counts instruction mnemonic

theorem Tally.Count.foldl {tally : Tally} {lines : List Line} (h : tally.Count lines)
    (more : List Line) : (more.foldl Tally.record tally).Count (lines ++ more) := by
  induction more generalizing tally lines with
  | nil => simpa using h
  | cons line more ih =>
    have hrun := ih (h.record line)
    rwa [List.append_assoc, List.singleton_append] at hrun

/-- The argument is no file, or one that awk takes for one. -/
def PlainArgument (argument : Option File) : Prop := ∀ file ∈ argument, file.IsPlain

theorem plainArgument_none : PlainArgument none := by
  intro file hfile
  cases hfile

theorem plainArgument_some {file : File} (h : file.IsPlain) : PlainArgument (some file) := by
  intro other hother
  exact Option.some.inj hother ▸ h

theorem isPlain_operandFile {argument : Option File} (h : PlainArgument argument)
    (standardInput : List Char) : (operandFile standardInput argument).IsPlain := by
  cases argument with
  | some file => exact h file rfl
  | none =>
    show operandOf "/dev/stdin".toList = .file
    decide

/-- The records of a file that awk takes for one. -/
theorem recordsRead_of_plain {argument : Option File} (h : PlainArgument argument)
    (standardInput : List Char) :
    recordsRead standardInput argument =
      inputRecords (operandFile standardInput argument).text := by
  have hplain := isPlain_operandFile h standardInput
  rw [recordsRead, inputTexts_of_isPlain standardInput (by simpa using hplain) (by simp)]
  simp

section Rows

variable (shell : Shell Line (Line × ℕ)) {argument : Option File} (h : PlainArgument argument)

include h in
theorem countRows_perm :
    ∃ tally : Tally, tally.Count (inputRecords (operandFile shell.standardInput argument).text) ∧
      (countRows shell argument).Perm
        (tally.keys.map fun instruction => (instruction, tally.counts instruction)) := by
  have hassigns : shell.reassigns countWords [operandFile shell.standardInput argument] = false :=
    shell.reassigns_of_isPlain _ (by simpa using isPlain_operandFile h shell.standardInput)
  have hcount := Tally.empty_count.foldl (recordsRead shell.standardInput argument)
  rw [List.nil_append, recordsRead_of_plain h] at hcount
  refine ⟨_, hcount, ?_⟩
  rw [countRows, if_neg (Bool.not_eq_true _ ▸ hassigns), recordsRead_of_plain h]
  exact (shell.sort.perm _).trans ((shell.keyOrder.perm _).map _)

include h in
/-- Each mnemonic of an address line is printed with the number of its lines. -/
theorem mem_countRows_iff {instruction : Line} {n : ℕ} :
    (instruction, n) ∈ countRows shell argument ↔
      0 < n ∧
        countOf (inputRecords (operandFile shell.standardInput argument).text) instruction = n := by
  obtain ⟨tally, hcount, hperm⟩ := countRows_perm shell h
  rw [hperm.mem_iff, List.mem_map]
  constructor
  · rintro ⟨key, hkey, heq⟩
    obtain ⟨rfl, rfl⟩ := Prod.mk.inj heq
    rw [hcount.counts_eq]
    exact ⟨(hcount.mem_iff key).mp hkey, rfl⟩
  · rintro ⟨hpos, rfl⟩
    exact ⟨instruction, (hcount.mem_iff instruction).mpr hpos, by rw [hcount.counts_eq]⟩

include h in
theorem nodup_countRows : ((countRows shell argument).map Prod.fst).Nodup := by
  obtain ⟨tally, hcount, hperm⟩ := countRows_perm shell h
  have hkeys := hperm.map Prod.fst
  rw [List.map_map, show Prod.fst ∘ _ = id from rfl, List.map_id] at hkeys
  exact hkeys.nodup_iff.mpr hcount.nodup

end Rows

/-! ## Counting and comparing -/

/-- What follows a whole line adds its own records. -/
theorem inputRecords_append {first : List Char} (h : ∀ c ∈ first.getLast?, c = '\n')
    (second : List Char) :
    inputRecords (first ++ second) = inputRecords first ++ inputRecords second := by
  rcases List.eq_nil_or_concat first with rfl | ⟨start, c, rfl⟩
  · rfl
  · obtain rfl : c = '\n' := h c (by simp)
    have hpieces : (start.concat '\n' ++ second).splitOn '\n' =
        start.splitOn '\n' ++ second.splitOn '\n' := by
      rw [List.concat_eq_append, List.append_assoc, List.singleton_append,
        List.splitOn_append_cons_self]
    have hfirst : inputRecords (start.concat '\n') = start.splitOn '\n' := by
      rw [inputRecords, List.concat_eq_append, List.splitOn_append_cons_self]
      simp
    have hne := List.splitOn_ne_nil '\n' second
    rw [hfirst, inputRecords, inputRecords, hpieces, List.getLast?_append_of_ne_nil _ hne]
    split_ifs with hlast
    · exact List.dropLast_append_of_ne_nil hne
    · rfl

theorem countOf_append (first second : List Line) (mnemonic : Line) :
    countOf (first ++ second) mnemonic = countOf first mnemonic + countOf second mnemonic :=
  List.countP_append

/-- The records of all texts are those of the first one and of the others. -/
theorem firstLines_append_laterLines (texts : List (List Char)) :
    firstLines texts ++ laterLines texts = texts.flatMap inputRecords := by
  rw [firstLines, laterLines, ← List.flatMap_append, List.take_append_drop]

section Compared

variable {shell : Shell Line Row} {first second : File} (hfirst : first.IsPlain)
  (hsecond : second.IsPlain)

include hfirst hsecond in
theorem flatMap_textsRead_pair (standardInput : List Char) :
    (textsRead standardInput [first, second]).flatMap inputRecords =
      inputRecords first.text ++ inputRecords second.text := by
  have hnil : inputRecords [] = [] := rfl
  rw [textsRead_pair standardInput hfirst hsecond]
  by_cases hempty : first.text = [] <;> by_cases hempty' : second.text = [] <;>
    simp [hempty, hempty', hnil]

include hfirst hsecond in
/-- The two counts of a row add up to the address lines of both files, even where they are
not told apart. -/
theorem firstCount_add_secondCount {row : Row} (hrow : row ∈ rows shell first second) :
    row.firstCount + row.secondCount =
      countOf (inputRecords first.text ++ inputRecords second.text) row.instruction := by
  have hcount := countsOf_count shell.standardInput [first, second]
  rw [eq_row_of_mem_rows (reassigns_pair hfirst hsecond) hrow,
    ← flatMap_textsRead_pair hfirst hsecond shell.standardInput, ← firstLines_append_laterLines,
    countOf_append, ← hcount.first_eq, ← hcount.second_eq]
  rfl

include hfirst hsecond in
/-- There is a row for every mnemonic of either file. -/
theorem mem_map_instruction_rows {instruction : Line} :
    instruction ∈ (rows shell first second).map Row.instruction ↔
      0 < countOf (inputRecords first.text ++ inputRecords second.text) instruction := by
  rw [(map_instruction_rows_perm (reassigns_pair hfirst hsecond)).mem_iff,
    (countsOf_count shell.standardInput [first, second]).mem_iff,
    ← flatMap_textsRead_pair hfirst hsecond shell.standardInput, ← firstLines_append_laterLines,
    countOf_append]
  omega

end Compared

/-- Rows with the counts of a file show what is counted in it. -/
theorem mem_countRows_iff_exists_row {shell : Shell Line (Line × ℕ)} {argument : Option File}
    (hplain : PlainArgument argument) {compared : List Row} {count : Row → ℕ} {instruction : Line}
    {n : ℕ} (hcount : ∀ row ∈ compared, count row =
      countOf (inputRecords (operandFile shell.standardInput argument).text) row.instruction)
    (hrow : 0 < countOf (inputRecords (operandFile shell.standardInput argument).text)
        instruction → ∃ row ∈ compared, row.instruction = instruction) :
    (instruction, n) ∈ countRows shell argument ↔
      0 < n ∧ ∃ row ∈ compared, row.instruction = instruction ∧ count row = n := by
  rw [mem_countRows_iff shell hplain]
  constructor
  · rintro ⟨hpos, rfl⟩
    obtain ⟨row, hmem, rfl⟩ := hrow hpos
    exact ⟨hpos, row, hmem, rfl, hcount row hmem⟩
  · rintro ⟨hpos, row, hmem, rfl, rfl⟩
    exact ⟨hpos, (hcount row hmem).symm⟩

/-- Counting lists each instruction once. For names that awk takes for files, the rows of a
comparison show what is counted in either file, and add up to what is counted in the second
file behind the first one. -/
theorem rows_agree_with_counts (shell : Shell Line Row) (countShell : Shell Line (Line × ℕ))
    {first second : File} (hfirst : first.IsPlain) (hsecond : second.IsPlain) (instruction : Line)
    (n : ℕ) :
    let compared := rows shell first second
    let counted := fun file => countRows countShell (some file)
    let piped := fun text => countRows { countShell with standardInput := text } none
    ((counted first).map Prod.fst).Nodup ∧
    (first.text ≠ [] ∨ counted second = [] →
      ((instruction, n) ∈ counted first ↔
        0 < n ∧ ∃ row ∈ compared, row.instruction = instruction ∧ row.firstCount = n) ∧
      ((instruction, n) ∈ counted second ↔
        0 < n ∧ ∃ row ∈ compared, row.instruction = instruction ∧ row.secondCount = n)) ∧
    ((∀ c ∈ first.text.getLast?, c = '\n') →
      ((instruction, n) ∈ piped (first.text ++ second.text) ↔
        ∃ row ∈ compared, row.instruction = instruction ∧
          row.firstCount + row.secondCount = n)) := by
  intro compared counted piped
  have hplain : PlainArgument (some first) := plainArgument_some hfirst
  have hplain' : PlainArgument (some second) := plainArgument_some hsecond
  have hrow (hpos : 0 < countOf (inputRecords first.text) instruction +
      countOf (inputRecords second.text) instruction) :
      ∃ row ∈ compared, row.instruction = instruction := by
    rw [← countOf_append] at hpos
    exact List.mem_map.mp ((mem_map_instruction_rows hfirst hsecond).mpr hpos)
  refine ⟨nodup_countRows countShell hplain, ?_, ?_⟩
  · intro happart
    have hnone : first.text ≠ [] ∨
        ∀ line ∈ inputRecords second.text, ∀ mnemonic, ¬ HasMnemonic line mnemonic := by
      refine happart.imp_right fun hempty line hline mnemonic hmnemonic => ?_
      have hmem := (mem_countRows_iff countShell hplain').mpr
        ⟨countOf_pos_iff.mpr ⟨line, hline, hmnemonic⟩, rfl⟩
      rw [show countRows countShell (some second) = [] from hempty] at hmem
      cases hmem
    have hcompares : Compares first.text second.text compared :=
      (compares_iff_of_count (reassigns_pair hfirst hsecond)
        (countsOf_count shell.standardInput [first, second])).mpr
          ((sameCounts_pair_iff shell.standardInput hfirst hsecond).mpr hnone)
    constructor
    · exact mem_countRows_iff_exists_row hplain hcompares.firstCount_eq
        fun hpos => hrow (Nat.add_pos_left hpos _)
    · exact mem_countRows_iff_exists_row hplain' hcompares.secondCount_eq
        fun hpos => hrow (Nat.add_pos_right _ hpos)
  · intro hwhole
    have hsum : ∀ row ∈ compared, row.firstCount + row.secondCount =
        countOf (inputRecords (first.text ++ second.text)) row.instruction := by
      intro row hmem
      rw [inputRecords_append hwhole]
      exact firstCount_add_secondCount hfirst hsecond hmem
    have hiff : (instruction, n) ∈ piped (first.text ++ second.text) ↔ 0 < n ∧
        ∃ row ∈ compared, row.instruction = instruction ∧
          row.firstCount + row.secondCount = n := by
      refine mem_countRows_iff_exists_row plainArgument_none hsum fun hpos => ?_
      have hboth : 0 < countOf (inputRecords (first.text ++ second.text)) instruction := hpos
      rw [inputRecords_append hwhole, countOf_append] at hboth
      exact hrow hboth
    refine hiff.trans (and_iff_right_of_imp ?_)
    rintro ⟨row, hmem, -, rfl⟩
    have hcounted := (mem_map_instruction_rows hfirst hsecond).mp (List.mem_map_of_mem hmem)
    rwa [firstCount_add_secondCount hfirst hsecond hmem]

/-- Two logs of one instruction each. -/
theorem rows_agree_with_counts_mov :
    let first : File := ⟨"a.log".toList, "0x1: mov\n".toList, by decide⟩
    let second : File := ⟨"b.log".toList, "0x1: mov".toList, by decide⟩
    let shell : Shell Line (Line × ℕ) :=
      ⟨⟨id, List.Perm.refl⟩, ⟨id, List.Perm.refl⟩, [], fun _ => false, fun _ => []⟩
    let compared := rows plainShell first second
    (("mov".toList, 1) ∈ countRows shell (some second) ↔
      0 < 1 ∧ ∃ row ∈ compared, row.instruction = "mov".toList ∧ row.secondCount = 1) ∧
    (("mov".toList, 2) ∈ countRows { shell with standardInput := first.text ++ second.text } none ↔
      ∃ row ∈ compared, row.instruction = "mov".toList ∧ row.firstCount + row.secondCount = 2) := by
  intro first second shell compared
  have hfirst : first.IsPlain := by decide
  have hsecond : second.IsPlain := by decide
  have hone := rows_agree_with_counts plainShell shell hfirst hsecond "mov".toList 1
  have htwo := rows_agree_with_counts plainShell shell hfirst hsecond "mov".toList 2
  refine ⟨(hone.2.1 (.inl (by decide))).2, htwo.2.2 fun c hc => ?_⟩
  simpa [first] using hc.symm

end Colata.CompareInstructions
