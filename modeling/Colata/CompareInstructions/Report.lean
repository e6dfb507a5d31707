/-
# Comparing the instructions of two logs

The awk program of `compare-instructions.sh` counts the mnemonics of the address lines
in one pass over both files, and takes a line for one of the first file while it has
seen a single first line. At the end it prints a row for every mnemonic. The two files
are handed over by their names, so one whose name reads as an assignment is not counted.
-/

import Colata.Languages.Awk

namespace Colata.CompareInstructions

open Colata.Math Colata.Awk

abbrev Line := List Char

/-! ## The program -/

/-- `^[[:space:]]*0x[[:xdigit:]]+:` -/
def addressPattern : Regex :=
  .sequence [.start, .star true (.char isSpace), .literal "0x", .plus (.char isXDigit),
    .literal ":"]

/-- `^[[:space:]]*0x[[:xdigit:]]+:[[:space:]]*` -/
def addressAndSpaces : Regex :=
  .sequence [.start, .star true (.char isSpace), .literal "0x", .plus (.char isXDigit),
    .literal ":", .star true (.char isSpace)]

/-- The arrays of the program. The keys of `instructions` are listed as they are added. -/
structure Counts where
  instructions : List Line
  first : Line → ℕ
  second : Line → ℕ

/-- `array[instruction]++`. -/
def increment (array : Line → ℕ) (instruction : Line) : Line → ℕ :=
  Function.update array instruction (array instruction + 1)

/-- `instructions[instruction] = 1`. -/
def addKey (instructions : List Line) (instruction : Line) : List Line :=
  if instructions.contains instruction then instructions else instructions ++ [instruction]

def processLine (counts : Counts) (line : Line) (fileNumber : ℕ) : Counts :=
  if (Regex.matchStart addressPattern line).isNone then counts
  else
    let instruction := firstField (removeStart addressAndSpaces line)
    if instruction = [] then counts
    else if fileNumber = 1 then
      { counts with
        instructions := addKey counts.instructions instruction
        first := increment counts.first instruction }
    else
      { counts with
        instructions := addKey counts.instructions instruction
        second := increment counts.second instruction }

structure State where
  fileNumber : ℕ
  counts : Counts

/-- Variables that are not set read as 0. -/
def State.initial : State := ⟨0, [], fun _ => 0, fun _ => 0⟩

/-- The two rules for a record, where `fnr` is its number in its file. -/
def State.record (state : State) (line : Line) (fnr : ℕ) : State :=
  let fileNumber := if fnr = 1 then state.fileNumber + 1 else state.fileNumber
  ⟨fileNumber, processLine state.counts line fileNumber⟩

def State.file (state : State) (text : List Char) : State :=
  ((inputRecords text).zipIdx 1).foldl
    (fun state numbered => state.record numbered.1 numbered.2) state

structure Row where
  instruction : Line
  firstCount : ℕ
  secondCount : ℕ
  delta : ℤ
  status : String
  deriving DecidableEq

def statusOf (firstCount secondCount : ℕ) (delta : ℤ) : String :=
  if delta = 0 then "SAME"
  else if firstCount = 0 then "ADDED"
  else if secondCount = 0 then "REMOVED"
  else if 0 < delta then "INCREASED"
  else "DECREASED"

/-- One turn of the loop of the `END` rule. -/
def Counts.row (counts : Counts) (instruction : Line) : Row :=
  let firstCount := counts.first instruction
  let secondCount := counts.second instruction
  let delta := (secondCount : ℤ) - firstCount
  ⟨instruction, firstCount, secondCount, delta, statusOf firstCount secondCount delta⟩

/-- `"%-18s %10d %10d %+10d  %s\n"`. -/
def Row.text (row : Row) : String :=
  padRight 18 (String.ofList row.instruction) ++ " " ++ padLeft 10 (toString row.firstCount) ++
    " " ++ padLeft 10 (toString row.secondCount) ++ " " ++ padLeft 10 (signed row.delta) ++ "  " ++
    row.status

/-- `"%-18s %10s %10s %10s  %s\n"`. -/
def headerText (instruction first second delta status : String) : String :=
  padRight 18 instruction ++ " " ++ padLeft 10 first ++ " " ++ padLeft 10 second ++ " " ++
    padLeft 10 delta ++ "  " ++ status

/-- The words of the program. -/
def programWords : List (List Char) :=
  ["process_line".toList, "line".toList, "file_number".toList, "fields".toList,
    "instruction".toList, "instructions".toList, "first".toList, "second".toList,
    "first_name".toList, "second_name".toList, "first_count".toList, "second_count".toList,
    "delta".toList, "status".toList]

/-- The arrays after the files that awk reads for the operands. -/
def countsOf (standardInput : List Char) (files : List File) : Counts :=
  ((inputTexts standardInput files).foldl State.file .initial).counts

/-- The rows, in the order in which `sort` writes them. -/
def rows (shell : Shell Line Row) (first second : File) : List Row :=
  if shell.reassigns programWords [first, second] then shell.reassigned [first, second]
  else
    let counts := countsOf shell.standardInput [first, second]
    shell.sort.arrange ((shell.keyOrder.arrange counts.instructions).map counts.row)

/-- The printed lines, for names without backslashes, which `-v` would read as escapes. -/
def report (shell : Shell Line Row) (first second : File) : List String :=
  ["FIRST : " ++ String.ofList first.name, "SECOND: " ++ String.ofList second.name, "",
    headerText "INSTRUCTION" "FIRST" "SECOND" "DELTA" "STATUS",
    headerText "-----------" "-----" "------" "-----" "------"] ++
    (rows shell first second).map Row.text

/-! ## Address lines -/

/-- The mnemonic that the program reads from a line. -/
def mnemonicOf (line : Line) : Option Line :=
  if (Regex.matchStart addressPattern line).isNone then none
  else
    let instruction := firstField (removeStart addressAndSpaces line)
    if instruction = [] then none else some instruction

/-- The line gives an address and then this mnemonic. -/
def HasMnemonic (line mnemonic : Line) : Prop :=
  ∃ indent digits gap rest,
    line = indent ++ ("0x".toList ++ (digits ++ (":".toList ++ (gap ++ (mnemonic ++ rest))))) ∧
    (∀ c ∈ indent, isSpace c) ∧ (digits ≠ [] ∧ ∀ c ∈ digits, isXDigit c) ∧
    (∀ c ∈ gap, isSpace c) ∧ (mnemonic ≠ [] ∧ ∀ c ∈ mnemonic, isSpace c = false) ∧
    ∀ c ∈ rest.head?, isSpace c

/-- The line gives an address, with this text behind its colon. -/
def HasAddress (line after : Line) : Prop :=
  ∃ indent digits, line = indent ++ ("0x".toList ++ (digits ++ (":".toList ++ after))) ∧
    (∀ c ∈ indent, isSpace c) ∧ digits ≠ [] ∧ ∀ c ∈ digits, isXDigit c

/-- The pattern matches lines with an address only. -/
theorem exists_hasAddress {line : Line} (h : (Regex.matchStart addressPattern line).isSome) :
    ∃ after, HasAddress line after := by
  obtain ⟨found, hfound⟩ := Option.isSome_iff_exists.mp h
  have hmatch : found ∈ Regex.run addressPattern (.initial line) := List.mem_of_mem_head? hfound
  rw [addressPattern, Regex.mem_run_start] at hmatch
  simp only [Regex.mem_run_sequence_cons] at hmatch
  obtain ⟨_, hindent, _, hleading, _, hdigits, _, hcolon, _⟩ := hmatch
  obtain ⟨indent, hblank, first, hline, rfl⟩ := Regex.mem_run_star_char_iff.mp hindent
  obtain ⟨second, hfirst, rfl⟩ := Regex.mem_run_literal.mp hleading
  obtain ⟨digits, hne, hhex, third, hsecond, rfl⟩ := Regex.mem_run_plus_char.mp hdigits
  obtain ⟨after, hthird, rfl⟩ := Regex.mem_run_literal.mp hcolon
  dsimp only at hfirst hsecond hthird
  rw [hfirst, hsecond, hthird] at hline
  exact ⟨after, indent, digits, hline, hblank, hne, hhex⟩

/-- Both patterns first take the address of a line with its colon. -/
theorem first_address {indent digits after : Line} {more : List Regex}
    {post : Regex.State → Prop} (hindent : ∀ c ∈ indent, isSpace c)
    (hdigits : digits ≠ [] ∧ ∀ c ∈ digits, isXDigit c)
    (h : ∀ position, Regex.First more ⟨position, after, []⟩ post) :
    Regex.First (.start :: .star true (.char isSpace) :: .literal "0x" ::
        .plus (.char isXDigit) :: .literal ":" :: more)
      (.initial (indent ++ ("0x".toList ++ (digits ++ (":".toList ++ after))))) post := by
  have hzero : ∀ c ∈ ("0x".toList ++ (digits ++ (":".toList ++ after))).head?,
      isSpace c = false := by
    intro c hc
    obtain rfl : '0' = c := Option.some.inj hc
    decide
  have hcolon : ∀ c ∈ (":".toList ++ after).head?, isXDigit c = false := by
    intro c hc
    obtain rfl : ':' = c := Option.some.inj hc
    decide
  apply Regex.First.start
  apply Regex.First.greedy hindent hzero
  apply Regex.First.literal
  apply Regex.First.plus hdigits.1 hdigits.2 hcolon
  apply Regex.First.literal
  exact h _

/-- On a line with an address, both patterns match, and the second one takes the white
space behind the colon along. -/
theorem HasAddress.matchStart {line gap after : Line} (h : HasAddress line (gap ++ after))
    (hgap : ∀ c ∈ gap, isSpace c) (hafter : ∀ c ∈ after.head?, isSpace c = false) :
    (Regex.matchStart addressPattern line).isSome ∧
      removeStart addressAndSpaces line = after := by
  obtain ⟨indent, digits, rfl, hindent, hdigits⟩ := h
  constructor
  · have hnothing : ∀ position, Regex.First [] ⟨position, gap ++ after, []⟩ fun _ => True :=
      fun _ => ⟨_, rfl, trivial⟩
    obtain ⟨found, hfound, _⟩ := first_address hindent hdigits hnothing
    exact Option.isSome_iff_exists.mpr ⟨found, hfound⟩
  · have hspaces : ∀ position, Regex.First [.star true (.char isSpace)] ⟨position, gap ++ after, []⟩
        fun found => found.rest = after := by
      intro position
      apply Regex.First.greedy hgap hafter
      exact ⟨_, rfl, rfl⟩
    obtain ⟨found, hfound, hrest⟩ := first_address hindent hdigits hspaces
    have hmatch : Regex.matchStart addressAndSpaces _ = some found := hfound
    rw [removeStart, hmatch]
    exact hrest

theorem hasMnemonic_of_mnemonicOf {line mnemonic : Line} (h : mnemonicOf line = some mnemonic) :
    HasMnemonic line mnemonic := by
  unfold mnemonicOf at h
  dsimp only at h
  split_ifs at h with hnone hempty
  rw [Option.isNone_iff_eq_none] at hnone
  obtain ⟨after, haddress⟩ := exists_hasAddress (Option.isSome_iff_ne_none.mpr hnone)
  obtain ⟨gap, text, rfl, hgap, hstop⟩ := exists_spaces_append after
  obtain ⟨_, hremoved⟩ := haddress.matchStart hgap hstop
  obtain ⟨indent, digits, hline, hindent, hdigits⟩ := haddress
  rw [hremoved] at h hempty
  obtain rfl := Option.some.inj h
  obtain ⟨rest, htext, hclean, hrest⟩ := exists_firstField_append text
  refine ⟨indent, digits, gap, rest, ?_, hindent, hdigits, hgap, ⟨hempty, hclean⟩, hrest⟩
  rw [← htext, hline]

theorem HasMnemonic.mnemonicOf_eq {line mnemonic : Line} (h : HasMnemonic line mnemonic) :
    mnemonicOf line = some mnemonic := by
  obtain ⟨indent, digits, gap, rest, hline, hindent, hdigits, hgap, ⟨hne, hclean⟩, hrest⟩ := h
  have haddress : HasAddress line (gap ++ (mnemonic ++ rest)) :=
    ⟨indent, digits, hline, hindent, hdigits⟩
  have hhead : ∀ c ∈ (mnemonic ++ rest).head?, isSpace c = false := by
    obtain ⟨c, mnemonic, rfl⟩ := List.exists_cons_of_ne_nil hne
    intro d hd
    obtain rfl : c = d := Option.some.inj hd
    exact hclean c List.mem_cons_self
  obtain ⟨hmatch, hremoved⟩ := haddress.matchStart hgap hhead
  rw [mnemonicOf, hremoved, firstField_append hclean hrest, if_neg, if_neg hne]
  rw [Option.isNone_iff_eq_none]
  exact Option.isSome_iff_ne_none.mp hmatch

/-- The program reads the mnemonics that the address lines have. -/
theorem mnemonicOf_eq_some_iff {line mnemonic : Line} :
    mnemonicOf line = some mnemonic ↔ HasMnemonic line mnemonic :=
  ⟨hasMnemonic_of_mnemonicOf, HasMnemonic.mnemonicOf_eq⟩

instance (line mnemonic : Line) : Decidable (HasMnemonic line mnemonic) :=
  decidable_of_iff _ mnemonicOf_eq_some_iff

theorem HasMnemonic.unique {line first second : Line} (hfirst : HasMnemonic line first)
    (hsecond : HasMnemonic line second) : first = second := by
  rw [← mnemonicOf_eq_some_iff] at hfirst hsecond
  exact Option.some.inj (hfirst.symm.trans hsecond)

/-! ## Counting the lines of two files -/

/-- How many of the lines are address lines with this mnemonic. -/
def countOf (lines : List Line) (mnemonic : Line) : ℕ :=
  lines.countP fun line => HasMnemonic line mnemonic

theorem countOf_pos_iff {lines : List Line} {mnemonic : Line} :
    0 < countOf lines mnemonic ↔ ∃ line ∈ lines, HasMnemonic line mnemonic := by
  simp [countOf, List.countP_pos_iff]

/-- The arrays count these lines for the two files. -/
structure Counts.Count (counts : Counts) (first second : List Line) : Prop where
  nodup : counts.instructions.Nodup
  mem_iff : ∀ mnemonic, mnemonic ∈ counts.instructions ↔
    0 < countOf first mnemonic ∨ 0 < countOf second mnemonic
  first_eq : ∀ mnemonic, counts.first mnemonic = countOf first mnemonic
  second_eq : ∀ mnemonic, counts.second mnemonic = countOf second mnemonic

theorem State.initial_count : State.initial.counts.Count [] [] where
  nodup := List.nodup_nil
  mem_iff mnemonic := by simp [State.initial, countOf]
  first_eq mnemonic := rfl
  second_eq mnemonic := rfl

theorem mem_addKey {instructions : List Line} {instruction other : Line} :
    other ∈ addKey instructions instruction ↔ other ∈ instructions ∨ other = instruction := by
  unfold addKey
  split_ifs with hmem
  · constructor
    · exact Or.inl
    · rintro (h | rfl)
      · exact h
      · exact List.contains_iff_mem.mp hmem
  · simp

theorem nodup_addKey {instructions : List Line} (h : instructions.Nodup) (instruction : Line) :
    (addKey instructions instruction).Nodup := by
  unfold addKey
  split_ifs with hmem
  · exact h
  · rw [List.contains_iff_mem] at hmem
    exact h.append (List.nodup_singleton instruction) (List.disjoint_singleton.mpr hmem)

theorem increment_apply (array : Line → ℕ) (instruction other : Line) :
    increment array instruction other = array other + if instruction = other then 1 else 0 := by
  unfold increment
  rcases eq_or_ne other instruction with rfl | hne
  · simp
  · simp [hne, hne.symm]

/-- A line without a mnemonic counts for nothing. -/
theorem countOf_concat_of_none {lines : List Line} {line : Line} (h : mnemonicOf line = none)
    (mnemonic : Line) : countOf (lines ++ [line]) mnemonic = countOf lines mnemonic := by
  have hnot : ¬ HasMnemonic line mnemonic := by
    rw [← mnemonicOf_eq_some_iff, h]
    exact Option.some_ne_none mnemonic ∘ Eq.symm
  simp [countOf, hnot]

/-- A line counts for the mnemonic it has. -/
theorem countOf_concat_of_some {lines : List Line} {line instruction : Line}
    (h : mnemonicOf line = some instruction) (mnemonic : Line) :
    countOf (lines ++ [line]) mnemonic =
      countOf lines mnemonic + if instruction = mnemonic then 1 else 0 := by
  have hiff : HasMnemonic line mnemonic ↔ instruction = mnemonic := by
    rw [← mnemonicOf_eq_some_iff, h, Option.some_inj]
  simp [countOf, List.countP_append, List.countP_singleton, hiff]

theorem processLine_of_none {line : Line} (h : mnemonicOf line = none) (counts : Counts)
    (fileNumber : ℕ) : processLine counts line fileNumber = counts := by
  unfold mnemonicOf at h
  unfold processLine
  dsimp only at h ⊢
  split_ifs at h with hnone hempty
  · rw [if_pos hnone]
  · rw [if_neg hnone, if_pos hempty]

theorem processLine_of_some {line instruction : Line} (h : mnemonicOf line = some instruction)
    (counts : Counts) (fileNumber : ℕ) :
    processLine counts line fileNumber =
      if fileNumber = 1 then
        { counts with
          instructions := addKey counts.instructions instruction
          first := increment counts.first instruction }
      else
        { counts with
          instructions := addKey counts.instructions instruction
          second := increment counts.second instruction } := by
  unfold mnemonicOf at h
  unfold processLine
  dsimp only at h ⊢
  split_ifs at h with hnone hempty
  obtain rfl := Option.some.inj h
  rw [if_neg hnone, if_neg hempty]

/-- A line that is processed under number 1 counts for the first file. -/
theorem Counts.Count.processLine_one {counts : Counts} {first second : List Line}
    (h : counts.Count first second) (line : Line) :
    (processLine counts line 1).Count (first ++ [line]) second := by
  cases hmnemonic : mnemonicOf line with
  | none =>
    rw [processLine_of_none hmnemonic]
    refine ⟨h.nodup, fun mnemonic => ?_, fun mnemonic => ?_, h.second_eq⟩
    · rw [countOf_concat_of_none hmnemonic, h.mem_iff]
    · rw [countOf_concat_of_none hmnemonic, h.first_eq]
  | some instruction =>
    rw [processLine_of_some hmnemonic, if_pos rfl]
    refine ⟨nodup_addKey h.nodup instruction, fun mnemonic => ?_, fun mnemonic => ?_, h.second_eq⟩
    · rw [countOf_concat_of_some hmnemonic, mem_addKey, h.mem_iff]
      split_ifs with heq <;> simp [heq, eq_comm]
    · rw [countOf_concat_of_some hmnemonic, ← h.first_eq]
      exact increment_apply counts.first instruction mnemonic

/-- A line that is processed under another number counts for the second file. -/
theorem Counts.Count.processLine_ne_one {counts : Counts} {first second : List Line}
    (h : counts.Count first second) (line : Line) {fileNumber : ℕ} (hnumber : fileNumber ≠ 1) :
    (processLine counts line fileNumber).Count first (second ++ [line]) := by
  cases hmnemonic : mnemonicOf line with
  | none =>
    rw [processLine_of_none hmnemonic]
    refine ⟨h.nodup, fun mnemonic => ?_, h.first_eq, fun mnemonic => ?_⟩
    · rw [countOf_concat_of_none hmnemonic, h.mem_iff]
    · rw [countOf_concat_of_none hmnemonic, h.second_eq]
  | some instruction =>
    rw [processLine_of_some hmnemonic, if_neg hnumber]
    refine ⟨nodup_addKey h.nodup instruction, fun mnemonic => ?_, h.first_eq, fun mnemonic => ?_⟩
    · rw [countOf_concat_of_some hmnemonic, mem_addKey, h.mem_iff]
      split_ifs with heq <;> simp [heq, eq_comm]
    · rw [countOf_concat_of_some hmnemonic, ← h.second_eq]
      exact increment_apply counts.second instruction mnemonic

/-- Records that are not the first of their file are processed under the number that the
file has. -/
theorem State.foldl_record (lines : List Line) {start : ℕ} (hstart : 1 < start) (state : State) :
    (lines.zipIdx start).foldl (fun state numbered => state.record numbered.1 numbered.2) state =
      ⟨state.fileNumber, lines.foldl (fun counts line => processLine counts line state.fileNumber)
        state.counts⟩ := by
  induction lines generalizing start state with
  | nil => rfl
  | cons line lines ih =>
    have hrecord : state.record line start =
        ⟨state.fileNumber, processLine state.counts line state.fileNumber⟩ := by
      rw [State.record, if_neg hstart.ne']
    rw [List.zipIdx_cons, List.foldl_cons, hrecord, ih (by omega)]
    rfl

/-- A file raises the number with its first record, if it has one. -/
theorem State.file_eq (state : State) {text : List Char} (htext : text ≠ []) :
    state.file text = ⟨state.fileNumber + 1, (inputRecords text).foldl
      (fun counts line => processLine counts line (state.fileNumber + 1)) state.counts⟩ := by
  obtain ⟨line, lines, hlines⟩ := List.exists_cons_of_ne_nil (inputRecords_eq_nil_iff.not.mpr htext)
  rw [State.file, hlines, List.zipIdx_cons, List.foldl_cons, State.foldl_record lines (by omega)]
  rfl

theorem State.file_nil (state : State) : state.file [] = state := rfl

/-- Lines that are processed under number 1 count for the first file. -/
theorem Counts.Count.foldl_one {counts : Counts} {first second : List Line}
    (h : counts.Count first second) (lines : List Line) :
    (lines.foldl (fun counts line => processLine counts line 1) counts).Count
      (first ++ lines) second := by
  induction lines generalizing counts first with
  | nil => simpa using h
  | cons line lines ih =>
    have hrun := ih (h.processLine_one line)
    rwa [List.append_assoc, List.singleton_append] at hrun

/-- Lines that are processed under another number count for the second file. -/
theorem Counts.Count.foldl_ne_one {counts : Counts} {first second : List Line}
    (h : counts.Count first second) (lines : List Line) {fileNumber : ℕ}
    (hnumber : fileNumber ≠ 1) :
    (lines.foldl (fun counts line => processLine counts line fileNumber) counts).Count
      first (second ++ lines) := by
  induction lines generalizing counts second with
  | nil => simpa using h
  | cons line lines ih =>
    have hrun := ih (h.processLine_ne_one line hnumber)
    rwa [List.append_assoc, List.singleton_append] at hrun

/-- The records of the first of the texts that are read. -/
def firstLines (texts : List (List Char)) : List Line := (texts.take 1).flatMap inputRecords

/-- The records of the texts behind the first one. -/
def laterLines (texts : List (List Char)) : List Line := (texts.drop 1).flatMap inputRecords

/-- After these texts, none of them empty, the number is theirs, and the records of the first
one count for the first file, those of the others for the second. -/
structure State.Attributes (state : State) (read : List (List Char)) : Prop where
  fileNumber_eq : state.fileNumber = read.length
  counts : state.counts.Count (firstLines read) (laterLines read)

theorem State.initial_attributes : State.initial.Attributes [] := ⟨rfl, State.initial_count⟩

/-- A text that is not empty is one more. -/
theorem State.Attributes.file {state : State} {read : List (List Char)}
    (h : state.Attributes read) {text : List Char} (htext : text ≠ []) :
    (state.file text).Attributes (read ++ [text]) := by
  have hnumber := h.fileNumber_eq
  have hcounts := h.counts
  rw [State.file_eq state htext]
  refine ⟨by simp [hnumber], ?_⟩
  rw [hnumber]
  cases read with
  | nil => simpa [firstLines, laterLines] using hcounts.foldl_one (inputRecords text)
  | cons first read =>
    have hlater : (first :: read).length + 1 ≠ 1 := by simp
    simpa [firstLines, laterLines] using hcounts.foldl_ne_one (inputRecords text) hlater

/-- Empty texts leave no trace. -/
theorem State.Attributes.foldl {state : State} {read : List (List Char)}
    (h : state.Attributes read) (texts : List (List Char)) :
    (texts.foldl State.file state).Attributes (read ++ texts.filter (· ≠ [])) := by
  induction texts generalizing state read with
  | nil => simpa using h
  | cons text texts ih =>
    rw [List.foldl_cons]
    by_cases htext : text = []
    · rw [htext, State.file_nil]
      simpa using ih h
    · simpa [htext] using ih (h.file htext)

/-- The texts that awk reads and that are not empty. -/
def textsRead (standardInput : List Char) (files : List File) : List (List Char) :=
  (inputTexts standardInput files).filter (· ≠ [])

theorem countsOf_count (standardInput : List Char) (files : List File) :
    (countsOf standardInput files).Count (firstLines (textsRead standardInput files))
      (laterLines (textsRead standardInput files)) :=
  (State.initial_attributes.foldl (inputTexts standardInput files)).counts

/-! ## The rows -/

/-- The status that goes with two counts. -/
inductive HasStatus : ℕ → ℕ → String → Prop
  | same (count : ℕ) : HasStatus count count "SAME"
  | added {second : ℕ} (hsecond : 0 < second) : HasStatus 0 second "ADDED"
  | removed {first : ℕ} (hfirst : 0 < first) : HasStatus first 0 "REMOVED"
  | increased {first second : ℕ} (hfirst : 0 < first) (hlt : first < second) :
      HasStatus first second "INCREASED"
  | decreased {first second : ℕ} (hsecond : 0 < second) (hlt : second < first) :
      HasStatus first second "DECREASED"

theorem hasStatus_statusOf (first second : ℕ) :
    HasStatus first second (statusOf first second ((second : ℤ) - first)) := by
  unfold statusOf
  split_ifs with hsame hfirst hsecond hpos
  · obtain rfl : first = second := by omega
    exact .same first
  · subst hfirst
    exact .added (by omega)
  · subst hsecond
    exact .removed (by omega)
  · exact .increased (by omega) (by omega)
  · exact .decreased (by omega) (by omega)

/-- The rows compare the address lines of the two files: one row for every mnemonic of
either file, with its counts in the first and in the second file. -/
structure Compares (first second : List Char) (rows : List Row) : Prop where
  nodup : (rows.map Row.instruction).Nodup
  mem_iff : ∀ mnemonic, mnemonic ∈ rows.map Row.instruction ↔
    ∃ line ∈ inputRecords first ++ inputRecords second, HasMnemonic line mnemonic
  firstCount_eq : ∀ row ∈ rows, row.firstCount = countOf (inputRecords first) row.instruction
  secondCount_eq : ∀ row ∈ rows, row.secondCount = countOf (inputRecords second) row.instruction
  delta_eq : ∀ row ∈ rows, row.delta = (row.secondCount : ℤ) - row.firstCount
  status : ∀ row ∈ rows, HasStatus row.firstCount row.secondCount row.status

/-- Two lists of lines have equally many address lines with each mnemonic. -/
def SameCounts (lines others : List Line) : Prop :=
  ∀ mnemonic, countOf lines mnemonic = countOf others mnemonic

section Rows

variable {shell : Shell Line Row} {first second : File}

theorem map_instruction_rows_perm
    (hassigns : shell.reassigns programWords [first, second] = false) :
    ((rows shell first second).map Row.instruction).Perm
      (countsOf shell.standardInput [first, second]).instructions := by
  rw [rows, if_neg (Bool.not_eq_true _ ▸ hassigns)]
  dsimp only
  set counts := countsOf shell.standardInput [first, second]
  have hkeys := shell.keyOrder.perm counts.instructions
  have hmap := ((shell.sort.perm _).trans (hkeys.map counts.row)).map Row.instruction
  rwa [List.map_map, show Row.instruction ∘ Counts.row _ = id from rfl, List.map_id] at hmap

theorem eq_row_of_mem_rows (hassigns : shell.reassigns programWords [first, second] = false)
    {row : Row} (h : row ∈ rows shell first second) :
    row = (countsOf shell.standardInput [first, second]).row row.instruction := by
  rw [rows, if_neg (Bool.not_eq_true _ ▸ hassigns)] at h
  have hmap := (shell.sort.perm _).mem_iff.mp h
  obtain ⟨instruction, _, rfl⟩ := List.mem_map.mp hmap
  rfl

/-- Rows of arrays that count these lines compare the files exactly when these have as many
address lines with each mnemonic. -/
theorem compares_iff_of_count
    (hassigns : shell.reassigns programWords [first, second] = false) {lines others : List Line}
    (h : (countsOf shell.standardInput [first, second]).Count lines others) :
    Compares first.text second.text (rows shell first second) ↔
      SameCounts lines (inputRecords first.text) ∧
        SameCounts others (inputRecords second.text) := by
  have hperm := map_instruction_rows_perm hassigns
  have hrow : ∀ row ∈ rows shell first second, row.firstCount = countOf lines row.instruction ∧
      row.secondCount = countOf others row.instruction := by
    intro row hmem
    rw [eq_row_of_mem_rows hassigns hmem]
    exact ⟨h.first_eq row.instruction, h.second_eq row.instruction⟩
  have hmem : ∀ mnemonic, mnemonic ∈ (rows shell first second).map Row.instruction ↔
      0 < countOf lines mnemonic ∨ 0 < countOf others mnemonic := fun mnemonic =>
    hperm.mem_iff.trans (h.mem_iff mnemonic)
  have hlines : ∀ mnemonic,
      (∃ line ∈ inputRecords first.text ++ inputRecords second.text, HasMnemonic line mnemonic) ↔
        0 < countOf (inputRecords first.text) mnemonic ∨
          0 < countOf (inputRecords second.text) mnemonic := by
    intro mnemonic
    rw [countOf_pos_iff, countOf_pos_iff]
    simp only [List.mem_append, or_and_right, exists_or]
  constructor
  · intro hcompares
    have hsame : ∀ mnemonic,
        countOf lines mnemonic = countOf (inputRecords first.text) mnemonic ∧
          countOf others mnemonic = countOf (inputRecords second.text) mnemonic := by
      intro mnemonic
      have hiff := (hmem mnemonic).symm.trans
        ((hcompares.mem_iff mnemonic).trans (hlines mnemonic))
      by_cases hlisted : mnemonic ∈ (rows shell first second).map Row.instruction
      · obtain ⟨row, hin, rfl⟩ := List.mem_map.mp hlisted
        obtain ⟨hfirst, hsecond⟩ := hrow row hin
        rw [← hfirst, ← hsecond]
        exact ⟨hcompares.firstCount_eq row hin, hcompares.secondCount_eq row hin⟩
      · have hzero := (hmem mnemonic).not.mp hlisted
        have hzero' := hiff.not.mp hzero
        omega
    exact ⟨fun mnemonic => (hsame mnemonic).1, fun mnemonic => (hsame mnemonic).2⟩
  · rintro ⟨hfirst, hsecond⟩
    refine ⟨hperm.nodup_iff.mpr h.nodup, fun mnemonic => ?_, fun row hin => ?_, fun row hin => ?_,
      fun row hin => ?_, fun row hin => ?_⟩
    · rw [hmem, hlines, hfirst mnemonic, hsecond mnemonic]
    · rw [(hrow row hin).1, hfirst row.instruction]
    · rw [(hrow row hin).2, hsecond row.instruction]
    · rw [eq_row_of_mem_rows hassigns hin]
      rfl
    · rw [eq_row_of_mem_rows hassigns hin]
      exact hasStatus_statusOf _ _

theorem reassigns_pair (hfirst : first.IsPlain) (hsecond : second.IsPlain) :
    shell.reassigns programWords [first, second] = false :=
  shell.reassigns_of_isPlain _ (by simp [hfirst, hsecond])

/-- Plain files are read one after the other. -/
theorem textsRead_pair (standardInput : List Char) (hfirst : first.IsPlain)
    (hsecond : second.IsPlain) :
    textsRead standardInput [first, second] = [first.text, second.text].filter (· ≠ []) := by
  rw [textsRead, inputTexts_of_isPlain standardInput (by simp [hfirst, hsecond]) (by simp)]
  rfl

/-- The lines of plain files count for the two files as they should, unless the first one is
empty and the second one has an address line. -/
theorem sameCounts_pair_iff (standardInput : List Char) (hfirst : first.IsPlain)
    (hsecond : second.IsPlain) :
    (SameCounts (firstLines (textsRead standardInput [first, second])) (inputRecords first.text) ∧
        SameCounts (laterLines (textsRead standardInput [first, second]))
          (inputRecords second.text)) ↔
      first.text ≠ [] ∨
        ∀ line ∈ inputRecords second.text, ∀ mnemonic, ¬ HasMnemonic line mnemonic := by
  have hnone : (∀ line ∈ inputRecords second.text, ∀ mnemonic, ¬ HasMnemonic line mnemonic) ↔
      ∀ mnemonic, countOf (inputRecords second.text) mnemonic = 0 := by
    refine ⟨fun h mnemonic => ?_, fun h line hline mnemonic hmnemonic => ?_⟩
    · by_contra hpos
      obtain ⟨line, hline, hmnemonic⟩ := countOf_pos_iff.mp (Nat.pos_of_ne_zero hpos)
      exact h line hline mnemonic hmnemonic
    · exact (countOf_pos_iff.mpr ⟨line, hline, hmnemonic⟩).ne' (h mnemonic)
  have hzero : ∀ mnemonic, countOf [] mnemonic = 0 := fun _ => rfl
  have hnil : inputRecords [] = [] := rfl
  rw [textsRead_pair standardInput hfirst hsecond, hnone]
  by_cases hempty : first.text = []
  · by_cases hempty' : second.text = []
    · simp [hempty, hempty', firstLines, laterLines, SameCounts, hnil, hzero]
    · simp [hempty, hempty', firstLines, laterLines, SameCounts, hnil, hzero, eq_comm]
  · by_cases hempty' : second.text = []
    · simp [hempty, hempty', firstLines, laterLines, SameCounts, hnil]
    · simp [hempty, hempty', firstLines, laterLines, SameCounts]

end Rows

/-- The report compares the two files, unless the first one is empty and the second one has
an address line, which is then counted for the first: that is for names that awk takes for
files. For other ones it does only if what is read instead has as many address lines. -/
theorem rows_compares_iff (shell : Shell Line Row) (first second : File) :
    (first.IsPlain → second.IsPlain →
      (Compares first.text second.text (rows shell first second) ↔
        first.text ≠ [] ∨
          ∀ line ∈ inputRecords second.text, ∀ mnemonic, ¬ HasMnemonic line mnemonic)) ∧
    (shell.reassigns programWords [first, second] = false →
      (Compares first.text second.text (rows shell first second) ↔
        SameCounts (firstLines (textsRead shell.standardInput [first, second]))
            (inputRecords first.text) ∧
          SameCounts (laterLines (textsRead shell.standardInput [first, second]))
            (inputRecords second.text))) := by
  have hmain : shell.reassigns programWords [first, second] = false → _ := fun hassigns =>
    compares_iff_of_count hassigns (countsOf_count shell.standardInput [first, second])
  exact ⟨fun hfirst hsecond => (hmain (reassigns_pair hfirst hsecond)).trans
    (sameCounts_pair_iff shell.standardInput hfirst hsecond), hmain⟩

/-- A run with an empty standard input. -/
def plainShell : Shell Line Row :=
  ⟨⟨id, List.Perm.refl⟩, ⟨id, List.Perm.refl⟩, [], fun _ => false, fun _ => []⟩

/-- Two logs of one address line each are told apart, but a first one by the name of
`run=1.log` is not read. -/
theorem rows_compares_iff_run :
    let text := "0x10: mov\n".toList
    let second : File := ⟨"b.log".toList, text, by decide⟩
    Compares text text (rows plainShell ⟨"a.log".toList, text, by decide⟩ second) ∧
      ¬ Compares text text (rows plainShell ⟨"run=1.log".toList, text, by decide⟩ second) := by
  intro text second
  have hfile := (rows_compares_iff plainShell ⟨"a.log".toList, text, by decide⟩ second).1
    (by decide) (by decide)
  have hassignment := (rows_compares_iff plainShell ⟨"run=1.log".toList, text, by decide⟩
    second).2 (by decide)
  refine ⟨hfile.mpr (.inl (by decide)), fun hcompares => ?_⟩
  have hsame := (hassignment.mp hcompares).2 "mov".toList
  exact absurd hsame (by decide)

/-- An empty first file against a single address line. -/
theorem not_forall_rows_compares :
    ¬ ∀ (shell : Shell Line Row) (first second : File),
      Compares first.text second.text (rows shell first second) := by
  intro hall
  let first : File := ⟨"a.log".toList, [], by decide⟩
  let second : File := ⟨"b.log".toList, "  0x10: mov\n".toList, by decide⟩
  have hplain : first.IsPlain := by decide
  have hplain' : second.IsPlain := by decide
  have hsame := (compares_iff_of_count (reassigns_pair hplain hplain')
    (countsOf_count [] [first, second])).mp (hall plainShell first second)
  exact absurd (hsame.1 "mov".toList) (by decide)

end Colata.CompareInstructions
