/-
# Awk, as far as the scripts use it

Character classes of regular expressions in the C locale, the records of a file, the
removal of a matched start and the first field of a split. Awk visits the keys of an
array in an order of its own, and `sort` writes the lines it reads in the order of the
locale; both are arrangements that are only known to keep what they arrange. An operand
is a name, which awk need not take for that of a file.
-/

import Colata.Math.Regex
import Mathlib.Data.List.Perm.Basic
import Mathlib.Data.List.Basic
import Mathlib.Data.List.Nodup

namespace Colata.Awk

open Colata.Math

/-- An order in which elements are visited, each of them once. -/
structure Arrangement (α : Type) where
  arrange : List α → List α
  perm : ∀ list, (arrange list).Perm list

/-! ## Operands -/

/-- A file by its name, with the text that is read from it. -/
structure File where
  name : List Char
  text : List Char
  name_ne_nil : name ≠ []

/-- What awk takes an operand for. -/
inductive Operand
  | file
  | standardInput
  | assignment (word : List Char)
  deriving DecidableEq

def isNameStart (c : Char) : Bool :=
  c = '_' || ('a' ≤ c && c ≤ 'z') || ('A' ≤ c && c ≤ 'Z')

def isNameChar (c : Char) : Bool := isNameStart c || ('0' ≤ c && c ≤ '9')

/-- An operand `word=value` assigns a variable, and `-` is the standard input. -/
def operandOf (name : List Char) : Operand :=
  let word := name.takeWhile isNameChar
  if name = ['-'] then .standardInput
  else if word.head?.any isNameStart && (name.dropWhile isNameChar).head? = some '=' then
    .assignment word
  else .file

example : operandOf "run=1.log".toList = .assignment "run".toList := by decide

example : operandOf "./run=1.log".toList = .file := by decide

/-- The operand is the name of a file to awk, too. -/
def File.IsPlain (file : File) : Prop := operandOf file.name = .file

instance (file : File) : Decidable file.IsPlain := inferInstanceAs (Decidable (_ = _))

/-- The variable that an operand assigns. -/
def File.assigned? (file : File) : Option (List Char) :=
  match operandOf file.name with
  | .assignment word => some word
  | _ => none

theorem File.IsPlain.assigned?_eq_none {file : File} (h : file.IsPlain) :
    file.assigned? = none := by
  rw [assigned?, h]

/-- The texts that are read for the operands. The standard input is read up to its end when
it is named first. -/
def operandTexts : List Char → List File → List (List Char)
  | _, [] => []
  | standardInput, file :: files =>
      match operandOf file.name with
      | .file => file.text :: operandTexts standardInput files
      | .standardInput => standardInput :: operandTexts [] files
      | .assignment _ => operandTexts standardInput files

/-- The texts that are read in all: the standard input if every operand is an assignment. -/
def inputTexts (standardInput : List Char) (files : List File) : List (List Char) :=
  if files.all fun file => file.assigned?.isSome then [standardInput]
  else operandTexts standardInput files

/-- Files that awk takes for files are read. -/
theorem inputTexts_of_isPlain (standardInput : List Char) {files : List File}
    (hplain : ∀ file ∈ files, file.IsPlain) (hne : files ≠ []) :
    inputTexts standardInput files = files.map File.text := by
  have htexts : operandTexts standardInput files = files.map File.text := by
    clear hne
    induction files with
    | nil => rfl
    | cons file files ih =>
      have hfile : operandOf file.name = .file := hplain file List.mem_cons_self
      have hrest := ih fun other hother => hplain other (List.mem_cons_of_mem file hother)
      rw [operandTexts, hfile, List.map_cons, ← hrest]
  obtain ⟨file, rest, rfl⟩ := List.exists_cons_of_ne_nil hne
  rw [inputTexts, htexts, if_neg]
  simp [(hplain file List.mem_cons_self).assigned?_eq_none]

/-- What a run of a script depends on besides its operands. Assignments to words with a
meaning of their own change the run in ways that are not followed here. -/
structure Shell (Key Row : Type) where
  keyOrder : Arrangement Key
  sort : Arrangement Row
  standardInput : List Char
  /-- The words that awk itself gives a meaning, like `RS` and `getline`. -/
  isReserved : List Char → Bool
  /-- What is printed when an operand assigns one of them, or a word of the program. -/
  reassigned : List File → List Row

/-- An operand assigns a word with a meaning. -/
def Shell.reassigns {Key Row : Type} (shell : Shell Key Row) (program : List (List Char))
    (files : List File) : Bool :=
  files.any fun file => file.assigned?.any fun word =>
    shell.isReserved word || program.contains word

theorem Shell.reassigns_of_isPlain {Key Row : Type} (shell : Shell Key Row)
    (program : List (List Char)) {files : List File} (hplain : ∀ file ∈ files, file.IsPlain) :
    shell.reassigns program files = false := by
  rw [reassigns, List.any_eq_false]
  intro file hfile
  rw [(hplain file hfile).assigned?_eq_none]
  exact Bool.false_ne_true

/-! ## Records and fields -/

/-- `[[:space:]]`. -/
def isSpace (c : Char) : Bool :=
  c = ' ' || c = '\t' || c = '\n' || c = '\u000b' || c = '\u000c' || c = '\r'

/-- `[[:xdigit:]]`. -/
def isXDigit (c : Char) : Bool :=
  ('0' ≤ c && c ≤ '9') || ('a' ≤ c && c ≤ 'f') || ('A' ≤ c && c ≤ 'F')

/-- The records of a file are its lines. The last one need not end with a newline. -/
def inputRecords (text : List Char) : List (List Char) :=
  let pieces := text.splitOn '\n'
  if pieces.getLast? = some [] then pieces.dropLast else pieces

example : inputRecords "a\n\nb\n".toList = ["a".toList, [], "b".toList] := by decide

/-- Only an empty file has no records. -/
theorem inputRecords_eq_nil_iff {text : List Char} : inputRecords text = [] ↔ text = [] := by
  constructor
  · intro hnil
    have hjoin : ['\n'].intercalate (text.splitOn '\n') = text := List.intercalate_splitOn '\n'
    unfold inputRecords at hnil
    dsimp only at hnil
    generalize text.splitOn '\n' = pieces at hnil hjoin
    split_ifs at hnil with hlast
    · rcases pieces with _ | ⟨piece, _ | ⟨second, pieces⟩⟩
      · cases hlast
      · obtain rfl : piece = [] := by simpa using hlast
        simpa using hjoin.symm
      · simp at hnil
    · rw [hnil] at hjoin
      simpa using hjoin.symm
  · intro hempty
    rw [hempty]
    rfl

/-- `sub(pattern, "", line)` for a pattern that starts with `^`. -/
def removeStart (pattern : Regex) (line : List Char) : List Char :=
  match Regex.matchStart pattern line with
  | some found => found.rest
  | none => line

/-- `fields[1]` after `split(line, fields, /[[:space:]]+/)`, which is empty when it is unset. -/
def firstField (line : List Char) : List Char := line.takeWhile fun c => !isSpace c

/-- A text starts with some white space, and the rest of it does not. -/
theorem exists_spaces_append (text : List Char) :
    ∃ spaces rest, text = spaces ++ rest ∧ (∀ c ∈ spaces, isSpace c) ∧
      ∀ c ∈ rest.head?, isSpace c = false := by
  refine ⟨text.takeWhile isSpace, text.dropWhile isSpace, List.takeWhile_append_dropWhile.symm,
    fun c hc => List.mem_takeWhile_imp hc, fun c hc => ?_⟩
  have hhead := List.head?_dropWhile_not isSpace text
  rw [Option.mem_def] at hc
  simpa [hc] using hhead

/-- A text starts with its first field, and white space ends it. -/
theorem exists_firstField_append (text : List Char) :
    ∃ rest, text = firstField text ++ rest ∧ (∀ c ∈ firstField text, isSpace c = false) ∧
      ∀ c ∈ rest.head?, isSpace c := by
  refine ⟨text.dropWhile fun c => !isSpace c, List.takeWhile_append_dropWhile.symm,
    fun c hc => by simpa using List.mem_takeWhile_imp hc, fun c hc => ?_⟩
  have hhead := List.head?_dropWhile_not (fun c => !isSpace c) text
  rw [Option.mem_def] at hc
  simpa [hc] using hhead

theorem firstField_append {field rest : List Char} (hfield : ∀ c ∈ field, isSpace c = false)
    (hrest : ∀ c ∈ rest.head?, isSpace c) : firstField (field ++ rest) = field := by
  have hstop : rest.takeWhile (fun c => !isSpace c) = [] := by
    cases rest with
    | nil => rfl
    | cons c rest => simp [hrest c rfl]
  rw [firstField, List.takeWhile_append_of_pos fun c hc => by simp [hfield c hc], hstop,
    List.append_nil]

/-- The text of a column of `printf` that is filled up on the left. -/
def padLeft (width : ℕ) (text : String) : String :=
  String.ofList (text.toList.leftpad width ' ')

/-- The text of a column of `printf` that is filled up on the right. -/
def padRight (width : ℕ) (text : String) : String :=
  String.ofList (text.toList.rightpad width ' ')

/-- `%+d`. -/
def signed (x : ℤ) : String := if 0 ≤ x then "+" ++ toString x else toString x

end Colata.Awk
