/-
# Loops for uops

`UopsLoop` makes a loop of a disassembly: the instructions, without addresses and comments,
between a label and a jump back to it. Whatever the file holds, the loop has one line for
each of them.
-/

import Colata.Disassembly.Address
import Colata.Languages.Java.Text

namespace Colata.UopsLoop

open Colata.Math Colata.Java Colata.Disassembly

/-! ## The program -/

/-- `\s` -/
def isSpace (c : Char) : Bool := (9 ≤ c.toNat && c.toNat ≤ 13) || c == ' '

/-- `[0-9a-fA-F]` -/
def isHexDigit (c : Char) : Bool :=
  ('0' ≤ c && c ≤ '9') || ('a' ≤ c && c ≤ 'f') || ('A' ≤ c && c ≤ 'F')

/-- `.` takes no line terminator. -/
def isDot (c : Char) : Bool :=
  !(c == '\n' || c == '\r' || c == '\u0085' || c == '\u2028' || c == '\u2029')

/-- `^\s*0x[0-9a-fA-F]+:\s*(.*?)\s*(?:;.*)?$` -/
def asmPattern : Regex :=
  .sequence [.start, .star true (.char isSpace), .char (· == '0'), .char (· == 'x'),
    .plus (.char isHexDigit), .literal ":", .star true (.char isSpace),
    .group 1 (.star false (.char isDot)), .star true (.char isSpace),
    .opt (.seq (.literal ";") (.star true (.char isDot))), .stop]

/-- `m.matches() ? m.group(1) : null` -/
def instructionOf (line : String) : Option String :=
  (asmPattern.matchStart line.toList).map fun m => String.ofList ((m.captured 1).getD [])

/-- `writeLine` -/
def writeLine (written : List Char) (line : String) : List Char := written ++ line.toList ++ ['\n']

/-- The text that `asLoopAssembly` writes for a file with this text. -/
def asLoopAssembly (text : String) : String :=
  let written := writeLine [] "loop:"
  let written := (((lines text).filterMap instructionOf).filter fun line => !isBlank line).foldl
    writeLine written
  String.ofList (writeLine written "jnz loop")

/-! ## The instructions of a line -/

/-- The instruction of a line: all behind the address and before the first semicolon, without
white space at its ends. -/
def scan (line : String) : Option String :=
  (afterAddress isSpace (· == 'x') isHexDigit line.toList).bind fun behind =>
    if behind.all isDot then
      some (String.ofList (Regex.fieldOf isSpace ';' (behind.dropWhile isSpace)))
    else none

/-- What the pattern looks for behind the address. -/
def instructionPieces : List Regex :=
  .star true (.char isSpace) :: .group 1 (.star false (.char isDot)) ::
    Regex.lineEnd isSpace isDot ";"

section Line

variable {line behind : List Char}

theorem first_instruction (hdot : ∀ c ∈ behind, isDot c) (position : ℕ) :
    Regex.First instructionPieces ⟨position, behind, []⟩ fun found =>
      found.captured 1 = some (Regex.fieldOf isSpace ';' (behind.dropWhile isSpace)) := by
  have hplain : ∀ c ∈ behind.dropWhile isSpace, isDot c := fun c hc =>
    hdot c ((List.dropWhile_suffix isSpace).subset hc)
  have hsemicolon : isSpace ';' = false := by decide
  rw [← List.takeWhile_append_dropWhile (p := isSpace) (l := behind)]
  apply Regex.First.greedy (fun c hc => List.mem_takeWhile_imp hc) (head?_dropWhile_stop _ _)
  apply Regex.First.fieldOf rfl hsemicolon hplain
  intro found hfound
  rw [Regex.State.captured, hfound, List.takeWhile_append_dropWhile]
  rfl

/-- In a line of a file, the characters that are no dot are no white space either. -/
theorem isDot_of_isSpace (hplain : Plain line) {c : Char} (hc : c ∈ line)
    (h : isSpace c) : isDot c := by
  obtain ⟨hnewline, hreturn⟩ := hplain c hc
  have hsmall : c.toNat ≤ 32 := by
    rcases Bool.or_eq_true_iff.mp h with hcontrol | hblank
    · simp only [Bool.and_eq_true, decide_eq_true_eq] at hcontrol
      omega
    · obtain rfl : c = ' ' := by simpa using hblank
      decide
  have hne : ∀ d : Char, 32 < d.toNat → c ≠ d := by
    rintro d hd rfl
    omega
  simp [isDot, hnewline, hreturn, hne '\u0085' (by decide), hne '\u2028' (by decide),
    hne '\u2029' (by decide)]

theorem forall_isDot_of_mem_run {position : ℕ} {found : Regex.State} (hplain : Plain behind)
    (h : found ∈ (Regex.sequence instructionPieces).run ⟨position, behind, []⟩) :
    ∀ c ∈ behind, isDot c := by
  obtain ⟨middle, hgap, hrun⟩ := Regex.mem_run_sequence_cons.mp h
  obtain ⟨gap, hspace, after, hbehind, rfl⟩ := Regex.mem_run_star_char_iff.mp hgap
  obtain rfl : behind = gap ++ after := hbehind
  have hmark : ∀ c ∈ ";".toList, isDot c := List.forall_mem_singleton.mpr (by decide)
  have hafter := Regex.forall_of_mem_run_field hmark hrun
  intro c hc
  rcases List.mem_append.mp hc with hgapMem | hafterMem
  · exact isDot_of_isSpace hplain hc (hspace c hgapMem)
  · exact (hafter c hafterMem).elim id fun h => isDot_of_isSpace hplain hc h

theorem plain_behind {space x hex : Char → Bool} (hplain : Plain line)
    (haddress : HasAddress space x hex line behind) : Plain behind := by
  obtain ⟨indent, c, digits, _, _, _, _, rfl⟩ := haddress
  intro d hd
  apply hplain d
  simp [hd]

end Line

/-- A line of a file is read as the scanner reads it. -/
theorem instructionOf_eq_scan {line : String} (hplain : Plain line.toList) :
    instructionOf line = scan line := by
  rw [instructionOf, scan]
  cases hmatch : asmPattern.matchStart line.toList with
  | some found =>
      obtain ⟨behind, _, haddress, hrun⟩ := exists_hasAddress_of_matchStart hmatch
      have hdot := forall_isDot_of_mem_run (plain_behind hplain haddress) hrun
      obtain ⟨other, hother, hcaptured⟩ :=
        haddress.first (by decide) (by decide) (first_instruction hdot)
      obtain rfl : found = other := Option.some.inj (hmatch.symm.trans hother)
      rw [haddress.afterAddress_eq (by decide) (by decide), Option.bind_some,
        if_pos (List.all_eq_true.mpr hdot), Option.map_some, hcaptured, Option.getD_some]
  | none =>
      cases hafter : afterAddress isSpace (· == 'x') isHexDigit line.toList with
      | none => rfl
      | some behind =>
          rw [Option.bind_some, if_neg]
          · rfl
          · intro hdot
            obtain ⟨found, hfound, _⟩ :=
              (hasAddress_of_afterAddress hafter).first (by decide) (by decide)
                (first_instruction (List.all_eq_true.mp hdot))
            have hnone : asmPattern.matchStart line.toList = some found := hfound
            rw [hmatch] at hnone
            cases hnone

theorem plain_of_scan {line instruction : String} (hplain : Plain line.toList)
    (h : scan line = some instruction) : Plain instruction.toList := by
  obtain ⟨behind, hafter, hscan⟩ := Option.bind_eq_some_iff.mp h
  split_ifs at hscan
  obtain rfl := Option.some.inj hscan
  have hbehind := plain_behind hplain (hasAddress_of_afterAddress hafter)
  have hpart : Regex.fieldOf isSpace ';' (behind.dropWhile isSpace) <+:
      behind.dropWhile isSpace :=
    (List.rdropWhile_prefix isSpace _).trans (List.takeWhile_prefix _)
  intro c hc
  rw [String.toList_ofList] at hc
  exact hbehind c ((List.dropWhile_suffix isSpace).subset (hpart.subset hc))

/-! ## The loop -/

/-- The instructions of a file, without lines that are blank. -/
def instructions (text : String) : List String :=
  ((lines text).filterMap scan).filter fun line => !isBlank line

theorem foldl_writeLine (texts : List String) (written : List Char) :
    texts.foldl writeLine written =
      written ++ texts.flatMap fun line => line.toList ++ ['\n'] := by
  induction texts generalizing written with
  | nil => simp
  | cons first texts ih =>
      rw [List.foldl_cons, ih, writeLine, List.flatMap_cons]
      simp only [List.append_assoc]

theorem asLoopAssembly_eq (text : String) :
    (asLoopAssembly text).toList =
      ("loop:" :: (instructions text ++ ["jnz loop"])).flatMap fun line => line.toList ++ ['\n'] := by
  have hread : (lines text).filterMap instructionOf = (lines text).filterMap scan :=
    List.filterMap_congr fun line hline => instructionOf_eq_scan (plain_of_mem_lines hline)
  rw [asLoopAssembly]
  rw [String.toList_ofList, hread, foldl_writeLine]
  simp only [writeLine, instructions, List.flatMap_cons, List.flatMap_append, List.flatMap_nil,
    List.append_assoc, List.nil_append, List.append_nil]

theorem plain_of_mem_instructions {text instruction : String} (h : instruction ∈ instructions text) :
    Plain instruction.toList := by
  obtain ⟨line, hline, hscan⟩ := List.mem_filterMap.mp (List.mem_filter.mp h).1
  exact plain_of_scan (plain_of_mem_lines hline) hscan

/-- Whatever the file holds, the loop has its instructions, each on a line of its own. -/
theorem lines_asLoopAssembly (text : String) :
    lines (asLoopAssembly text) = "loop:" :: (instructions text ++ ["jnz loop"]) := by
  have hplain : ∀ line ∈ "loop:" :: (instructions text ++ ["jnz loop"]), Plain line.toList := by
    intro line hline
    rcases List.mem_cons.mp hline with rfl | hline
    · decide
    · rcases List.mem_append.mp hline with hline | hline
      · exact plain_of_mem_instructions hline
      · obtain rfl := List.mem_singleton.mp hline
        decide
  rw [lines, asLoopAssembly_eq, linesFrom_flatMap hplain]

end Colata.UopsLoop
