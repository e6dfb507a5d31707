/-
# The instructions of a log

The pattern that reads a line backtracks. A scanner that never goes back reads the same: a
line of an instruction starts with an address, white space and a letter; the mnemonic is the
longest run of letters and digits there, and the operands are what stands before the first
semicolon.
-/

import Colata.CompareMaxShape.Analyze
import Colata.Disassembly.Address

namespace Colata.CompareMaxShape

open Colata.Math Colata.Python Colata.Disassembly

/-- `[a-z0-9]`, without regard to case. -/
def isWord (c : Char) : Bool := isLetter c || isDigit c

/-- `x`, without regard to case. -/
def isX (c : Char) : Bool := c == 'x' || c == 'X'

/-- The mnemonic and the operands behind an address. -/
def instruction (behind : Text) : Option (Text × Text) :=
  let rest := behind.dropWhile isSpace
  if behind.head?.any isSpace ∧ rest.head?.any isLetter then
    some (rest.takeWhile isWord, strip ((rest.dropWhile isWord).takeWhile (· != ';')))
  else none

def scan (line : Text) : Option (Text × Text) :=
  (afterAddress isSpace isX isHexDigitIgnoringCase line).bind instruction

/-! ## The parts of an instruction -/

theorem isSpace_eq_false_of_isLetter {c : Char} (h : isLetter c) : isSpace c = false := by
  have hle : ∀ a b : Char, a ≤ b ↔ a.toNat ≤ b.toNat := fun a b => UInt32.le_iff_toNat_le
  simp only [isLetter, Bool.or_eq_true, Bool.and_eq_true, decide_eq_true_eq, hle,
    List.contains_eq_mem, List.mem_cons, List.not_mem_nil, or_false,
    show 'a'.toNat = 97 from rfl, show 'z'.toNat = 122 from rfl, show 'A'.toNat = 65 from rfl,
    show 'Z'.toNat = 90 from rfl] at h
  simp only [isSpace, Bool.or_eq_false_iff, Bool.and_eq_false_iff, decide_eq_false_iff_not,
    List.contains_eq_mem, List.mem_cons, List.not_mem_nil, or_false]
  omega

/-- The text behind an address: white space, a mnemonic and operands. -/
structure Instruction where
  gap : Text
  letter : Char
  word : Text
  operands : Text
  gap_ne : gap ≠ []
  gap_space : ∀ c ∈ gap, isSpace c
  letter_isLetter : isLetter letter
  word_isWord : ∀ c ∈ word, isWord c
  operands_stop : ∀ c ∈ operands.head?, isWord c = false

/-- What the pattern looks for behind the address. -/
def instructionPieces : List Regex :=
  .plus (.char isSpace) ::
    .group 1 (.seq (.char isLetter) (.star true (.char fun c => isLetter c || isDigit c))) ::
    .star true (.char isSpace) :: .group 2 (.star false (.char (· != '\n'))) ::
    Regex.lineEnd isSpace (· != '\n') ";"

namespace Instruction

variable (i : Instruction)

def text : Text := i.gap ++ ((i.letter :: i.word) ++ i.operands)

theorem letter_stop : ∀ c ∈ ((i.letter :: i.word) ++ i.operands).head?, isSpace c = false := by
  intro c hc
  obtain rfl := Option.some.inj hc
  exact isSpace_eq_false_of_isLetter i.letter_isLetter

theorem instruction_text : instruction i.text =
    some (i.letter :: i.word, strip (i.operands.takeWhile (· != ';'))) := by
  have hword : ∀ c ∈ i.letter :: i.word, isWord c := by
    intro c hc
    rcases List.mem_cons.mp hc with rfl | hc
    · rw [isWord, i.letter_isLetter, Bool.true_or]
    · exact i.word_isWord c hc
  have hgap : i.text.head?.any isSpace = true := by
    obtain ⟨c, gap, hcons⟩ := List.exists_cons_of_ne_nil i.gap_ne
    have hc := i.gap_space c (hcons ▸ List.mem_cons_self)
    simp [text, hcons, hc]
  have hrest : i.text.dropWhile isSpace = (i.letter :: i.word) ++ i.operands :=
    dropWhile_append_stop i.gap_space i.letter_stop
  rw [instruction, hrest, if_pos ⟨hgap, i.letter_isLetter⟩,
    takeWhile_append_stop hword i.operands_stop, dropWhile_append_stop hword i.operands_stop]

/-- The pattern reads the parts; the operands that it captures start behind white space. -/
theorem first (hline : ∀ c ∈ i.text, c ≠ '\n') (position : ℕ) :
    Regex.First instructionPieces ⟨position, i.text, []⟩ fun found =>
      found.captured 1 = some (i.letter :: i.word) ∧
        found.captured 2 = some (Regex.fieldOf isSpace ';' (i.operands.dropWhile isSpace)) := by
  have hsemicolon : isSpace ';' = false := by decide
  have hplain : ∀ c ∈ i.operands.dropWhile isSpace, (c != '\n') = true := by
    intro c hc
    have hmem := (List.dropWhile_suffix isSpace).subset hc
    refine bne_iff_ne.mpr (hline c ?_)
    simp only [text, List.mem_append]
    exact Or.inr (Or.inr hmem)
  apply Regex.First.plus i.gap_ne i.gap_space i.letter_stop
  apply Regex.First.groupWord i.letter_isLetter i.word_isWord i.operands_stop
  rw [← List.takeWhile_append_dropWhile (p := isSpace) (l := i.operands)]
  apply Regex.First.greedy (fun c hc => List.mem_takeWhile_imp hc) (head?_dropWhile_stop _ _)
  apply Regex.First.fieldOf rfl hsemicolon hplain
  intro found hfound
  rw [Regex.State.captured, Regex.State.captured, hfound, List.takeWhile_append_dropWhile]
  exact ⟨rfl, rfl⟩

end Instruction

/-- Whatever the pattern matches behind an address has these parts. -/
theorem exists_instruction_of_mem_run {position : ℕ} {behind : Text} {found : Regex.State}
    (h : found ∈ (Regex.sequence instructionPieces).run ⟨position, behind, []⟩) :
    ∃ i : Instruction, behind = i.text := by
  obtain ⟨s₁, hgap, hrun⟩ := Regex.mem_run_sequence_cons.mp h
  obtain ⟨gap, hne, hspace, after₁, hbehind, rfl⟩ := Regex.mem_run_plus_char.mp hgap
  obtain ⟨s₂, hgroup, _⟩ := Regex.mem_run_sequence_cons.mp hrun
  rw [Regex.run_group, List.mem_map] at hgroup
  obtain ⟨s₃, hword, _⟩ := hgroup
  rw [Regex.run_seq, List.mem_flatMap] at hword
  obtain ⟨s₄, hletter, _⟩ := hword
  obtain ⟨letter, hletterEq, after₂, hafter, _⟩ := Regex.mem_run_char.mp hletter
  refine ⟨⟨gap, letter, after₂.takeWhile isWord, after₂.dropWhile isWord, hne, hspace, hletterEq,
    fun c hc => List.mem_takeWhile_imp hc, head?_dropWhile_stop _ _⟩, ?_⟩
  obtain rfl : behind = gap ++ after₁ := hbehind
  obtain rfl : after₁ = letter :: after₂ := hafter
  simp only [Instruction.text, List.cons_append, List.takeWhile_append_dropWhile]

/-- Whatever the scanner reads behind an address has these parts. -/
theorem exists_instruction_of_eq_some {behind : Text} {read : Text × Text}
    (h : instruction behind = some read) : ∃ i : Instruction, behind = i.text := by
  unfold instruction at h
  dsimp only at h
  split_ifs at h with hparts
  obtain ⟨hgap, hletter⟩ := hparts
  obtain ⟨c, hc, hspace⟩ := (Option.any_eq_true _ _).mp hgap
  obtain ⟨letter, hhead, hisLetter⟩ := (Option.any_eq_true _ _).mp hletter
  obtain ⟨after, hafter⟩ := List.head?_eq_some_iff.mp hhead
  refine ⟨⟨behind.takeWhile isSpace, letter, after.takeWhile isWord, after.dropWhile isWord, ?_,
    fun c hc => List.mem_takeWhile_imp hc, hisLetter, fun c hc => List.mem_takeWhile_imp hc,
    head?_dropWhile_stop _ _⟩, ?_⟩
  · obtain ⟨rest, rfl⟩ := List.head?_eq_some_iff.mp hc
    simp [hspace]
  · simp only [Instruction.text, List.cons_append, List.takeWhile_append_dropWhile]
    rw [← hafter, List.takeWhile_append_dropWhile]

/-! ## The rows -/

/-- `strip` makes nothing of the white space that the pattern leaves out. -/
theorem strip_fieldOf (operands : Text) :
    strip (Regex.fieldOf isSpace ';' (operands.dropWhile isSpace)) =
      strip (operands.takeWhile (· != ';')) := by
  have hswap : (operands.takeWhile (· != ';')).dropWhile isSpace =
      (operands.dropWhile isSpace).takeWhile (· != ';') := by
    induction operands with
    | nil => rfl
    | cons c operands ih =>
      by_cases hspace : isSpace c
      · have hne : c ≠ ';' := by
          rintro rfl
          exact absurd hspace (by decide)
        simpa [hspace, hne] using ih
      · rw [List.dropWhile_cons_of_neg hspace]
        by_cases hne : c = ';' <;> simp [hspace, hne]
  have hstart : ∀ c ∈ (Regex.fieldOf isSpace ';' (operands.dropWhile isSpace)).head?,
      isSpace c = false := by
    intro c hc
    apply head?_dropWhile_stop isSpace operands
    have hleading : Regex.fieldOf isSpace ';' (operands.dropWhile isSpace) <+:
        operands.dropWhile isSpace :=
      (List.rdropWhile_prefix isSpace _).trans (List.takeWhile_prefix _)
    obtain ⟨rest, hrest⟩ := List.head?_eq_some_iff.mp hc
    obtain ⟨behind, hbehind⟩ := hleading
    rw [← hbehind, hrest]
    rfl
  have hdrop : (Regex.fieldOf isSpace ';' (operands.dropWhile isSpace)).dropWhile isSpace =
      Regex.fieldOf isSpace ';' (operands.dropWhile isSpace) :=
    dropWhile_append_stop (List.forall_mem_nil _) hstart
  rw [strip, hdrop, Regex.fieldOf, List.rdropWhile_idempotent, strip, hswap]

theorem ne_newline_of_mem_splitLinesFrom {line text : Text} (hline : ∀ c ∈ line, c ≠ '\n') :
    ∀ found ∈ splitLinesFrom line text, ∀ c ∈ found, c ≠ '\n' := by
  have hnil : ∀ c ∈ ([] : Text), c ≠ '\n' := List.forall_mem_nil _
  fun_induction splitLinesFrom line text with
  | case1 => simp
  | case2 line hne =>
    intro found hfound
    obtain rfl := List.mem_singleton.mp hfound
    exact hline
  | case3 line text ih =>
    intro found hfound
    rcases List.mem_cons.mp hfound with rfl | hfound
    · exact hline
    · exact ih hnil found hfound
  | case4 line c text hc hboundary ih =>
    intro found hfound
    rcases List.mem_cons.mp hfound with rfl | hfound
    · exact hline
    · exact ih hnil found hfound
  | case5 line c text hc hboundary ih =>
    apply ih
    intro d hd
    rcases List.mem_append.mp hd with hd | hd
    · exact hline d hd
    · obtain rfl := List.mem_singleton.mp hd
      rintro rfl
      exact hboundary (by decide)

section Line

variable {line behind : Text} (hline : ∀ c ∈ line, c ≠ '\n')
  (haddress : HasAddress isSpace isX isHexDigitIgnoringCase line behind)

include hline haddress

theorem ne_newline_behind : ∀ c ∈ behind, c ≠ '\n' := by
  obtain ⟨indent, x, digits, _, _, _, _, rfl⟩ := haddress
  intro c hc
  apply hline c
  simp [hc]

/-- A line with the parts of an instruction is matched, and read as the scanner reads it. -/
theorem exists_matchStart {i : Instruction} (hi : behind = i.text) :
    ∃ found, insn.matchStart line = some found ∧
      some ((found.captured 1).getD [], strip ((found.captured 2).getD [])) = scan line := by
  have hplain := ne_newline_behind hline haddress
  subst hi
  obtain ⟨found, hfound, hword, hoperands⟩ :=
    haddress.first (by decide) (by decide) (i.first hplain)
  refine ⟨found, hfound, ?_⟩
  rw [scan, haddress.afterAddress_eq (by decide) (by decide), Option.bind_some, i.instruction_text,
    hword, hoperands, Option.getD_some, Option.getD_some, strip_fieldOf]

end Line

/-- Every line is read as the scanner reads it. -/
theorem matchStart_eq_scan {line : Text} (hline : ∀ c ∈ line, c ≠ '\n') :
    (insn.matchStart line).map (fun found =>
        ((found.captured 1).getD [], strip ((found.captured 2).getD []))) = scan line := by
  cases hmatch : insn.matchStart line with
  | some found =>
    obtain ⟨behind, _, haddress, hrun⟩ := exists_hasAddress_of_matchStart hmatch
    obtain ⟨i, hi⟩ := exists_instruction_of_mem_run hrun
    obtain ⟨other, hother, hread⟩ := exists_matchStart hline haddress hi
    obtain rfl : found = other := Option.some.inj (hmatch.symm.trans hother)
    exact hread
  | none =>
    cases hscan : scan line with
    | none => rfl
    | some read =>
      obtain ⟨behind, hafter, hinstruction⟩ := Option.bind_eq_some_iff.mp hscan
      obtain ⟨i, hi⟩ := exists_instruction_of_eq_some hinstruction
      obtain ⟨found, hfound, _⟩ :=
        exists_matchStart hline (hasAddress_of_afterAddress hafter) hi
      rw [hmatch] at hfound
      cases hfound

/-- The rows of a log are those of the scanner, for every log. -/
theorem parse_eq_scan (text : Text) :
    parse text = ((splitLines text).zipIdx 1).filterMap fun (line, n) =>
      (scan line).map fun (op, args) => ⟨n, lower op, args, line⟩ := by
  rw [parse]
  apply List.filterMap_congr
  rintro ⟨line, n⟩ hmem
  have hline : ∀ c ∈ line, c ≠ '\n' :=
    ne_newline_of_mem_splitLinesFrom (List.forall_mem_nil _) line (List.fst_mem_of_mem_zipIdx hmem)
  dsimp only
  rw [← matchStart_eq_scan hline, Option.map_map]
  rfl

end Colata.CompareMaxShape
