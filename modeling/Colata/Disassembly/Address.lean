/-
# Lines of a disassembly

A disassembled instruction is printed behind its address, `0x…:`. Patterns for such lines
start with the same pieces, up to their character classes, and these pieces match in one way
at most.
-/

import Colata.Math.RegexComments

namespace Colata.Disassembly

open Colata.Math

/-- What stands behind the address of a line. -/
def afterAddress (space x hex : Char → Bool) (line : List Char) : Option (List Char) :=
  match line.dropWhile space with
  | '0' :: c :: text =>
      if x c ∧ text.takeWhile hex ≠ [] then
        match text.dropWhile hex with
        | ':' :: behind => some behind
        | _ => none
      else none
  | _ => none

/-- `\s*0x[0-9a-f]+:`, for these classes. -/
def address (space x hex : Char → Bool) : List Regex :=
  [.star true (.char space), .char (· == '0'), .char x, .plus (.char hex), .literal ":"]

/-- The line is blanks, an address and the text behind it. -/
def HasAddress (space x hex : Char → Bool) (line behind : List Char) : Prop :=
  ∃ indent c digits, (∀ d ∈ indent, space d) ∧ x c ∧ digits ≠ [] ∧ (∀ d ∈ digits, hex d) ∧
    line = indent ++ '0' :: c :: (digits ++ ':' :: behind)

section Address

variable {space x hex : Char → Bool} {line behind : List Char}

theorem hasAddress_of_afterAddress (h : afterAddress space x hex line = some behind) :
    HasAddress space x hex line behind := by
  unfold afterAddress at h
  split at h
  · rename_i c rest hline
    split_ifs at h with hparts
    split at h
    · rename_i after hcolon
      obtain rfl := Option.some.inj h
      refine ⟨line.takeWhile space, c, rest.takeWhile hex, fun d hd => List.mem_takeWhile_imp hd,
        hparts.1, hparts.2, fun d hd => List.mem_takeWhile_imp hd, ?_⟩
      rw [← hcolon, List.takeWhile_append_dropWhile, ← hline, List.takeWhile_append_dropWhile]
    · cases h
  · cases h

variable (hspace : space '0' = false) (hhex : hex ':' = false)

include hspace hhex

/-- The address is found where blanks and digits end. -/
theorem HasAddress.afterAddress_eq (h : HasAddress space x hex line behind) :
    afterAddress space x hex line = some behind := by
  obtain ⟨indent, c, digits, hindent, hc, hne, hdigits, rfl⟩ := h
  have hzero : ∀ d ∈ ('0' :: c :: (digits ++ ':' :: behind)).head?, space d = false := by
    intro d hd
    obtain rfl := Option.some.inj hd
    exact hspace
  have hcolon : ∀ d ∈ (':' :: behind).head?, hex d = false := by
    intro d hd
    obtain rfl := Option.some.inj hd
    exact hhex
  rw [afterAddress, dropWhile_append_stop hindent hzero]
  simp only
  rw [takeWhile_append_stop hdigits hcolon, dropWhile_append_stop hdigits hcolon, if_pos ⟨hc, hne⟩]
  rfl

theorem HasAddress.first {more : List Regex} {post : Regex.State → Prop}
    (h : HasAddress space x hex line behind)
    (hmore : ∀ position, Regex.First more ⟨position, behind, []⟩ post) :
    Regex.First (.start :: (address space x hex ++ more)) (.initial line) post := by
  obtain ⟨indent, c, digits, hindent, hc, hne, hdigits, rfl⟩ := h
  have hzero : ∀ d ∈ ('0' :: c :: (digits ++ ':' :: behind)).head?, space d = false := by
    intro d hd
    obtain rfl := Option.some.inj hd
    exact hspace
  have hcolon : ∀ d ∈ (':' :: behind).head?, hex d = false := by
    intro d hd
    obtain rfl := Option.some.inj hd
    exact hhex
  apply Regex.First.start
  apply Regex.First.greedy hindent hzero
  apply Regex.First.char (by decide)
  apply Regex.First.char hc
  apply Regex.First.plus hne hdigits hcolon
  exact Regex.First.literal (hmore _)

omit hspace hhex

/-- Whatever is matched starts with an address, and the rest of the pattern matches the rest
of the line. -/
theorem exists_hasAddress_of_matchStart {more : List Regex} {found : Regex.State}
    (h : (Regex.sequence (.start :: (address space x hex ++ more))).matchStart line = some found) :
    ∃ behind position, HasAddress space x hex line behind ∧
      found ∈ (Regex.sequence more).run ⟨position, behind, []⟩ := by
  have hrun := Regex.mem_run_start.mp (List.mem_of_mem_head? h)
  obtain ⟨s₁, hindent, hrun⟩ := Regex.mem_run_sequence_cons.mp hrun
  obtain ⟨indent, hspace, after₁, hline, rfl⟩ := Regex.mem_run_star_char_iff.mp hindent
  obtain ⟨s₂, hzero, hrun⟩ := Regex.mem_run_sequence_cons.mp hrun
  obtain ⟨zero, hzeroEq, after₂, hafter₁, rfl⟩ := Regex.mem_run_char.mp hzero
  obtain ⟨s₃, hx, hrun⟩ := Regex.mem_run_sequence_cons.mp hrun
  obtain ⟨c, hc, after₃, hafter₂, rfl⟩ := Regex.mem_run_char.mp hx
  obtain ⟨s₄, hhex, hrun⟩ := Regex.mem_run_sequence_cons.mp hrun
  obtain ⟨digits, hne, hdigits, after₄, hafter₃, rfl⟩ := Regex.mem_run_plus_char.mp hhex
  obtain ⟨s₅, hcolon, hrun⟩ := Regex.mem_run_sequence_cons.mp hrun
  obtain ⟨behind, hafter₄, rfl⟩ := Regex.mem_run_literal.mp hcolon
  refine ⟨behind, _, ⟨indent, c, digits, hspace, hc, hne, hdigits, ?_⟩, hrun⟩
  obtain rfl : zero = '0' := by simpa using hzeroEq
  obtain rfl : line = indent ++ after₁ := hline
  obtain rfl : after₁ = '0' :: after₂ := hafter₁
  obtain rfl : after₂ = c :: after₃ := hafter₂
  obtain rfl : after₃ = digits ++ after₄ := hafter₃
  obtain rfl : after₄ = ':' :: behind := hafter₄
  rfl

end Address

end Colata.Disassembly
