/-
# JavaScript strings, as far as the IR tools read them

Character classes of regular expressions, trimming, splitting and the reading of
decimal numerals. Texts are lists of characters; a `String` is opened with
`toList` where a function looks inside it.
-/

import Colata.Math.Binary64
import Colata.Math.Pieces
import Colata.Math.Regex
import Mathlib.Data.List.DropRight

namespace Colata.JavaScript

open Colata.Math

/-- A line terminator, which `.` does not match. -/
def isLineTerminator (c : Char) : Bool :=
  c = '\n' || c = '\r' || c = '\u2028' || c = '\u2029'

/-- The class `\s`: white space and line terminators. -/
def isSpace (c : Char) : Bool :=
  c = '\t' || c = '\u000b' || c = '\u000c' || c = ' ' || c = '\u00a0' || c = '\ufeff' ||
  c = '\u1680' || (0x2000 ≤ c.toNat && c.toNat ≤ 0x200a) || c = '\u202f' || c = '\u205f' ||
  c = '\u3000' || isLineTerminator c

/-- The class `\d`. -/
def isDigit (c : Char) : Bool := '0' ≤ c && c ≤ '9'

/-- The class `\w`. -/
def isWord (c : Char) : Bool :=
  isDigit c || ('a' ≤ c && c ≤ 'z') || ('A' ≤ c && c ≤ 'Z') || c = '_'

/-- The class `.`. -/
def isAny (c : Char) : Bool := !isLineTerminator c

/-- `text.startsWith(start)`. -/
def startsWith (text start : String) : Bool := start.toList.isPrefixOf text.toList

/-- `text.trim()`. -/
def trim (text : List Char) : List Char := (text.dropWhile isSpace).rdropWhile isSpace

/-- `text.split(/\s+/)`: the pieces between maximal runs of white space. A run at
either end leaves an empty piece there. -/
def splitSpaces : List Char → List (List Char)
  | [] => [[]]
  | c :: text =>
      if isSpace c then
        match text with
        | next :: _ => if isSpace next then splitSpaces text else [] :: splitSpaces text
        | [] => [] :: splitSpaces text
      else (splitSpaces text).modifyHead (c :: ·)

/-- The value of a digit string. -/
def digitsValue (digits : List Char) : ℕ :=
  digits.foldl (fun value c => 10 * value + (c.toNat - '0'.toNat)) 0

/-- An unsigned decimal numeral: digits, optionally a point and more digits. -/
private def unsignedToNumber (negative : Bool) (text : List Char) : Binary64 :=
  let whole := text.takeWhile isDigit
  match text.dropWhile isDigit with
  | [] => if whole.isEmpty then .nan else .ofDecimal negative (digitsValue whole) 0
  | '.' :: fraction =>
      if fraction.all isDigit && !(whole.isEmpty && fraction.isEmpty) then
        .ofDecimal negative (digitsValue (whole ++ fraction)) (-(fraction.length : ℤ))
      else .nan
  | _ => .nan

/-- `+text` on the texts the patterns let through, which are made of digits, points
and a leading minus; a text that is no numeral gives NaN. -/
def toNumber : List Char → Binary64
  | '-' :: text => unsignedToNumber true text
  | text => unsignedToNumber false text

/-! ## Patterns of one class -/

/-- `\s*`. -/
def spaces : Regex := .star true (.char isSpace)

/-- `/^\d+$/.test(text)`. -/
def isNumeral (text : List Char) : Bool :=
  (Regex.matchStart (.sequence [.start, .plus (.char isDigit), .stop]) text).isSome

theorem isNumeral_iff (text : List Char) :
    isNumeral text = true ↔ text ≠ [] ∧ ∀ c ∈ text, isDigit c :=
  Regex.matchStart_plus_char_stop text

/-! ## Character classes -/

theorem toNat_of_isSpace {c : Char} (h : isSpace c = true) : c.toNat ≤ 32 ∨ 160 ≤ c.toNat := by
  simp only [isSpace, isLineTerminator, Bool.or_eq_true, Bool.and_eq_true, decide_eq_true_eq] at h
  casesm* _ ∨ _
  all_goals first
    | (subst c; decide)
    | omega

theorem toNat_of_isWord {c : Char} (h : isWord c = true) : 48 ≤ c.toNat ∧ c.toNat ≤ 122 := by
  simp only [isWord, isDigit, Bool.or_eq_true, Bool.and_eq_true, decide_eq_true_eq] at h
  rcases h with ((⟨hlow, hhigh⟩ | ⟨hlow, hhigh⟩) | ⟨hlow, hhigh⟩) | rfl
  · exact ⟨hlow, le_trans (b := 57) hhigh (by decide)⟩
  · exact ⟨le_trans (b := 97) (by decide) hlow, hhigh⟩
  · exact ⟨le_trans (b := 65) (by decide) hlow, le_trans (b := 90) hhigh (by decide)⟩
  · decide

theorem isSpace_eq_false_of_isWord {c : Char} (h : isWord c = true) : isSpace c = false := by
  by_contra hspace
  have hword := toNat_of_isWord h
  have hbound := toNat_of_isSpace (Bool.eq_true_of_not_eq_false hspace)
  omega

theorem isWord_of_isDigit {c : Char} (h : isDigit c = true) : isWord c = true := by
  simp [isWord, h]

/-! ## Trimming and splitting -/

theorem splitSpaces_cons_of_not_space {c : Char} (hc : isSpace c = false) (text : List Char) :
    splitSpaces (c :: text) = (splitSpaces text).modifyHead (c :: ·) := by
  cases text with
  | nil => simp [splitSpaces, hc]
  | cons next text => simp [splitSpaces, hc]

/-- Splitting keeps the pieces between white space, up to empty ones. -/
theorem filter_splitSpaces (text : List Char) :
    (splitSpaces text).filter (fun piece => !piece.isEmpty) = pieces isSpace text := by
  suffices hruns : ∃ first rest others, splitSpaces text = first :: rest ∧
      text.splitOnP isSpace = first :: others ∧
      rest.filter (fun piece => !piece.isEmpty) = others.filter fun piece => !piece.isEmpty by
    obtain ⟨first, rest, others, hsplit, hcut, hsame⟩ := hruns
    rw [pieces, hsplit, hcut, List.filter_cons, List.filter_cons, hsame]
  induction text with
  | nil => exact ⟨[], [], [], rfl, rfl, rfl⟩
  | cons c text ih =>
      obtain ⟨first, rest, others, hsplit, hcut, hsame⟩ := ih
      rw [List.splitOnP_cons_eq_if_modifyHead, hcut]
      by_cases hc : isSpace c = true
      · have hfilter : (first :: rest).filter (fun piece => !piece.isEmpty) =
            (first :: others).filter fun piece => !piece.isEmpty := by
          rw [List.filter_cons, List.filter_cons, hsame]
        cases text with
        | nil =>
            refine ⟨[], first :: rest, first :: others, ?_, by rw [if_pos hc], hfilter⟩
            rw [splitSpaces, if_pos hc, hsplit]
        | cons next text =>
            by_cases hnext : isSpace next = true
            · -- A run of white space is cut once.
              rw [List.splitOnP_cons_eq_if_modifyHead, if_pos hnext] at hcut
              obtain rfl : [] = first := (List.cons.inj hcut).1
              refine ⟨[], rest, [] :: others, ?_, by rw [if_pos hc], ?_⟩
              · rw [splitSpaces, if_pos hc, ← hsplit]
                simp [hnext]
              · rw [hsame]
                rfl
            · refine ⟨[], first :: rest, first :: others, ?_, by rw [if_pos hc], hfilter⟩
              rw [splitSpaces, if_pos hc, ← hsplit]
              simp [hnext]
      · refine ⟨c :: first, rest, others, ?_, by rw [if_neg hc, List.modifyHead_cons], hsame⟩
        rw [splitSpaces_cons_of_not_space (Bool.eq_false_of_not_eq_true hc), hsplit,
          List.modifyHead_cons]

theorem pieces_trim (text : List Char) : pieces isSpace (trim text) = pieces isSpace text := by
  rw [trim, pieces_rdropWhile, pieces_dropWhile]

/-- The numerals among the pieces of a text. -/
def numerals (isSeparator : Char → Bool) (text : List Char) : List (List Char) :=
  (pieces isSeparator text).filter isNumeral

theorem filter_isNumeral_splitSpaces (text : List Char) :
    (splitSpaces text).filter isNumeral = numerals isSpace text := by
  rw [numerals, ← filter_splitSpaces, List.filter_filter]
  apply List.filter_congr
  intro piece _
  cases hnumeral : isNumeral piece with
  | false => rfl
  | true =>
      have hne := ((isNumeral_iff piece).mp hnumeral).1
      simp [hne]

/-- A text is its trimmed core between white space. -/
theorem exists_margins (text : List Char) :
    ∃ before after, text = before ++ trim text ++ after ∧ (∀ c ∈ before, isSpace c = true) ∧
      (∀ c ∈ after, isSpace c = true) ∧
      (∀ c ∈ (trim text ++ after).head?, isSpace c = false) ∧
      ∀ c ∈ (trim text).getLast?, isSpace c = false := by
  refine ⟨text.takeWhile isSpace, (text.dropWhile isSpace).rtakeWhile isSpace, ?_,
    fun c hc => List.mem_takeWhile_imp hc, fun c hc => List.mem_rtakeWhile_imp hc, ?_, ?_⟩
  · rw [trim, List.append_assoc, List.rdropWhile_append_rtakeWhile,
      List.takeWhile_append_dropWhile]
  · intro c hc
    rw [trim, List.rdropWhile_append_rtakeWhile] at hc
    have hstop := List.head?_dropWhile_not isSpace text
    rw [Option.mem_def] at hc
    simpa [hc] using hstop
  · intro c hc
    rw [Option.mem_def] at hc
    have hne : (text.dropWhile isSpace).rdropWhile isSpace ≠ [] := by
      intro hnil
      rw [trim, hnil] at hc
      cases hc
    have hlast := List.rdropWhile_last_not isSpace (text.dropWhile isSpace) hne
    rw [trim, List.getLast?_eq_some_getLast hne, Option.some.injEq] at hc
    rw [hc] at hlast
    exact Bool.eq_false_of_not_eq_true hlast

/-- White space around a text that neither starts nor ends with it is trimmed off. -/
theorem trim_margins {before core after : List Char} (hbefore : ∀ c ∈ before, isSpace c = true)
    (hafter : ∀ c ∈ after, isSpace c = true) (hhead : ∀ c ∈ core.head?, isSpace c = false)
    (hlast : ∀ c ∈ core.getLast?, isSpace c = false) (hne : core ≠ []) :
    trim (before ++ core ++ after) = core := by
  have hstart : (core ++ after).dropWhile isSpace = core ++ after := by
    cases core with
    | nil => exact absurd rfl hne
    | cons c core => simp [hhead c rfl]
  have hend : core.reverse.dropWhile isSpace = core.reverse := by
    cases hreverse : core.reverse with
    | nil => rfl
    | cons c rest =>
        have hc : core.getLast? = some c := by rw [List.getLast?_eq_head?_reverse, hreverse]; rfl
        simp [hlast c hc]
  rw [trim, List.append_assoc, List.dropWhile_append_of_pos hbefore, hstart, List.rdropWhile,
    List.reverse_append, List.dropWhile_append_of_pos, hend, List.reverse_reverse]
  exact fun c hc => hafter c (List.mem_reverse.mp hc)

end Colata.JavaScript
