/-
# The Java source beside the graph

`renderJavaSource` puts one element for each line of the typed text into the page. The line
becomes HTML: three characters are replaced by references, one kind after the other. A
browser that reads the HTML finds the number of the line and then the line as it was typed,
and takes nothing of it for markup.
-/

import Colata.Viewer.Page

namespace Colata.Viewer

open Colata.JavaScript Colata.Math

/-- `s.replace(/c/g, replacement)`. -/
def replaceAll (s : List Char) (c : Char) (replacement : String) : List Char :=
  s.flatMap fun d => if d = c then replacement.toList else [d]

def escapeHtml (s : List Char) : List Char :=
  replaceAll (replaceAll (replaceAll s '&' "&amp;") '<' "&lt;") '>' "&gt;"

/-- The `div` of a line: its attribute `data-jln` and what is assigned to `innerHTML`. -/
structure JavaLine where
  jln : ℕ
  innerHTML : List Char
  deriving DecidableEq

def javaLine (line : List Char) (i : ℕ) : JavaLine where
  jln := i + 1
  innerHTML :=
    "<span class=\"ln\">".toList ++ Nat.toDigits 10 (i + 1) ++ "</span>".toList ++ escapeHtml line

def renderJavaSource (javaText : String) : List JavaLine :=
  let src := trim javaText.toList
  if src = [] then [] else (src.splitOn '\n').zipIdx.map fun (line, i) => javaLine line i

/-! ## Reading HTML -/

/-- What HTML is made of. -/
inductive Token
  | tag (text : List Char)
  | character (c : Char)
  deriving DecidableEq

/-- Where a reader of HTML is: in text, or in a tag, of which it has read `text` backwards. -/
inductive ReaderState
  | data
  | tag (text : List Char)
  | quoted (text : List Char)

/-- One token, and the rest if it can be read. -/
def emit (token : Token) (rest : Option (List Token)) : Option (List Token) :=
  rest.map (token :: ·)

/-- How HTML is read: `<` opens a tag, which ends at a `>` outside of quotes, and `&` opens a
reference. There is no reading where a tag does not end, where another reference may begin,
or for the characters that are replaced or dropped before. -/
def readHtml : ReaderState → List Char → Option (List Token)
  | .data, [] => some []
  | .data, '<' :: rest => readHtml (.tag []) rest
  | .data, '&' :: 'a' :: 'm' :: 'p' :: ';' :: rest => emit (.character '&') (readHtml .data rest)
  | .data, '&' :: 'l' :: 't' :: ';' :: rest => emit (.character '<') (readHtml .data rest)
  | .data, '&' :: 'g' :: 't' :: ';' :: rest => emit (.character '>') (readHtml .data rest)
  | .data, c :: rest =>
      if c = '&' ∨ c = '\r' ∨ c = '\x00' then none
      else emit (.character c) (readHtml .data rest)
  | .tag text, '>' :: rest => emit (.tag text.reverse) (readHtml .data rest)
  | .tag text, '"' :: rest => readHtml (.quoted ('"' :: text)) rest
  | .tag text, c :: rest => readHtml (.tag (c :: text)) rest
  | .quoted text, '"' :: rest => readHtml (.tag ('"' :: text)) rest
  | .quoted text, c :: rest => readHtml (.quoted (c :: text)) rest
  | .tag _, [] => none
  | .quoted _, [] => none

/-- A character that a browser takes as it is. -/
def IsKept (c : Char) : Prop := c ≠ '\r' ∧ c ≠ '\x00'

/-! ## Escaped text -/

/-- What a character becomes. -/
def escapeChar (c : Char) : List Char :=
  if c = '&' then "&amp;".toList
  else if c = '<' then "&lt;".toList
  else if c = '>' then "&gt;".toList
  else [c]

theorem replaceAll_append (s t : List Char) (c : Char) (replacement : String) :
    replaceAll (s ++ t) c replacement = replaceAll s c replacement ++ replaceAll t c replacement :=
  List.flatMap_append

/-- The ampersand comes first, so that the references are not escaped again. -/
theorem escapeHtml_eq (s : List Char) : escapeHtml s = s.flatMap escapeChar := by
  have hchar (c : Char) : escapeHtml [c] = escapeChar c := by
    rw [escapeChar]
    split_ifs with hamp hlt hgt
    · subst hamp
      decide
    · subst hlt
      decide
    · subst hgt
      decide
    · simp [escapeHtml, replaceAll, hamp, hlt, hgt]
  induction s with
  | nil => rfl
  | cons c s ih =>
      have hsplit : escapeHtml ([c] ++ s) = escapeHtml [c] ++ escapeHtml s := by
        simp only [escapeHtml, replaceAll_append]
      rw [List.flatMap_cons, ← ih, ← hchar]
      exact hsplit

theorem readHtml_character {c : Char} (hkept : IsKept c) (hamp : c ≠ '&') (hlt : c ≠ '<')
    (rest : List Char) :
    readHtml .data (c :: rest) = emit (.character c) (readHtml .data rest) := by
  rw [readHtml]
  · exact if_neg fun h => h.elim hamp fun h => h.elim hkept.1 hkept.2
  all_goals simp_all

/-- An escaped character is read as what it was. -/
theorem readHtml_escapeChar {c : Char} (hkept : IsKept c) (rest : List Char) :
    readHtml .data (escapeChar c ++ rest) = emit (.character c) (readHtml .data rest) := by
  rw [escapeChar]
  split_ifs with hamp hlt hgt
  · rw [hamp]
    rfl
  · rw [hlt]
    rfl
  · rw [hgt]
    rfl
  · exact readHtml_character hkept hamp hlt rest

/-- The text that some tokens were read from, as far as it is text. -/
def characters (text : List Char) : List Token := text.map .character

theorem readHtml_escapeHtml {line : List Char} (hkept : ∀ c ∈ line, IsKept c) :
    readHtml .data (escapeHtml line) = some (characters line) := by
  rw [escapeHtml_eq]
  induction line with
  | nil => rfl
  | cons c line ih =>
      rw [List.forall_mem_cons] at hkept
      rw [List.flatMap_cons, readHtml_escapeChar hkept.1, ih hkept.2]
      rfl

theorem readHtml_digits {digits : List Char} (hdigits : ∀ c ∈ digits, c.isDigit)
    (rest : List Char) :
    readHtml .data (digits ++ rest) =
      (readHtml .data rest).map (characters digits ++ ·) := by
  induction digits with
  | nil => simp [characters]
  | cons c digits ih =>
      rw [List.forall_mem_cons] at hdigits
      have hne : ∀ d : Char, d.isDigit = false → c ≠ d := by
        rintro d hd rfl
        exact absurd hdigits.1 (by simp [hd])
      have hkept : IsKept c := ⟨hne _ (by decide), hne _ (by decide)⟩
      rw [List.cons_append, readHtml_character hkept (hne _ (by decide)) (hne _ (by decide)),
        ih hdigits.2, emit, Option.map_map]
      rfl

/-- The tokens of a line: its number in a `span`, and its text. -/
def lineTokens (line : List Char) (number : ℕ) : List Token :=
  .tag "span class=\"ln\"".toList :: (characters (Nat.toDigits 10 number) ++
    .tag "/span".toList :: characters line)

theorem readHtml_javaLine {line : List Char} (hkept : ∀ c ∈ line, IsKept c) (i : ℕ) :
    readHtml .data (javaLine line i).innerHTML = some (lineTokens line (i + 1)) := by
  have hdigits : ∀ c ∈ Nat.toDigits 10 (i + 1), c.isDigit := fun c hc =>
    Nat.isDigit_of_mem_toDigits (by decide) (by decide) hc
  have hopening (rest : List Char) : readHtml .data ("<span class=\"ln\">".toList ++ rest) =
      emit (.tag "span class=\"ln\"".toList) (readHtml .data rest) := rfl
  have hclosing (rest : List Char) : readHtml .data ("</span>".toList ++ rest) =
      emit (.tag "/span".toList) (readHtml .data rest) := rfl
  rw [javaLine]
  dsimp only
  rw [List.append_assoc, List.append_assoc, hopening, readHtml_digits hdigits, hclosing,
    readHtml_escapeHtml hkept]
  rfl

/-! ## The whole text -/

/-- The lines that are shown: none of a blank text. -/
def sourceLines (javaText : String) : List (List Char) :=
  let src := trim javaText.toList
  if src = [] then [] else src.splitOn '\n'

theorem renderJavaSource_eq (javaText : String) :
    renderJavaSource javaText =
      (sourceLines javaText).zipIdx.map fun (line, i) => javaLine line i := by
  rw [renderJavaSource, sourceLines]
  split_ifs <;> rfl

theorem intercalate_sourceLines (javaText : String) :
    ['\n'].intercalate (sourceLines javaText) = trim javaText.toList := by
  rw [sourceLines]
  split_ifs with hblank
  · rw [hblank]
    rfl
  · exact List.intercalate_splitOn '\n'

theorem mem_of_mem_sourceLines {javaText : String} {line : List Char}
    (hline : line ∈ sourceLines javaText) {c : Char} (hc : c ∈ line) : c ∈ javaText.toList := by
  rw [sourceLines] at hline
  split_ifs at hline with hblank
  · cases hline
  · have htrimmed := mem_of_mem_splitOn hline hc
    rw [trim] at htrimmed
    exact (List.dropWhile_sublist _).subset ((List.rdropWhile_prefix _ _).subset htrimmed)

theorem map_jln (javaText : String) :
    (renderJavaSource javaText).map JavaLine.jln =
      (List.range (sourceLines javaText).length).map (· + 1) := by
  have hcount : (sourceLines javaText).zipIdx.map Prod.snd =
      List.range (sourceLines javaText).length := by
    rw [List.zipIdx_map_snd, List.range_eq_range']
  rw [renderJavaSource_eq, ← hcount, List.map_map, List.map_map]
  rfl

/-- The page counts the lines that are drawn. -/
theorem countJavaLines_eq (javaText : String) :
    countJavaLines javaText = (sourceLines javaText).length := by
  rw [countJavaLines, sourceLines]
  split_ifs <;> rfl

theorem any_jln (javaText : String) (p : ℕ → Bool) :
    (List.range (countJavaLines javaText)).any (fun i => p (i + 1)) =
      (renderJavaSource javaText).any fun line => p line.jln := by
  have hdrawn : (renderJavaSource javaText).any (fun line => p line.jln) =
      ((renderJavaSource javaText).map JavaLine.jln).any p := List.any_map.symm
  rw [hdrawn, map_jln, List.any_map, countJavaLines_eq]
  rfl

/-- Whatever is typed as Java source, each line of the text without the white space around it
is shown with its number, character by character, and nothing of it is taken for markup. The
page marks the lines that are shown. -/
theorem renderJavaSource_reads (javaText : String) (hkept : ∀ c ∈ javaText.toList, IsKept c) :
    ∃ lines : List (List Char),
      ['\n'].intercalate lines = trim javaText.toList ∧ (∀ line ∈ lines, '\n' ∉ line) ∧
      (renderJavaSource javaText).map JavaLine.jln = List.range' 1 lines.length ∧
      (renderJavaSource javaText).map (fun line => readHtml .data line.innerHTML) =
        lines.zipIdx.map (fun (line, i) => some (lineTokens line (i + 1))) ∧
      ∀ (browser : Browser) (page : Page), page.javaText = javaText → ∀ number,
        (page.render browser).hasJavaLine number =
          (renderJavaSource javaText).any fun line => Binary64.ofNat line.jln = number := by
  refine ⟨sourceLines javaText, intercalate_sourceLines javaText, ?_, ?_, ?_, ?_⟩
  · intro line hline
    rw [sourceLines] at hline
    split_ifs at hline with hblank
    · cases hline
    · exact notMem_of_mem_splitOn hline
  · rw [map_jln, List.range'_eq_map_range]
    exact List.map_congr_left fun i _ => Nat.add_comm i 1
  · rw [renderJavaSource_eq, List.map_map]
    apply List.map_congr_left
    rintro ⟨line, i⟩ hmem
    have hline : line ∈ sourceLines javaText := (List.mem_zipIdx' hmem).2 ▸ List.getElem_mem _
    exact readHtml_javaLine (fun c hc => hkept c (mem_of_mem_sourceLines hline hc)) i
  · rintro browser page rfl number
    exact any_jln page.javaText fun jln => Binary64.ofNat jln = number

/-- A text with all three characters that are replaced. -/
theorem renderJavaSource_reads_markup :
    let javaText := "if (a < b && b > 0)\n  m(\"&lt;\");\n"
    ∃ lines : List (List Char), ['\n'].intercalate lines = trim javaText.toList ∧
      (renderJavaSource javaText).map (fun line => readHtml .data line.innerHTML) =
        lines.zipIdx.map fun (line, i) => some (lineTokens line (i + 1)) := by
  intro javaText
  have hkept : ∀ c ∈ javaText.toList, IsKept c := by simp [javaText, IsKept]
  obtain ⟨lines, hjoined, -, -, hread, -⟩ := renderJavaSource_reads javaText hkept
  exact ⟨lines, hjoined, hread⟩

end Colata.Viewer
