/-
# Reading back a dump

A well-formed node line prints an id, a type, the operands between `===` and `[[`,
the outputs between `[[` and `]]`, and a rest. `parseIR` reads it back, except that
it keeps only the operands that stand on their own: an id glued to anything else, as
to the parenthesis of an argument group or to the bar before a dependency, is dropped.
-/

import Colata.IR.Edges
import Colata.IR.Parser
import Mathlib.Data.Bool.AllAny

namespace Colata.IR

open Colata.Math Colata.JavaScript

/-! ## Well-formed lines -/

/-- White space within a line. -/
def isBlank (c : Char) : Bool := isSpace c && c != '\n'

/-- One node as C2 prints it, piece by piece. -/
structure NodeLine where
  indent : List Char
  number : List Char
  gap : List Char
  type : List Char
  space : List Char
  operands : List Char
  outputs : List Char
  rest : List Char
  ending : List Char
  indent_blank : ∀ c ∈ indent, isBlank c = true
  number_numeral : isNumeral number = true
  gap_blank : gap ≠ [] ∧ ∀ c ∈ gap, isBlank c = true
  type_word : type ≠ [] ∧ ∀ c ∈ type, isWord c = true
  space_blank : space ≠ [] ∧ ∀ c ∈ space, isBlank c = true
  operands_blank : ∃ c ∈ operands.head?, isSpace c = true
  operands_clean : ∀ c ∈ operands, isAny c = true ∧ c ≠ '['
  outputs_clean : ∀ c ∈ outputs, isAny c = true ∧ c ≠ ']'
  rest_clean : ∀ c ∈ rest, isAny c = true
  ending_blank : ∀ c ∈ ending, isBlank c = true

namespace NodeLine

/-- The line from its number on, with this text after the `]]`. -/
def core (line : NodeLine) (rest : List Char) : List Char :=
  line.number ++ (line.gap ++ (line.type ++ (line.space ++ ("===".toList ++ (line.operands ++
    ("[[".toList ++ (line.outputs ++ ("]]".toList ++ rest))))))))

/-- The printed line. -/
def text (line : NodeLine) : List Char := line.indent ++ line.core line.rest ++ line.ending

def id (line : NodeLine) : NodeId := toNumber line.number

/-- The decimal ids printed as operands, whatever characters stand next to them. -/
def operandIds (line : NodeLine) : List NodeId :=
  (numerals (fun c => !isDigit c) line.operands).map toNumber

/-- The ids printed as operands between white space. -/
def separateIds (line : NodeLine) : List NodeId :=
  (numerals isSpace line.operands).map toNumber

def outputIds (line : NodeLine) : List NodeId :=
  (numerals isSpace line.outputs).map toNumber

end NodeLine

/-- The dump of these lines. -/
def dumpText (lines : List NodeLine) : String :=
  String.ofList (['\n'].intercalate (lines.map NodeLine.text))

/-! ## One line -/

theorem isSpace_of_isBlank {c : Char} (h : isBlank c = true) : isSpace c = true :=
  (Bool.and_eq_true_iff.mp h).1

theorem isWord_eq_false_of_isSpace {c : Char} (h : isSpace c = true) : isWord c = false := by
  by_contra hword
  rw [isSpace_eq_false_of_isWord (Bool.eq_true_of_not_eq_false hword)] at h
  cases h

theorem isDigit_eq_false_of_isSpace {c : Char} (h : isSpace c = true) : isDigit c = false := by
  by_contra hdigit
  have hword := isWord_of_isDigit (Bool.eq_true_of_not_eq_false hdigit)
  rw [isWord_eq_false_of_isSpace h] at hword
  cases hword

/-- White space is no digit, so an id between white space is an operand. -/
theorem NodeLine.separateIds_subset (line : NodeLine) : line.separateIds ⊆ line.operandIds := by
  apply List.map_subset
  intro piece hpiece
  obtain ⟨hmem, hnumeral⟩ := List.mem_filter.mp hpiece
  apply List.mem_filter.mpr
  refine ⟨mem_pieces_of_imp (fun c hc => ?_) hmem (fun c hc => ?_), hnumeral⟩
  · rw [isDigit_eq_false_of_isSpace hc, Bool.not_false]
  · rw [((isNumeral_iff piece).mp hnumeral).2 c hc, Bool.not_true]

/-- The scan over the tokens keeps the numerals. -/
theorem reduceOption_scanInputs (tokens : List (List Char)) :
    (scanInputs tokens).inputs.reduceOption = (tokens.filter isNumeral).map toNumber := by
  have hstep : ∀ (scan : InputScan) (token : List Char),
      (scan.step token).inputs.reduceOption =
        scan.inputs.reduceOption ++ ([token].filter isNumeral).map toNumber := by
    intro scan token
    unfold InputScan.step
    split_ifs with hreturns hplaceholder hnumeral
    · have hno : isNumeral token = false := hreturns ▸ by decide
      simp [hno]
    · have hno : isNumeral token = false := hplaceholder ▸ by decide
      simp [hno, List.reduceOption_append]
    all_goals simp [hnumeral, List.reduceOption_append]
  suffices hscan : ∀ scan : InputScan, (tokens.foldl InputScan.step scan).inputs.reduceOption =
      scan.inputs.reduceOption ++ (tokens.filter isNumeral).map toNumber from hscan .initial
  induction tokens with
  | nil => simp
  | cons token tokens ih =>
      intro scan
      rw [List.foldl_cons, ih, hstep, List.append_assoc, ← List.map_append, ← List.filter_append]
      rfl

theorem numerals_trim (text : List Char) :
    numerals isSpace (trim text) = numerals isSpace text := by
  rw [numerals, pieces_trim, numerals]

section Head

variable {p : Char → Bool} {first rest : List Char}

/-- A text starts outside a class if its first part is outside. -/
private theorem head?_append_of_ne_nil (hne : first ≠ []) (hfirst : ∀ c ∈ first, p c = false) :
    ∀ c ∈ (first ++ rest).head?, p c = false := by
  cases first with
  | nil => exact absurd rfl hne
  | cons c first =>
      intro d hd
      obtain rfl : c = d := Option.some.inj hd
      exact hfirst c List.mem_cons_self

private theorem head?_append (hfirst : ∀ c ∈ first.head?, p c = false)
    (hrest : ∀ c ∈ rest.head?, p c = false) : ∀ c ∈ (first ++ rest).head?, p c = false := by
  cases first with
  | nil => exact hrest
  | cons c first => exact hfirst

end Head

/-- The line pattern finds the fields of a well-formed line. -/
theorem NodeLine.exists_matchStart (line : NodeLine) {rest : List Char}
    (hrest : ∀ c ∈ rest, isAny c = true) :
    ∃ found, Regex.matchStart linePattern (line.core rest) = some found ∧
      found.captured 1 = some line.number ∧ found.captured 2 = some line.type ∧
      found.captured 3 = some (trim line.operands) ∧
      found.captured 4 = some (trim line.outputs) := by
  obtain ⟨hnumber, hdigits⟩ := (isNumeral_iff line.number).mp line.number_numeral
  obtain ⟨hgap, hgapBlank⟩ := line.gap_blank
  obtain ⟨htype, hword⟩ := line.type_word
  obtain ⟨hspace, hspaceBlank⟩ := line.space_blank
  have hgapSpace : ∀ c ∈ line.gap, isSpace c = true :=
    fun c hc => isSpace_of_isBlank (hgapBlank c hc)
  have hspaceSpace : ∀ c ∈ line.space, isSpace c = true :=
    fun c hc => isSpace_of_isBlank (hspaceBlank c hc)
  obtain ⟨lead, margin, hoperands, hlead, hmargin, hstart, hlast⟩ := exists_margins line.operands
  obtain ⟨lead', margin', houtputs, hlead', hmargin', hstart', hlast'⟩ :=
    exists_margins line.outputs
  generalize trim line.operands = operands at *
  generalize trim line.outputs = outputs at *
  have hclean : ∀ c ∈ operands, isAny c = true ∧ c ≠ '[' := fun c hc =>
    line.operands_clean c (hoperands ▸ List.mem_append_left _ (List.mem_append_right _ hc))
  have hclean' : ∀ c ∈ outputs, isAny c = true ∧ c ≠ ']' := fun c hc =>
    line.outputs_clean c (houtputs ▸ List.mem_append_left _ (List.mem_append_right _ hc))
  have hleadne : lead ≠ [] := by
    intro hnil
    obtain ⟨c, hc, hblank⟩ := line.operands_blank
    rw [hoperands, hnil, List.nil_append] at hc
    rw [hstart c hc] at hblank
    cases hblank
  have hrestHead : ∀ c ∈ (rest.dropWhile isSpace).head?, isSpace c = false := by
    intro c hc
    have hstop := List.head?_dropWhile_not isSpace rest
    rw [Option.mem_def] at hc
    simpa [hc] using hstop
  rw [← List.takeWhile_append_dropWhile (p := isSpace) (l := rest)]
  show Regex.First _ (.initial (line.core _)) _
  rw [NodeLine.core, hoperands, houtputs, List.append_assoc, List.append_assoc, List.append_assoc,
    List.append_assoc]
  apply Regex.First.start
  apply Regex.First.groupPlus hnumber hdigits
    (head?_append_of_ne_nil hgap fun c hc => isDigit_eq_false_of_isSpace (hgapSpace c hc))
  apply Regex.First.plus hgap hgapSpace
    (head?_append_of_ne_nil htype fun c hc => isSpace_eq_false_of_isWord (hword c hc))
  apply Regex.First.groupPlus htype hword
    (head?_append_of_ne_nil hspace fun c hc => isWord_eq_false_of_isSpace (hspaceSpace c hc))
  apply Regex.First.plus hspace hspaceSpace (head?_append_of_ne_nil (by decide)
    (List.all_iff_forall_prop.mp (by decide)))
  apply Regex.First.literal
  apply Regex.First.plus hleadne hlead
  · rw [← List.append_assoc operands margin]
    exact head?_append hstart (head?_append_of_ne_nil (by decide)
      (List.all_iff_forall_prop.mp (by decide)))
  apply Regex.First.delimited (by decide) (by decide) (fun c hc => (hclean c hc).1)
    (fun c hc => (hclean c hc).2) hlast hmargin
  apply Regex.First.greedy hlead'
  · rw [← List.append_assoc outputs margin']
    exact head?_append hstart' (head?_append_of_ne_nil (by decide)
      (List.all_iff_forall_prop.mp (by decide)))
  apply Regex.First.delimited (by decide) (by decide) (fun c hc => (hclean' c hc).1)
    (fun c hc => (hclean' c hc).2) hlast' hmargin'
  apply Regex.First.greedy (fun c hc => List.mem_takeWhile_imp hc) hrestHead
  apply Regex.First.optGroupStop
  · exact fun c hc => hrest c (List.dropWhile_subset isSpace hc)
  · intro found hfound
    exact ⟨hfound 1 (by decide), hfound 2 (by decide), hfound 3 (by decide), hfound 4 (by decide)⟩

theorem NodeLine.core_append (line : NodeLine) (rest more : List Char) :
    line.core (rest ++ more) = line.core rest ++ more := by
  simp [core]

/-- Trimming a well-formed line removes its indent and the blanks at its end. -/
theorem NodeLine.trim_text (line : NodeLine) :
    trim line.text = line.core (line.rest.rdropWhile isSpace) := by
  have hsplit := List.rdropWhile_append_rtakeWhile (p := isSpace) (l := line.rest)
  have htext : line.text = line.indent ++ line.core (line.rest.rdropWhile isSpace) ++
      (line.rest.rtakeWhile isSpace ++ line.ending) := by
    have hcore := line.core_append (line.rest.rdropWhile isSpace) (line.rest.rtakeWhile isSpace)
    rw [hsplit] at hcore
    rw [text, hcore]
    simp only [List.append_assoc]
  obtain ⟨hnumber, hdigits⟩ := (isNumeral_iff line.number).mp line.number_numeral
  rw [htext]
  apply trim_margins
  · exact fun c hc => isSpace_of_isBlank (line.indent_blank c hc)
  · intro c hc
    cases List.mem_append.mp hc with
    | inl hc => exact List.mem_rtakeWhile_imp hc
    | inr hc => exact isSpace_of_isBlank (line.ending_blank c hc)
  · exact head?_append_of_ne_nil hnumber fun c hc =>
      isSpace_eq_false_of_isWord (isWord_of_isDigit (hdigits c hc))
  · intro c hc
    by_cases hempty : line.rest.rdropWhile isSpace = []
    · have hclose : (line.core []).getLast? = some ']' := by
        simp [core, List.getLast?_append, List.getLast?_cons]
      rw [hempty, hclose] at hc
      obtain rfl : ']' = c := Option.some.inj hc
      decide
    · have hlast := List.rdropWhile_last_not isSpace line.rest hempty
      rw [← List.nil_append (line.rest.rdropWhile isSpace), core_append,
        List.getLast?_append_of_ne_nil _ hempty, List.getLast?_eq_some_getLast hempty] at hc
      obtain rfl := Option.some.inj hc
      exact Bool.eq_false_of_not_eq_true hlast
  · rw [core]
    exact List.append_ne_nil_of_left_ne_nil hnumber _

/-- What is read from a well-formed line. -/
structure NodeLine.ReadAs (line : NodeLine) (node : Node) : Prop where
  id : node.id = line.id
  type : node.type = String.ofList line.type
  inputIds : node.inputIds = line.separateIds
  outputs : node.outputs = line.outputIds

/-- A well-formed line is read. -/
theorem NodeLine.exists_readAs (line : NodeLine) :
    ∃ node, parseLine (trim line.text) = some node ∧ line.ReadAs node := by
  have hrest : ∀ c ∈ line.rest.rdropWhile isSpace, isAny c = true :=
    fun c hc => line.rest_clean c ((List.rdropWhile_prefix isSpace line.rest).subset hc)
  obtain ⟨found, hfound, hnumber, htype, hoperands, houtputs⟩ := line.exists_matchStart hrest
  refine ⟨nodeOfMatch (trim line.text) found, ?_, ?_, ?_, ?_, ?_⟩
  · rw [parseLine, line.trim_text, hfound]
    rfl
  · rw [nodeOfMatch, hnumber]
    rfl
  · rw [nodeOfMatch, htype]
    rfl
  · show (scanInputs (splitSpaces (trim ((found.captured 3).getD [])))).inputs.reduceOption = _
    rw [reduceOption_scanInputs, filter_isNumeral_splitSpaces, numerals_trim, hoperands,
      Option.getD_some, numerals_trim]
    rfl
  · show parseOutputs ((found.captured 4).getD []) = _
    rw [parseOutputs, filter_isNumeral_splitSpaces, numerals_trim, houtputs, Option.getD_some,
      numerals_trim]
    rfl

/-! ## The whole dump -/

theorem NodeLine.newline_notMem_text (line : NodeLine) : '\n' ∉ line.text := by
  have hblank : ∀ {list : List Char}, (∀ c ∈ list, isBlank c = true) → '\n' ∉ list :=
    fun h hmem => absurd (h '\n' hmem) (by decide)
  have hdigits := ((isNumeral_iff line.number).mp line.number_numeral).2
  simp only [text, core, List.mem_append, not_or]
  refine ⟨⟨hblank line.indent_blank, ?_, hblank line.gap_blank.2, ?_, hblank line.space_blank.2,
    by decide, ?_, by decide, ?_, by decide, ?_⟩, hblank line.ending_blank⟩
  · exact fun h => absurd (hdigits '\n' h) (by decide)
  · exact fun h => absurd (line.type_word.2 '\n' h) (by decide)
  · exact fun h => absurd (line.operands_clean '\n' h).1 (by decide)
  · exact fun h => absurd (line.outputs_clean '\n' h).1 (by decide)
  · exact fun h => absurd (line.rest_clean '\n' h) (by decide)

theorem parseIR_dumpText (lines : List NodeLine) :
    parseIR (dumpText lines) = (lines.map NodeLine.text).foldl addLine .empty := by
  rw [parseIR, dumpText, String.toList_ofList]
  cases lines with
  | nil =>
      have hempty : parseLine (trim []) = none := by decide
      show addLine .empty [] = .empty
      rw [addLine, hempty]
  | cons line lines =>
      rw [List.splitOn_intercalate '\n' _ (by simp)]
      intro text htext
      obtain ⟨other, _, rfl⟩ := List.mem_map.mp htext
      exact other.newline_notMem_text

/-- Lines with new and distinct ids add their nodes. -/
theorem mem_foldl_addLine {lines : List NodeLine} (hnodup : (lines.map NodeLine.id).Nodup)
    {table : NodeTable} (hnew : ∀ line ∈ lines, line.id ∉ table.ids) {node : Node} :
    node ∈ ((lines.map NodeLine.text).foldl addLine table).nodes ↔
      node ∈ table.nodes ∨ ∃ line ∈ lines, parseLine (trim line.text) = some node := by
  induction lines generalizing table with
  | nil => simp
  | cons line lines ih =>
      obtain ⟨hline, hrest⟩ := List.nodup_cons.mp hnodup
      obtain ⟨read, hread, hreadAs⟩ := line.exists_readAs
      have hadd : addLine table line.text = table.insert read := by rw [addLine, hread]
      have hinsert : ∀ other, other ∈ (table.insert read).nodes ↔
          other = read ∨ other ∈ table.nodes := by
        intro other
        rw [NodeTable.mem_insert]
        refine or_congr_right (and_iff_left_of_imp fun hmem heq => ?_)
        apply hnew line List.mem_cons_self
        rw [← hreadAs.id, ← heq]
        exact NodeTable.mem_ids.mpr ⟨other, hmem, rfl⟩
      rw [List.map_cons, List.foldl_cons, hadd, ih hrest, hinsert, List.exists_mem_cons_iff, hread,
        or_assoc, or_left_comm, Option.some.injEq, eq_comm]
      intro other hother hmem
      obtain ⟨present, hpresent, hid⟩ := NodeTable.mem_ids.mp hmem
      cases (hinsert present).mp hpresent with
      | inl heq =>
          rw [heq, hreadAs.id] at hid
          exact hline (hid ▸ List.mem_map_of_mem hother)
      | inr hold =>
          apply hnew other (List.mem_cons_of_mem line hother)
          exact NodeTable.mem_ids.mpr ⟨present, hold, hid⟩

section Dump

variable {lines : List NodeLine}

theorem mem_parseIR_dumpText (hnodup : (lines.map NodeLine.id).Nodup) {node : Node} :
    node ∈ (parseIR (dumpText lines)).nodes ↔
      ∃ line ∈ lines, parseLine (trim line.text) = some node := by
  rw [parseIR_dumpText, mem_foldl_addLine hnodup]
  · simp [NodeTable.empty]
  · intro line _ hmem
    simp [NodeTable.empty] at hmem

theorem mem_ids_parseIR_dumpText (hnodup : (lines.map NodeLine.id).Nodup) {id : NodeId} :
    id ∈ (parseIR (dumpText lines)).ids ↔ ∃ line ∈ lines, line.id = id := by
  rw [NodeTable.mem_ids]
  constructor
  · intro h
    obtain ⟨node, hnode, rfl⟩ := h
    obtain ⟨line, hline, hread⟩ := (mem_parseIR_dumpText hnodup).mp hnode
    obtain ⟨read, hread', hreadAs⟩ := line.exists_readAs
    obtain rfl : node = read := Option.some.inj (hread.symm.trans hread')
    exact ⟨line, hline, hreadAs.id.symm⟩
  · intro h
    obtain ⟨line, hline, rfl⟩ := h
    obtain ⟨read, hread, hreadAs⟩ := line.exists_readAs
    exact ⟨read, (mem_parseIR_dumpText hnodup).mpr ⟨line, hline, hread⟩, hreadAs.id⟩

/-- The graph that is read from a dump has the operands that stand on their own. -/
theorem hasEdge_parseIR_dumpText (hnodup : (lines.map NodeLine.id).Nodup) {a b : NodeId} :
    (parseIR (dumpText lines)).HasEdge a b ↔
      a ≠ b ∧ (∃ line ∈ lines, line.id = a) ∧
        ∃ line ∈ lines, line.id = b ∧ a ∈ line.separateIds := by
  rw [NodeTable.HasEdge, mem_ids_parseIR_dumpText hnodup]
  refine and_congr_right fun _ => and_congr_right fun _ => ?_
  constructor
  · intro h
    obtain ⟨node, hnode, rfl, hmem⟩ := h
    obtain ⟨line, hline, hread⟩ := (mem_parseIR_dumpText hnodup).mp hnode
    obtain ⟨read, hread', hreadAs⟩ := line.exists_readAs
    obtain rfl : node = read := Option.some.inj (hread.symm.trans hread')
    exact ⟨line, hline, hreadAs.id.symm, hreadAs.inputIds ▸ hmem⟩
  · intro h
    obtain ⟨line, hline, rfl, hmem⟩ := h
    obtain ⟨read, hread, hreadAs⟩ := line.exists_readAs
    exact ⟨read, (mem_parseIR_dumpText hnodup).mpr ⟨line, hline, hread⟩, hreadAs.id,
      hreadAs.inputIds ▸ hmem⟩

end Dump

/-- The edges are, each once, those from a node to another one that prints its id as an
operand. -/
structure EdgesOfDump (lines : List NodeLine) (edges : List Edge) : Prop where
  once : (edges.map Edge.key).Nodup
  operands : ∀ a b, ⟨a, b⟩ ∈ edges.map Edge.key ↔
    a ≠ b ∧ (∃ line ∈ lines, line.id = a) ∧ ∃ line ∈ lines, line.id = b ∧ a ∈ line.operandIds

/-- The edges of a dump are complete exactly when every operand that is the id of another
line is printed on its own as well. -/
theorem edgesOfDump_iff {lines : List NodeLine} (hnodup : (lines.map NodeLine.id).Nodup) :
    EdgesOfDump lines (buildEdges (parseIR (dumpText lines))) ↔
      ∀ line ∈ lines, ∀ a ∈ line.operandIds, a ≠ line.id → (∃ other ∈ lines, other.id = a) →
        a ∈ line.separateIds := by
  constructor
  · intro h line hline a hoperand hne hother
    have hedge := (h.operands a line.id).mpr ⟨hne, hother, line, hline, rfl, hoperand⟩
    rw [mem_keys_buildEdges, hasEdge_parseIR_dumpText hnodup] at hedge
    obtain ⟨_, _, found, hfound, hid, hmem⟩ := hedge
    obtain rfl : found = line := List.inj_on_of_nodup_map hnodup hfound hline hid
    exact hmem
  · intro h
    refine ⟨nodup_keys_buildEdges _, ?_⟩
    intro a b
    rw [mem_keys_buildEdges, hasEdge_parseIR_dumpText hnodup]
    refine and_congr_right fun hne => and_congr_right fun hother => ?_
    constructor
    · intro hedge
      obtain ⟨line, hline, hid, hmem⟩ := hedge
      exact ⟨line, hline, hid, line.separateIds_subset hmem⟩
    · intro hedge
      obtain ⟨line, hline, rfl, hmem⟩ := hedge
      exact ⟨line, hline, rfl, h line hline a hmem hne hother⟩

/-- ` 23  ConI  === 0  [[ 24 ]]  #int:101` -/
def argumentLine : NodeLine where
  indent := " ".toList
  number := "23".toList
  gap := "  ".toList
  type := "ConI".toList
  space := "  ".toList
  operands := " 0  ".toList
  outputs := " 24 ".toList
  rest := "  #int:101".toList
  ending := []
  indent_blank := List.all_eq_true.mp (by decide)
  number_numeral := by decide
  gap_blank := ⟨by decide, List.all_eq_true.mp (by decide)⟩
  type_word := ⟨by decide, List.all_eq_true.mp (by decide)⟩
  space_blank := ⟨by decide, List.all_eq_true.mp (by decide)⟩
  operands_blank := ⟨' ', rfl, by decide⟩
  operands_clean := List.all_iff_forall_prop.mp (by decide)
  outputs_clean := List.all_iff_forall_prop.mp (by decide)
  rest_clean := List.all_eq_true.mp (by decide)
  ending_blank := List.forall_mem_nil _

/-- ` 24  CallStaticJava  === 5 6 7 8 1 (23 10 10 11 ) [[ 25 26 27 29 ]] # Static` -/
def callLine : NodeLine where
  indent := " ".toList
  number := "24".toList
  gap := "  ".toList
  type := "CallStaticJava".toList
  space := "  ".toList
  operands := " 5 6 7 8 1 (23 10 10 11 ) ".toList
  outputs := " 25 26 27 29 ".toList
  rest := " # Static".toList
  ending := []
  indent_blank := List.all_eq_true.mp (by decide)
  number_numeral := by decide
  gap_blank := ⟨by decide, List.all_eq_true.mp (by decide)⟩
  type_word := ⟨by decide, List.all_eq_true.mp (by decide)⟩
  space_blank := ⟨by decide, List.all_eq_true.mp (by decide)⟩
  operands_blank := ⟨' ', rfl, by decide⟩
  operands_clean := List.all_iff_forall_prop.mp (by decide)
  outputs_clean := List.all_iff_forall_prop.mp (by decide)
  rest_clean := List.all_eq_true.mp (by decide)
  ending_blank := List.forall_mem_nil _

theorem edgesOfDump_iff_call :
    EdgesOfDump [argumentLine, callLine]
        (buildEdges (parseIR (dumpText [argumentLine, callLine]))) ↔
      ∀ line ∈ [argumentLine, callLine], ∀ a ∈ line.operandIds, a ≠ line.id →
        (∃ other ∈ [argumentLine, callLine], other.id = a) → a ∈ line.separateIds :=
  edgesOfDump_iff (by decide +kernel)

/-- The edge from the first argument of the call is lost. -/
theorem not_forall_edgesOfDump :
    ¬ ∀ lines : List NodeLine, (lines.map NodeLine.id).Nodup →
      EdgesOfDump lines (buildEdges (parseIR (dumpText lines))) := by
  intro h
  have hnodup : ([argumentLine, callLine].map NodeLine.id).Nodup := by decide +kernel
  have hne : argumentLine.id ≠ callLine.id := by decide +kernel
  have hoperand : argumentLine.id ∈ callLine.operandIds := by decide +kernel
  have hedge := ((h _ hnodup).operands argumentLine.id callLine.id).mpr
    ⟨hne, ⟨argumentLine, by simp, rfl⟩, callLine, by simp, rfl, hoperand⟩
  rw [mem_keys_buildEdges, hasEdge_parseIR_dumpText hnodup] at hedge
  obtain ⟨_, _, line, hline, hid, hmem⟩ := hedge
  obtain rfl : line = callLine := List.inj_on_of_nodup_map hnodup hline (by simp) hid
  exact absurd hmem (by decide +kernel)

end Colata.IR
