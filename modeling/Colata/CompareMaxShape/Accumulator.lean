/-
# The accumulator in the comparisons

The registers hold initial values, which copies move and other instructions end. What
instructions that the script passes over write besides is a parameter. The script finds
the accumulator in a comparison exactly as long as no operand that holds an initial
value was copied into.
-/

import Colata.CompareMaxShape.Analyze
import Mathlib.Data.List.Forall2

namespace Colata.CompareMaxShape

open Colata.Math Colata.Python

/-! ## What the script knows of a register -/

inductive Content
  | untouched
  | zero
  | written
  deriving DecidableEq

def contentStep (content : Text → Content) (row : Row) : Text → Content :=
  match row.branch with
  | .load dst => Function.update content dst .written
  | .copy src dst =>
      Function.update content dst (if content src = .zero then .zero else .written)
  | .clear dst => Function.update content dst .zero
  | .compare src dst =>
      if content src = .zero then content else Function.update content dst .written
  | .skip => content

def contentAfter (rows : List Row) : Text → Content :=
  rows.foldl contentStep fun _ => .untouched

theorem contentAfter_concat (rows : List Row) (row : Row) :
    contentAfter (rows ++ [row]) = contentStep (contentAfter rows) row := by
  rw [contentAfter, List.foldl_append]
  rfl

theorem after_concat (rows : List Row) (row : Row) :
    after (rows ++ [row]) = (after rows).step row := by
  rw [after, List.foldl_append]
  rfl

/-- The texts of the script say no more of a register than its content does, as far as
the accumulator and zero are concerned. -/
structure Agrees (analysis : Analysis) (content : Text → Content) : Prop where
  untouched_iff : ∀ register, content register = .untouched ↔ analysis.state register = none
  zero_iff : ∀ register, content register = .zero ↔ analysis.state register = some zeroText
  state_ne : ∀ register, analysis.state register ≠ some acc
  loaded : ∀ register ∈ analysis.loaded, content register ≠ .untouched

section Agrees

variable {analysis : Analysis} {content : Text → Content}

theorem Agrees.value_eq_acc_iff (h : Agrees analysis content) (register : Text) :
    analysis.value register = acc ↔ content register = .untouched := by
  rw [h.untouched_iff, Analysis.value]
  cases hstate : analysis.state register with
  | none =>
    have hloaded : register ∉ analysis.loaded := fun hmem =>
      h.loaded register hmem ((h.untouched_iff register).mpr hstate)
    simp [hloaded]
  | some text =>
    have hne : text ≠ acc := fun heq => h.state_ne register (heq ▸ hstate)
    simp [hne]

theorem Agrees.value_eq_zero_iff (h : Agrees analysis content) (register : Text) :
    analysis.value register = zeroText ↔ content register = .zero := by
  rw [h.zero_iff, Analysis.value]
  cases hstate : analysis.state register with
  | none =>
    have hloaded : register ∉ analysis.loaded := fun hmem =>
      h.loaded register hmem ((h.untouched_iff register).mpr hstate)
    have hne : acc ≠ zeroText := by decide
    simp [hloaded, hne]
  | some text => simp

/-- A written register, whatever its text, as long as zero is told from the rest. -/
theorem Agrees.update (h : Agrees analysis content) {next : Analysis} {dst text : Text}
    {kind : Content} (hstate : next.state = Function.update analysis.state dst (some text))
    (hloaded : ∀ register ∈ next.loaded, register = dst ∨ register ∈ analysis.loaded)
    (hkind : kind ≠ .untouched) (hzero : kind = .zero ↔ text = zeroText) (hacc : text ≠ acc) :
    Agrees next (Function.update content dst kind) := by
  refine ⟨fun register => ?_, fun register => ?_, fun register => ?_, fun register hmem => ?_⟩
  · rw [hstate]
    rcases eq_or_ne register dst with rfl | hne
    · simp [hkind]
    · simpa [hne] using h.untouched_iff register
  · rw [hstate]
    rcases eq_or_ne register dst with rfl | hne
    · simp [hzero]
    · simpa [hne] using h.zero_iff register
  · rw [hstate]
    rcases eq_or_ne register dst with rfl | hne
    · simp [hacc]
    · simpa [hne] using h.state_ne register
  · rcases eq_or_ne register dst with rfl | hne
    · simp [hkind]
    · have hbefore := h.loaded register ((hloaded register hmem).resolve_left hne)
      simpa [hne] using hbefore

end Agrees

/-- A register of an instruction starts with a percent sign. -/
theorem head?_of_mem_operandRegs {args register : Text} (h : register ∈ operandRegs args) :
    register.head? = some '%' := by
  obtain ⟨rest, found, hfound, rfl⟩ := Regex.exists_of_mem_findAllFrom h
  have hrun : found ∈ reg.run (.initial rest) := List.mem_of_mem_head? hfound
  rw [reg] at hrun
  simp only [Regex.mem_run_sequence_cons] at hrun
  obtain ⟨first, hpercent, second, hletters, third, hdigits, hend⟩ := hrun
  obtain ⟨afterPercent, hrest, rfl⟩ := Regex.mem_run_literal.mp hpercent
  obtain ⟨letters, _, _, afterLetters, _, rfl⟩ := Regex.mem_run_plus_char.mp hletters
  obtain ⟨digits, _, afterDigits, _, rfl⟩ := Regex.mem_run_star_char_iff.mp hdigits
  obtain rfl := List.mem_singleton.mp hend
  obtain rfl : rest = '%' :: afterPercent := hrest
  obtain ⟨count, hcount⟩ : ∃ count, 0 + "%".toList.length + letters.length + digits.length =
      count + 1 := ⟨letters.length + digits.length, by simp; omega⟩
  change List.head? (('%' :: afterPercent).take (0 + "%".toList.length + letters.length +
    digits.length)) = some '%'
  rw [hcount]
  rfl

/-! ## The branches -/

theorem Row.branch_eq_copy {row : Row} {src dst : Text} (h : row.branch = .copy src dst) :
    src ∈ operandRegs row.args := by
  unfold Row.branch at h
  dsimp only at h
  split_ifs at h with hload hcopy hclear hcompare
  obtain ⟨rfl, rfl⟩ := Branch.copy.inj h
  obtain ⟨_, hlength, _⟩ := hcopy
  generalize operandRegs row.args = regs at hlength ⊢
  match regs, hlength with
  | first :: regs, _ => exact List.mem_cons_self

theorem Row.branch_eq_compare {row : Row} {src dst : Text} (h : row.branch = .compare src dst) :
    (operandRegs row.args).take 2 = [src, dst] := by
  unfold Row.branch at h
  dsimp only at h
  split_ifs at h with hload hcopy hclear hcompare
  obtain ⟨rfl, rfl⟩ := Branch.compare.inj h
  obtain ⟨_, hlength⟩ := hcompare
  generalize operandRegs row.args = regs at hlength ⊢
  match regs, hlength with
  | first :: second :: regs, _ => rfl

theorem memName_ne {op text : Text} (h : text.head? ≠ some 'M') : memName op ≠ text := by
  rintro rfl
  apply h
  unfold memName
  split
  · rfl
  · dsimp only
    split <;> rfl

theorem maxText_ne {dv sv text : Text} (h : text.head? ≠ some 'm') : maxText dv sv ≠ text := by
  rintro rfl
  exact h rfl

/-! ## The script against the contents -/

theorem agrees_step {analysis : Analysis} {content : Text → Content}
    (h : Agrees analysis content) (row : Row) :
    Agrees (analysis.step row) (contentStep content row) := by
  unfold Analysis.step contentStep
  cases hbranch : row.branch with
  | load dst =>
    have hzero : memName row.args ≠ zeroText := memName_ne (by decide)
    refine h.update rfl (fun register hmem => List.mem_cons.mp hmem) (by decide) ?_
      (memName_ne (by decide))
    simp [hzero]
  | copy src dst =>
    have hhead := head?_of_mem_operandRegs (Row.branch_eq_copy hbranch)
    have hsrc : src ≠ zeroText ∧ src ≠ acc := by
      constructor
      all_goals
        rintro rfl
        exact absurd hhead (by decide)
    refine h.update rfl (fun register hmem => .inr hmem) (by split_ifs <;> decide) ?_ ?_
    · have hkind : (if content src = .zero then Content.zero else .written) = .zero ↔
          content src = .zero := by simp
      rw [hkind, h.zero_iff]
      cases hstate : analysis.state src with
      | none => simp [hsrc.1]
      | some text => by_cases hzero : text = zeroText <;> simp [hzero]
    · cases hstate : analysis.state src with
      | none => exact hsrc.2
      | some text => exact fun heq => h.state_ne src (heq ▸ hstate)
  | clear dst =>
    exact h.update rfl (fun register hmem => .inr hmem) (by decide) (by simp) (by decide)
  | compare src dst =>
    dsimp only
    by_cases hzero : content src = .zero
    · rw [if_pos hzero, if_pos ((h.value_eq_zero_iff src).mpr hzero)]
      exact h
    · rw [if_neg hzero, if_neg ((h.value_eq_zero_iff src).not.mpr hzero)]
      have htext : maxText (analysis.value dst) (analysis.value src) ≠ zeroText :=
        maxText_ne (by decide)
      refine h.update rfl (fun register hmem => .inr hmem) (by decide) ?_ (maxText_ne (by decide))
      simp [htext]
  | skip => exact h

/-- After any instructions, the texts of the script agree with the contents. -/
theorem agrees_after (rows : List Row) : Agrees (after rows) (contentAfter rows) := by
  induction rows using List.reverseRecOn with
  | nil =>
    refine ⟨fun register => ?_, fun register => ?_, fun register => ?_, fun register hmem => ?_⟩
    · simp [contentAfter, after, Analysis.initial]
    · simp [contentAfter, after, Analysis.initial]
    · simp [after, Analysis.initial]
    · cases hmem
  | append_singleton rows row ih =>
    rw [after_concat, contentAfter_concat]
    exact agrees_step ih row

/-- The register that the script takes a row to write, behind the rows before it. -/
def scriptDst (before : List Row) (row : Row) : Option Text :=
  match row.branch with
  | .load dst => some dst
  | .copy _ dst => some dst
  | .clear dst => some dst
  | .compare src dst => if contentAfter before src = .zero then none else some dst
  | .skip => none

theorem contentStep_eq_untouched_iff (before : List Row) (row : Row) (register : Text) :
    contentStep (contentAfter before) row register = .untouched ↔
      contentAfter before register = .untouched ∧ scriptDst before row ≠ some register := by
  have hupdate : ∀ (dst : Text) {kind : Content}, kind ≠ .untouched →
      (Function.update (contentAfter before) dst kind register = .untouched ↔
        contentAfter before register = .untouched ∧ some dst ≠ some register) := by
    intro dst kind hkind
    rcases eq_or_ne register dst with rfl | hne
    · simp [hkind]
    · simp [hne, hne.symm]
  unfold contentStep scriptDst
  cases row.branch with
  | load dst => exact hupdate dst (by decide)
  | copy src dst => exact hupdate dst (by split_ifs <;> decide)
  | clear dst => exact hupdate dst (by decide)
  | compare src dst =>
    dsimp only
    split_ifs with hzero
    · simp
    · exact hupdate dst (by decide)
  | skip => simp

/-- A register is untouched as long as no row was taken to write it. -/
theorem contentAfter_eq_untouched_iff (rows : List Row) (register : Text) :
    contentAfter rows register = .untouched ↔
      ∀ before row, before ++ [row] <+: rows → scriptDst before row ≠ some register := by
  induction rows using List.reverseRecOn with
  | nil =>
    refine ⟨fun _ before row hleading => ?_, fun _ => rfl⟩
    simp at hleading
  | append_singleton rows last ih =>
    rw [contentAfter_concat, contentStep_eq_untouched_iff, ih]
    constructor
    · rintro ⟨hbefore, hlast⟩ before row hleading
      rcases List.prefix_concat_iff.mp hleading with heq | hleading
      · obtain ⟨rfl, rfl⟩ : before = rows ∧ row = last := by simpa using heq
        exact hlast
      · exact hbefore before row hleading
    · intro hall
      refine ⟨fun before row hleading => ?_, hall rows last List.prefix_rfl⟩
      exact hall before row (hleading.trans (List.prefix_append rows [last]))

/-! ## The comparisons that are kept -/

/-- A comparison with its place in the log. -/
structure Compared where
  before : List Row
  row : Row
  src : Text
  dst : Text

/-- Comparisons with zero are left out. -/
def keptAt (before : List Row) (row : Row) : Option Compared :=
  match row.branch with
  | .compare src dst =>
      if contentAfter before src = .zero then none else some ⟨before, row, src, dst⟩
  | _ => none

def comparedFrom (before : List Row) : List Row → List Compared
  | [] => []
  | row :: rows => (keptAt before row).toList ++ comparedFrom (before ++ [row]) rows

def compared (rows : List Row) : List Compared := comparedFrom [] rows

/-- What `analyze` says of it. -/
def Compared.comparison (c : Compared) : Comparison :=
  let sv := (after c.before).value c.src
  let dv := (after c.before).value c.dst
  ⟨c.row.lineNo, c.src, c.dst, sv, dv, maxText dv sv⟩

theorem step_comparisons (before : List Row) (row : Row) :
    ((after before).step row).comparisons =
      (after before).comparisons ++ ((keptAt before row).toList).map Compared.comparison := by
  unfold Analysis.step keptAt
  cases row.branch with
  | load dst => simp
  | copy src dst => simp
  | clear dst => simp
  | compare src dst =>
    dsimp only
    by_cases hzero : contentAfter before src = .zero
    · rw [if_pos hzero, if_pos (((agrees_after before).value_eq_zero_iff src).mpr hzero)]
      simp
    · rw [if_neg hzero, if_neg (((agrees_after before).value_eq_zero_iff src).not.mpr hzero)]
      simp [Compared.comparison]
  | skip => simp

/-- `analyze` lists the kept comparisons. -/
theorem analyze_eq (rows : List Row) : analyze rows = (compared rows).map Compared.comparison := by
  have hrun : ∀ before : List Row, (after (before ++ rows)).comparisons =
      (after before).comparisons ++ (comparedFrom before rows).map Compared.comparison := by
    induction rows with
    | nil => simp [comparedFrom]
    | cons row rows ih =>
      intro before
      have hrest := ih (before ++ [row])
      rw [List.append_assoc, List.singleton_append, after_concat, step_comparisons] at hrest
      rw [hrest, comparedFrom, List.map_append, List.append_assoc]
  exact hrun []

theorem operands_of_mem_comparedFrom {before rows : List Row} {c : Compared}
    (h : c ∈ comparedFrom before rows) : (operandRegs c.row.args).take 2 = [c.src, c.dst] := by
  induction rows generalizing before with
  | nil => cases h
  | cons row rows ih =>
    rw [comparedFrom, List.mem_append, Option.mem_toList] at h
    rcases h with hkept | hmem
    · unfold keptAt at hkept
      split at hkept
      · rename_i src dst hbranch
        split_ifs at hkept with hzero
        obtain rfl := Option.some.inj hkept
        exact Row.branch_eq_compare hbranch
      · cases hkept
    · exact ih hmem

/-! ## What the registers hold -/

/-- The text without what stands in parentheses. -/
def outsideParens : Bool → Text → Text
  | _, [] => []
  | true, c :: text => outsideParens (c != ')') text
  | false, c :: text => if c = '(' then outsideParens true text else c :: outsideParens false text

/-- The operands that are registers, without the registers of an address. -/
def registerOperands (args : Text) : List Text := operandRegs (outsideParens false args)

/-- The last operand, unless it is an address. -/
def Row.destination (row : Row) : Option Text :=
  if row.args.getLast? = some ')' then none else (registerOperands row.args).getLast?

variable (overwrites : Row → List Text)

/-- What an instruction does to the registers: a copy from a register, or the end of what
its destination held, for a load, a zeroing and a comparison that is kept. -/
def effect (before : List Row) (row : Row) : Effect Text :=
  match row.branch with
  | .copy src dst => ⟨some (src, dst), overwrites row⟩
  | .clear dst => ⟨none, dst :: overwrites row⟩
  | .compare src _ =>
      if contentAfter before src = .zero then ⟨none, overwrites row⟩
      else ⟨none, row.destination.toList ++ overwrites row⟩
  | _ =>
      if (row.op = "vmovapd".toList ∨ row.op = "vmovsd".toList) ∧ '(' ∈ row.args then
        ⟨none, row.destination.toList ++ overwrites row⟩
      else ⟨none, overwrites row⟩

def effectsFrom (before : List Row) : List Row → List (Effect Text)
  | [] => []
  | row :: rows => effect overwrites before row :: effectsFrom (before ++ [row]) rows

/-- The register whose initial value a register holds after these instructions. -/
def held (rows : List Row) : Text → Option Text := contentsAfter (effectsFrom overwrites [] rows)

theorem effectsFrom_append (before first second : List Row) :
    effectsFrom overwrites before (first ++ second) =
      effectsFrom overwrites before first ++ effectsFrom overwrites (before ++ first) second := by
  induction first generalizing before with
  | nil => simp [effectsFrom]
  | cons row first ih =>
    rw [List.cons_append, effectsFrom, ih, effectsFrom, List.append_assoc, List.singleton_append,
      List.cons_append]

theorem exists_of_mem_effectsFrom {before rows : List Row} {e : Effect Text}
    (h : e ∈ effectsFrom overwrites before rows) :
    ∃ first row, first ++ [row] <+: rows ∧ e = effect overwrites (before ++ first) row := by
  induction rows generalizing before with
  | nil => cases h
  | cons row rows ih =>
    rcases List.mem_cons.mp h with rfl | hmem
    · exact ⟨[], row, List.prefix_append [row] rows, by rw [List.append_nil]⟩
    · obtain ⟨first, later, hleading, rfl⟩ := ih hmem
      refine ⟨row :: first, later, List.cons_prefix_cons.mpr ⟨rfl, hleading⟩, ?_⟩
      rw [List.append_assoc, List.singleton_append]

theorem branch_of_copied {before : List Row} {row : Row} {source target : Text}
    (h : (effect overwrites before row).copied = some (source, target)) :
    row.branch = .copy source target := by
  unfold effect at h
  cases hbranch : row.branch with
  | copy src dst =>
    rw [hbranch] at h
    obtain ⟨rfl, rfl⟩ : src = source ∧ dst = target := by simpa using h
    rfl
  | load dst | compare src dst | skip =>
    rw [hbranch] at h
    dsimp only at h
    split_ifs at h
  | clear dst =>
    rw [hbranch] at h
    cases h

/-- Copies are the only way to an initial value again, and the script takes them to write. -/
theorem exists_copy_of_held {rows before : List Row} {row : Row} {register : Text}
    (hleading : before ++ [row] <+: rows) (hlost : register ∈ (effect overwrites before row).lost)
    (hheld : (held overwrites rows register).isSome) :
    ∃ first later, first ++ [later] <+: rows ∧ scriptDst first later = some register ∧
      register ∉ (effect overwrites first later).lost := by
  obtain ⟨rest, rfl⟩ := hleading
  rw [held, List.append_assoc, List.singleton_append, effectsFrom_append, effectsFrom] at hheld
  obtain ⟨copy, hcopy, hnot, source, hcopied⟩ := exists_copiesInto_of_lost hlost hheld
  obtain ⟨first, later, hfirst, rfl⟩ := exists_of_mem_effectsFrom overwrites hcopy
  rw [List.nil_append] at hnot hcopied
  refine ⟨before ++ [row] ++ first, later, ?_, ?_, hnot⟩
  · rw [List.append_assoc (before ++ [row])]
    exact (List.prefix_append_right_inj _).mpr hfirst
  · rw [scriptDst, branch_of_copied overwrites hcopied]

/-! ## The accumulator -/

/-- The comparison shows the register as the accumulator. -/
def Comparison.ReportsAcc (comparison : Comparison) (register : Text) : Prop :=
  comparison.srcReg = register ∧ comparison.src = acc ∨
    comparison.dstReg = register ∧ comparison.dst = acc

/-- An operand of the comparison holds an initial value. -/
def Compared.participates (c : Compared) : Bool :=
  (registerOperands c.row.args).any fun register => (held overwrites c.before register).isSome

/-- Every operand that holds an initial value is shown as the accumulator, and the first
comparison with such an operand is found. -/
structure FindsAccumulator (rows : List Row) : Prop where
  reported : List.Forall₂
    (fun c comparison => ∀ register ∈ registerOperands c.row.args,
      (held overwrites c.before register).isSome → comparison.ReportsAcc register)
    (compared rows) (analyze rows)
  first : firstAcc (analyze rows) =
    ((compared rows).findIdx? (Compared.participates overwrites)).map (· + 1)

/-- No row was taken to write the register. -/
def Untouched (rows : List Row) (register : Text) : Prop :=
  ∀ before row, before ++ [row] <+: rows → scriptDst before row ≠ some register

/-- Only rows that end what the register holds were taken to write it, and so no copy. -/
def NotCopied (rows : List Row) (register : Text) : Prop :=
  ∀ before row, before ++ [row] <+: rows → scriptDst before row = some register →
    register ∈ (effect overwrites before row).lost

/-- No operand that holds an initial value was copied into, and untouched registers that
no longer hold one do not come first. -/
structure TracksAccumulator (rows : List Row) : Prop where
  operand : ∀ c ∈ compared rows, ∀ register ∈ registerOperands c.row.args,
    (held overwrites c.before register).isSome →
      register ∈ (operandRegs c.row.args).take 2 ∧ NotCopied overwrites c.before register
  first : ∀ (i : ℕ) (c : Compared), (compared rows)[i]? = some c →
    (∃ register ∈ (operandRegs c.row.args).take 2, Untouched c.before register) →
      ∃ j ≤ i, ∃ other : Compared, (compared rows)[j]? = some other ∧ other.participates overwrites

theorem untouched_iff_notCopied {rows : List Row} {register : Text}
    (hheld : (held overwrites rows register).isSome) :
    Untouched rows register ↔ NotCopied overwrites rows register := by
  constructor
  · intro huntouched before row hleading hdst
    exact absurd hdst (huntouched before row hleading)
  · intro hcopied before row hleading hdst
    have hlost := hcopied before row hleading hdst
    obtain ⟨first, later, hfirst, hlater, hnot⟩ :=
      exists_copy_of_held overwrites hleading hlost hheld
    exact hnot (hcopied first later hfirst hlater)

theorem value_eq_acc_iff_untouched (rows : List Row) (register : Text) :
    (after rows).value register = acc ↔ Untouched rows register := by
  rw [(agrees_after rows).value_eq_acc_iff, contentAfter_eq_untouched_iff]
  rfl

section Compared

variable {rows : List Row} {c : Compared}

theorem reportsAcc_iff (hc : c ∈ compared rows) (register : Text) :
    c.comparison.ReportsAcc register ↔
      register ∈ (operandRegs c.row.args).take 2 ∧ Untouched c.before register := by
  rw [operands_of_mem_comparedFrom hc, ← value_eq_acc_iff_untouched]
  simp only [Comparison.ReportsAcc, Compared.comparison, List.mem_cons, List.not_mem_nil, or_false]
  constructor
  · rintro (⟨rfl, hacc⟩ | ⟨rfl, hacc⟩)
    · exact ⟨.inl rfl, hacc⟩
    · exact ⟨.inr rfl, hacc⟩
  · rintro ⟨rfl | rfl, hacc⟩
    · exact .inl ⟨rfl, hacc⟩
    · exact .inr ⟨rfl, hacc⟩

theorem involvesAcc_iff (hc : c ∈ compared rows) :
    c.comparison.involvesAcc ↔
      ∃ register ∈ (operandRegs c.row.args).take 2, Untouched c.before register := by
  have hreports : c.comparison.involvesAcc ↔ ∃ register, c.comparison.ReportsAcc register := by
    simp [Comparison.involvesAcc, Comparison.ReportsAcc, exists_or]
  rw [hreports]
  exact exists_congr fun register => reportsAcc_iff hc register

end Compared

/-- The first element with a property is the first one with a weaker property exactly when
every element with the weaker property has one with the stronger at or before it. -/
theorem findIdx?_eq_findIdx?_iff {α : Type} {weak strong : α → Bool} {list : List α}
    (himp : ∀ x ∈ list, strong x → weak x) :
    list.findIdx? weak = list.findIdx? strong ↔
      ∀ (i : ℕ) (x : α), list[i]? = some x → weak x →
        ∃ j ≤ i, ∃ y, list[j]? = some y ∧ strong y := by
  constructor
  · intro heq i x hx hweak
    obtain ⟨hi, rfl⟩ := List.getElem?_eq_some_iff.mp hx
    cases hstrong : list.findIdx? strong with
    | none =>
      rw [hstrong, List.findIdx?_eq_none_iff] at heq
      rw [heq _ (List.getElem_mem hi)] at hweak
      cases hweak
    | some j =>
      rw [hstrong] at heq
      obtain ⟨hj, hyes, _⟩ := List.findIdx?_eq_some_iff_getElem.mp hstrong
      obtain ⟨_, _, hfirst⟩ := List.findIdx?_eq_some_iff_getElem.mp heq
      refine ⟨j, ?_, list[j], List.getElem?_eq_getElem hj, hyes⟩
      by_contra hlt
      exact hfirst i (by omega) hweak
  · intro hall
    cases hweak : list.findIdx? weak with
    | none =>
      rw [List.findIdx?_eq_none_iff] at hweak
      symm
      rw [List.findIdx?_eq_none_iff]
      intro x hx
      by_contra hstrong
      rw [Bool.not_eq_false] at hstrong
      exact absurd (himp x hx hstrong) (by simp [hweak x hx])
    | some i =>
      obtain ⟨hi, hyes, hfirst⟩ := List.findIdx?_eq_some_iff_getElem.mp hweak
      obtain ⟨j, hj, y, hy, hstrong⟩ := hall i _ (List.getElem?_eq_getElem hi) hyes
      obtain ⟨hjlt, rfl⟩ := List.getElem?_eq_some_iff.mp hy
      have hji : j = i := by
        by_contra hne
        exact hfirst j (by omega) (himp _ (List.getElem_mem hjlt) hstrong)
      subst hji
      symm
      refine List.findIdx?_eq_some_iff_getElem.mpr ⟨hi, hstrong, fun k hk => ?_⟩
      exact fun hk' => hfirst k hk (himp _ (List.getElem_mem _) hk')

section Finds

variable (rows : List Row)

theorem reported_iff :
    List.Forall₂ (fun c comparison => ∀ register ∈ registerOperands c.row.args,
        (held overwrites c.before register).isSome → comparison.ReportsAcc register)
      (compared rows) (analyze rows) ↔
      ∀ c ∈ compared rows, ∀ register ∈ registerOperands c.row.args,
        (held overwrites c.before register).isSome →
          register ∈ (operandRegs c.row.args).take 2 ∧ NotCopied overwrites c.before register := by
  rw [analyze_eq, List.forall₂_map_right_iff, List.forall₂_same]
  refine forall₂_congr fun c hc => forall₂_congr fun register _ => forall_congr' fun hheld => ?_
  rw [reportsAcc_iff hc, untouched_iff_notCopied overwrites hheld]

variable {rows}

/-- Where the operands are reported, a comparison with an initial value shows one. -/
theorem involvesAcc_of_participates
    (hoperand : ∀ c ∈ compared rows, ∀ register ∈ registerOperands c.row.args,
      (held overwrites c.before register).isSome →
        register ∈ (operandRegs c.row.args).take 2 ∧ NotCopied overwrites c.before register)
    {c : Compared} (hc : c ∈ compared rows) (hparticipates : c.participates overwrites) :
    c.comparison.involvesAcc := by
  obtain ⟨register, hregister, hheld⟩ := List.any_eq_true.mp hparticipates
  obtain ⟨hnamed, hcopied⟩ := hoperand c hc register hregister hheld
  exact (involvesAcc_iff hc).mpr
    ⟨register, hnamed, (untouched_iff_notCopied overwrites hheld).mpr hcopied⟩

theorem firstAcc_eq_iff
    (hshown : ∀ c ∈ compared rows, c.participates overwrites → c.comparison.involvesAcc) :
    firstAcc (analyze rows) =
        ((compared rows).findIdx? (Compared.participates overwrites)).map (· + 1) ↔
      ∀ (i : ℕ) (c : Compared), (compared rows)[i]? = some c →
        (∃ register ∈ (operandRegs c.row.args).take 2, Untouched c.before register) →
          ∃ j ≤ i, ∃ other : Compared,
            (compared rows)[j]? = some other ∧ other.participates overwrites := by
  have hinj : Function.Injective (Option.map (· + 1) : Option ℕ → Option ℕ) :=
    Option.map_injective (add_left_injective 1)
  rw [firstAcc, analyze_eq, List.findIdx?_map, hinj.eq_iff]
  refine (findIdx?_eq_findIdx?_iff hshown).trans ?_
  refine forall₂_congr fun i c => forall_congr' fun hc => ?_
  rw [← involvesAcc_iff (List.mem_of_getElem? hc)]

end Finds

/-- The script finds the accumulator exactly when no operand that holds an initial value
was copied into. -/
theorem findsAccumulator_iff (rows : List Row) :
    FindsAccumulator overwrites rows ↔ TracksAccumulator overwrites rows := by
  constructor
  · intro hfinds
    have hoperand := (reported_iff overwrites rows).mp hfinds.reported
    have hshown := fun c => involvesAcc_of_participates overwrites hoperand (c := c)
    exact ⟨hoperand, (firstAcc_eq_iff overwrites hshown).mp hfinds.first⟩
  · intro htracks
    have hshown := fun c => involvesAcc_of_participates overwrites htracks.operand (c := c)
    exact ⟨(reported_iff overwrites rows).mpr htracks.operand,
      (firstAcc_eq_iff overwrites hshown).mpr htracks.first⟩

/-! ## A copied accumulator -/

def copyRow : Row := ⟨1, "vmovapd".toList, "%xmm0,%xmm1".toList, "0x10: vmovapd %xmm0,%xmm1".toList⟩

def compareRow : Row :=
  ⟨2, "vucomisd".toList, "%xmm2,%xmm1".toList, "0x14: vucomisd %xmm2,%xmm1".toList⟩

theorem branch_copyRow : copyRow.branch = .copy "%xmm0".toList "%xmm1".toList := by decide

theorem branch_compareRow : compareRow.branch = .compare "%xmm2".toList "%xmm1".toList := by decide

/-- The copied accumulator is shown as the register it came from. -/
theorem not_forall_findsAccumulator :
    ¬ ∀ (overwrites : Row → List Text) (rows : List Row), FindsAccumulator overwrites rows := by
  intro hall
  have hreported := (hall (fun _ => []) [copyRow, compareRow]).reported
  have hcontent : contentAfter [copyRow] "%xmm2".toList ≠ .zero := by
    simp only [contentAfter, List.foldl_cons, List.foldl_nil, contentStep, branch_copyRow]
    decide
  have hcompared : compared [copyRow, compareRow] =
      [⟨[copyRow], compareRow, "%xmm2".toList, "%xmm1".toList⟩] := by
    have hcopy : keptAt [] copyRow = none := by rw [keptAt, branch_copyRow]
    have hcompare : keptAt [copyRow] compareRow =
        some ⟨[copyRow], compareRow, "%xmm2".toList, "%xmm1".toList⟩ := by
      rw [keptAt, branch_compareRow]
      exact if_neg hcontent
    simp only [compared, comparedFrom, List.nil_append, hcopy, hcompare]
    rfl
  rw [analyze_eq, List.forall₂_map_right_iff, hcompared, List.forall₂_same] at hreported
  have hheld : (held (fun _ => []) [copyRow] "%xmm1".toList).isSome := by
    simp only [held, effectsFrom, effect, branch_copyRow]
    decide
  have hacc := hreported _ List.mem_cons_self "%xmm1".toList (by decide) hheld
  have hvalue : (after [copyRow]).value "%xmm1".toList ≠ acc := by
    simp only [after, List.foldl_cons, List.foldl_nil, Analysis.step, branch_copyRow]
    decide
  rcases hacc with ⟨hsrc, _⟩ | ⟨_, hdst⟩
  · exact absurd hsrc (by decide)
  · exact hvalue hdst

end Colata.CompareMaxShape
