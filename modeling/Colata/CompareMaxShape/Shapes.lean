/-
# The shapes of the expressions

What `analyze` knows of a register is a text such as `max(ACC, MEM[+0x8])`. A tree stands
behind it: the loads, zeros and initial values that the maximum is taken of, and the order
in which it is taken. The text determines the tree up to the names of its leaves, and the
tree computes what the register holds.
-/

import Colata.CompareMaxShape.Accumulator
import Colata.CompareMaxShape.MemName
import Colata.Math.Bracketing

namespace Colata.CompareMaxShape

open Colata.Math Colata.Python

/-! ## Trees -/

/-- Where a value comes from. An initial value is shown as the accumulator where it is
compared and by its register where it is copied. -/
inductive Leaf
  | accumulator (register : Text)
  | copied (register : Text)
  | zero
  | load (row : Row)

def Leaf.text : Leaf → Text
  | .accumulator _ => acc
  | .copied register => register
  | .zero => zeroText
  | .load row => memName row.args

abbrev Shape := PairTree Leaf

/-- `max(left, right)` -/
def maxCall : Bracketing Char := ⟨"max".toList, '(', ',', [' '], ')'⟩

def Shape.text (shape : Shape) : Text := maxCall.render (PairTree.map Leaf.text shape)

/-- What `state` stands for. -/
abbrev Shapes := Text → Option Shape

/-- The tree of an operand of a comparison. -/
def Shapes.operand (shapes : Shapes) (register : Text) : Shape :=
  (shapes register).getD (.leaf (.accumulator register))

/-! ## Runs that know the rows before -/

section Runs

variable {σ : Type}

def runFrom (step : List Row → σ → Row → σ) (before : List Row) (start : σ) : List Row → σ
  | [] => start
  | row :: rows => runFrom step (before ++ [row]) (step before start row) rows

theorem runFrom_concat (step : List Row → σ → Row → σ) (before : List Row) (start : σ)
    (rows : List Row) (row : Row) :
    runFrom step before start (rows ++ [row]) =
      step (before ++ rows) (runFrom step before start rows) row := by
  induction rows generalizing before start with
  | nil => simp [runFrom]
  | cons first rows ih =>
    rw [List.cons_append, runFrom, ih, runFrom, List.append_assoc, List.singleton_append]

end Runs

def shapesStep (before : List Row) (shapes : Shapes) (row : Row) : Shapes :=
  match row.branch with
  | .load dst => Function.update shapes dst (some (.leaf (.load row)))
  | .copy src dst =>
      Function.update shapes dst (some ((shapes src).getD (.leaf (.copied src))))
  | .clear dst => Function.update shapes dst (some (.leaf .zero))
  | .compare src dst =>
      if contentAfter before src = .zero then shapes
      else Function.update shapes dst (some (.node (shapes.operand dst) (shapes.operand src)))
  | .skip => shapes

def shapesAfter (rows : List Row) : Shapes := runFrom shapesStep [] (fun _ => none) rows

/-- Values for the leaves and an operation for the comparisons. Each row loads a value of
its own, whatever its label. -/
structure Interpretation (α : Type) where
  initial : Text → α
  zero : α
  loaded : Row → α
  max : α → α → α

namespace Interpretation

variable {α : Type} (m : Interpretation α)

/-- The instructions as the script takes them: behind a comparison that it keeps, the
destination holds the maximum. -/
def step (before : List Row) (registers : Text → α) (row : Row) : Text → α :=
  match row.branch with
  | .load dst => Function.update registers dst (m.loaded row)
  | .copy src dst => Function.update registers dst (registers src)
  | .clear dst => Function.update registers dst m.zero
  | .compare src dst =>
      if contentAfter before src = .zero then registers
      else Function.update registers dst (m.max (registers dst) (registers src))
  | .skip => registers

/-- What the registers hold after these instructions. -/
def registersAfter (rows : List Row) : Text → α := runFrom m.step [] m.initial rows

def leaf : Leaf → α
  | .accumulator register => m.initial register
  | .copied register => m.initial register
  | .zero => m.zero
  | .load row => m.loaded row

def value (shape : Shape) : α := PairTree.fold m.max m.leaf shape

end Interpretation

/-! ## Labels -/

/-- A text without parentheses and commas. -/
def IsLabel (text : Text) : Prop := ∀ c ∈ text, maxCall.IsPlain c

instance (c : Char) : Decidable (maxCall.IsPlain c) :=
  inferInstanceAs (Decidable (c ≠ '(' ∧ c ≠ ',' ∧ c ≠ ')'))

instance (text : Text) : Decidable (IsLabel text) := List.decidableBAll maxCall.IsPlain text

theorem IsLabel.append {first second : Text} (hfirst : IsLabel first) (hsecond : IsLabel second) :
    IsLabel (first ++ second) := by
  intro c hc
  exact (List.mem_append.mp hc).elim (hfirst c) (hsecond c)

/-- A text without the three characters. -/
theorem isLabel_of_notMem {text : Text} (hopening : '(' ∉ text) (hcomma : ',' ∉ text)
    (hclosing : ')' ∉ text) : IsLabel text := by
  have hne : ∀ d : Char, d ∉ text → ∀ c ∈ text, c ≠ d := by
    rintro d hd c hc rfl
    exact hd hc
  exact fun c hc => ⟨hne _ hopening c hc, hne _ hcomma c hc, hne _ hclosing c hc⟩

theorem isLabel_of_class {p : Char → Bool} {text : Text} (htext : ∀ c ∈ text, p c)
    (hclass : ¬ p '(' ∧ ¬ p ',' ∧ ¬ p ')') : IsLabel text :=
  isLabel_of_notMem (fun hmem => hclass.1 (htext _ hmem)) (fun hmem => hclass.2.1 (htext _ hmem))
    fun hmem => hclass.2.2 (htext _ hmem)

/-- `%[a-z]+[0-9]*` -/
def IsRegister (text : Text) : Prop :=
  ∃ letters digits, (letters ≠ [] ∧ ∀ c ∈ letters, isLetter c) ∧ (∀ c ∈ digits, isDigit c) ∧
    text = "%".toList ++ (letters ++ digits)

theorem reads_reg : Regex.Reads reg IsRegister := by
  apply ((Regex.reads_literal "%").seq
    (Regex.reads_plus_char.seq (Regex.reads_star_char.seq Regex.reads_empty))).congr
  intro taken
  constructor
  · rintro ⟨_, _, rfl, ⟨letters, _, hletters, ⟨digits, _, hdigits, rfl, rfl⟩, rfl⟩, rfl⟩
    exact ⟨letters, digits, hletters, hdigits, by rw [List.append_nil]⟩
  · rintro ⟨letters, digits, hletters, hdigits, rfl⟩
    exact ⟨_, _, rfl, ⟨letters, _, hletters, ⟨digits, _, hdigits, rfl, rfl⟩, rfl⟩,
      by rw [List.append_nil]⟩

theorem isLabel_of_mem_operandRegs {args register : Text} (h : register ∈ operandRegs args) :
    IsLabel register := by
  obtain ⟨letters, digits, ⟨_, hletters⟩, hdigits, rfl⟩ := reads_reg.of_mem_findAllFrom h
  have hpercent : IsLabel "%".toList := by decide
  exact hpercent.append ((isLabel_of_class hletters (by decide)).append
    (isLabel_of_class hdigits (by decide)))

theorem isLabel_signedHex (x : ℤ) : IsLabel (signedHex x) := by
  have hdigits : IsLabel (Nat.toDigits 16 x.natAbs) := by
    intro c hc
    obtain ⟨digit, hdigit, rfl⟩ := mem_toDigits (by decide) hc
    have hall : ∀ digit < 16, maxCall.IsPlain (Nat.digitChar digit) := by decide
    exact hall digit hdigit
  have hsign : IsLabel [if 0 ≤ x then '+' else '-', '0', 'x'] := by split_ifs <;> decide
  exact hsign.append hdigits

theorem isLabel_rawOf {number : Text} (h : IsNumber number) : IsLabel (rawOf number) := by
  rw [rawOf]
  split_ifs
  · decide
  · exact isLabel_of_notMem (h.notMem (by decide +kernel)) (h.notMem (by decide +kernel))
      (h.notMem (by decide +kernel))

theorem isLabel_memName (op : Text) : IsLabel (memName op) := by
  unfold memName
  have hopen : IsLabel "MEM[".toList := by decide
  have hclose : IsLabel [']'] := by decide
  split
  · decide
  · rename_i found hfound
    obtain ⟨position, rest, hrun⟩ := Regex.exists_of_searchFrom hfound
    obtain ⟨number, _, _, _, hnumber, _, hraw⟩ := exists_of_mem_run_memOff hrun
    rw [hraw]
    dsimp only
    split
    · exact (hopen.append (isLabel_rawOf hnumber)).append hclose
    · exact (hopen.append (isLabel_signedHex _)).append hclose

/-! ## Trees against texts -/

theorem maxCall_wellFormed : maxCall.WellFormed := by
  have hword : IsLabel "max".toList := by decide
  exact ⟨hword, by decide, by decide⟩

/-- All leaves have labels for texts. -/
def Shape.IsLabelled (shape : Shape) : Prop :=
  ∀ label ∈ (PairTree.map Leaf.text shape).leaves, IsLabel label

theorem Shape.isLabelled_leaf {leaf : Leaf} (h : IsLabel leaf.text) :
    Shape.IsLabelled (.leaf leaf) := by
  intro label hlabel
  obtain rfl := List.mem_singleton.mp hlabel
  exact h

theorem Shape.IsLabelled.node {left right : Shape} (hleft : left.IsLabelled)
    (hright : right.IsLabelled) : Shape.IsLabelled (.node left right) := by
  intro label hlabel
  exact (List.mem_append.mp hlabel).elim (hleft label) (hright label)

theorem Shape.text_node (left right : Shape) :
    Shape.text (.node left right) = maxText left.text right.text := by
  have hword : "max(".toList = "max".toList ++ ['('] := by decide
  have hgap : ", ".toList = [',', ' '] := by decide
  -- Rewriting with a string literal compares it with the other one, character by character.
  calc Shape.text (.node left right)
      = "max".toList ++ ['('] ++ left.text ++ [',', ' '] ++ right.text ++ [')'] := by
        change "max".toList ++ '(' :: (left.text ++ ',' :: ([' '] ++ (right.text ++ [')']))) = _
        simp only [List.append_assoc, List.cons_append, List.nil_append]
    _ = maxText left.text right.text :=
        congrArg₂ (fun word gap => word ++ left.text ++ gap ++ right.text ++ [')'])
          hword.symm hgap.symm

/-- The tree is the only one that is written so. -/
def Shape.ReadFrom (shape : Shape) (text : Text) : Prop :=
  ∀ tree : PairTree Text, (∀ label ∈ tree.leaves, IsLabel label) →
    (maxCall.render tree = text ↔ tree = PairTree.map Leaf.text shape)

theorem Shape.IsLabelled.readFrom {shape : Shape} (h : shape.IsLabelled) :
    shape.ReadFrom shape.text := by
  intro tree hlabels
  constructor
  · exact maxCall_wellFormed.render_injective hlabels h
  · rintro rfl
    rfl

/-- The texts of the script are those of the trees. -/
structure Draws (analysis : Analysis) (shapes : Shapes) : Prop where
  state_eq : ∀ register, analysis.state register = (shapes register).map Shape.text
  loaded : ∀ register ∈ analysis.loaded, (shapes register).isSome
  labelled : ∀ register, ∀ shape ∈ shapes register, Shape.IsLabelled shape

section Draws

variable {analysis : Analysis} {shapes : Shapes}

theorem Draws.value_eq (h : Draws analysis shapes) (register : Text) :
    analysis.value register = (shapes.operand register).text := by
  rw [Analysis.value, h.state_eq, Shapes.operand]
  cases hshape : shapes register with
  | some shape => rfl
  | none =>
    have hloaded : register ∉ analysis.loaded := fun hmem => by
      have hsome := h.loaded register hmem
      rw [hshape] at hsome
      cases hsome
    simp [hloaded, Shape.text, PairTree.map, Bracketing.render, Leaf.text]

theorem Draws.isLabelled_operand (h : Draws analysis shapes) (register : Text) :
    (shapes.operand register).IsLabelled := by
  rw [Shapes.operand]
  cases hshape : shapes register with
  | some shape => exact h.labelled register shape hshape
  | none =>
    have hacc : IsLabel acc := by decide
    exact Shape.isLabelled_leaf hacc

theorem Draws.update (h : Draws analysis shapes) {next : Analysis} {dst : Text} {shape : Shape}
    (hstate : next.state = Function.update analysis.state dst (some shape.text))
    (hloaded : ∀ register ∈ next.loaded, register = dst ∨ register ∈ analysis.loaded)
    (hlabelled : shape.IsLabelled) : Draws next (Function.update shapes dst (some shape)) := by
  refine ⟨fun register => ?_, fun register hmem => ?_, fun register other hother => ?_⟩
  · rw [hstate]
    rcases eq_or_ne register dst with rfl | hne
    · simp
    · simpa [hne] using h.state_eq register
  · rcases eq_or_ne register dst with rfl | hne
    · simp
    · simpa [hne] using h.loaded register ((hloaded register hmem).resolve_left hne)
  · rcases eq_or_ne register dst with rfl | hne
    · obtain rfl : shape = other := by simpa using hother
      exact hlabelled
    · exact h.labelled register other (by simpa [hne] using hother)

end Draws

theorem draws_step {analysis : Analysis} {shapes : Shapes} {before : List Row}
    (h : Draws analysis shapes) (hagrees : Agrees analysis (contentAfter before)) (row : Row) :
    Draws (analysis.step row) (shapesStep before shapes row) := by
  unfold Analysis.step shapesStep
  cases hbranch : row.branch with
  | load dst =>
    exact h.update rfl (fun register hmem => List.mem_cons.mp hmem)
      (Shape.isLabelled_leaf (isLabel_memName row.args))
  | copy src dst =>
    have hsrc := isLabel_of_mem_operandRegs (Row.branch_eq_copy hbranch)
    refine h.update ?_ (fun register hmem => .inr hmem) ?_
    · dsimp only
      rw [h.state_eq]
      cases shapes src with
      | some shape => rfl
      | none => rfl
    · cases hshape : shapes src with
      | some shape => exact h.labelled src shape hshape
      | none => exact Shape.isLabelled_leaf hsrc
  | clear dst =>
    exact h.update rfl (fun register hmem => .inr hmem) (Shape.isLabelled_leaf (by decide))
  | compare src dst =>
    dsimp only
    by_cases hzero : contentAfter before src = .zero
    · rw [if_pos hzero, if_pos ((hagrees.value_eq_zero_iff src).mpr hzero)]
      exact h
    · rw [if_neg hzero, if_neg ((hagrees.value_eq_zero_iff src).not.mpr hzero)]
      refine h.update ?_ (fun register hmem => .inr hmem)
        ((h.isLabelled_operand dst).node (h.isLabelled_operand src))
      rw [Shape.text_node, h.value_eq, h.value_eq]
  | skip => exact h

theorem shapesAfter_concat (rows : List Row) (row : Row) :
    shapesAfter (rows ++ [row]) = shapesStep rows (shapesAfter rows) row :=
  runFrom_concat shapesStep [] _ rows row

/-- After any instructions, the texts of the script are those of the trees. -/
theorem draws_after (rows : List Row) : Draws (after rows) (shapesAfter rows) := by
  induction rows using List.reverseRecOn with
  | nil =>
    refine ⟨fun register => rfl, fun register hmem => ?_, fun register shape hshape => ?_⟩
    · cases hmem
    · cases hshape
  | append_singleton rows row ih =>
    rw [after_concat, shapesAfter_concat]
    exact draws_step ih (agrees_after rows) row

/-! ## Trees against values -/

section Values

variable {α : Type} (m : Interpretation α)

theorem registersAfter_concat (rows : List Row) (row : Row) :
    m.registersAfter (rows ++ [row]) = m.step rows (m.registersAfter rows) row :=
  runFrom_concat m.step [] _ rows row

/-- What a tree says of a register is what the register holds. -/
def Computes (shapes : Shapes) (registers : Text → α) : Prop :=
  ∀ register, m.value (shapes.operand register) = registers register

variable {m} {shapes : Shapes} {registers : Text → α}

theorem Computes.update (h : Computes m shapes registers) (dst : Text) {shape : Shape} {held : α}
    (hheld : m.value shape = held) :
    Computes m (Function.update shapes dst (some shape)) (Function.update registers dst held) := by
  intro register
  rcases eq_or_ne register dst with rfl | hne
  · simpa [Shapes.operand] using hheld
  · simpa [Shapes.operand, hne] using h register

theorem computes_step (h : Computes m shapes registers) (before : List Row) (row : Row) :
    Computes m (shapesStep before shapes row) (m.step before registers row) := by
  unfold shapesStep Interpretation.step
  cases row.branch with
  | load dst => exact h.update dst rfl
  | copy src dst =>
    refine h.update dst ?_
    rw [← h src, Shapes.operand]
    cases shapes src with
    | some shape => rfl
    | none => rfl
  | clear dst => exact h.update dst rfl
  | compare src dst =>
    dsimp only
    split_ifs with hzero
    · exact h
    · refine h.update dst ?_
      rw [← h src, ← h dst]
      rfl
  | skip => exact h

variable (m)

/-- After any instructions, the trees compute what the registers hold. -/
theorem computes_after (rows : List Row) :
    Computes m (shapesAfter rows) (m.registersAfter rows) := by
  induction rows using List.reverseRecOn with
  | nil => exact fun register => rfl
  | append_singleton rows row ih =>
    rw [shapesAfter_concat, registersAfter_concat]
    exact computes_step ih rows row

end Values

/-! ## The comparisons -/

theorem branch_of_mem_comparedFrom {before rows : List Row} {c : Compared}
    (h : c ∈ comparedFrom before rows) :
    c.row.branch = .compare c.src c.dst ∧ contentAfter c.before c.src ≠ .zero := by
  induction rows generalizing before with
  | nil => cases h
  | cons row rows ih =>
    rw [comparedFrom, List.mem_append, Option.mem_toList] at h
    rcases h with hkept | hmem
    · unfold keptAt at hkept
      split at hkept
      · rename_i src dst hbranch
        split_ifs at hkept with hzero
        obtain rfl := Option.some.inj hkept
        exact ⟨hbranch, hzero⟩
      · cases hkept
    · exact ih hmem

/-- The texts of a comparison are read as these trees only, and the trees compute what the
operands hold before the comparison and what the destination holds behind it. -/
structure Explains {α : Type} (m : Interpretation α) (c : Compared) (comparison : Comparison)
    (dst src : Shape) : Prop where
  dst_text : dst.ReadFrom comparison.dst
  src_text : src.ReadFrom comparison.src
  expr_text : Shape.ReadFrom (.node dst src) comparison.expr
  dst_value : m.value dst = m.registersAfter c.before c.dst
  src_value : m.value src = m.registersAfter c.before c.src
  expr_value : m.value (.node dst src) = m.registersAfter (c.before ++ [c.row]) c.dst

theorem registersAfter_of_mem_compared {α : Type} (m : Interpretation α) {rows : List Row}
    {c : Compared} (hc : c ∈ compared rows) :
    m.registersAfter (c.before ++ [c.row]) c.dst =
      m.max (m.registersAfter c.before c.dst) (m.registersAfter c.before c.src) := by
  obtain ⟨hbranch, hzero⟩ := branch_of_mem_comparedFrom hc
  rw [registersAfter_concat, Interpretation.step, hbranch]
  simp [hzero]

/-- For every log and every meaning of its loads, initial values and comparisons, each
reported expression has one reading, and this computes what the registers hold. -/
theorem analyze_explains {α : Type} (m : Interpretation α) (rows : List Row) :
    List.Forall₂ (fun c comparison => ∃ dst src, Explains m c comparison dst src)
      (compared rows) (analyze rows) := by
  rw [analyze_eq, List.forall₂_map_right_iff, List.forall₂_same]
  intro c hc
  have hdraws := draws_after c.before
  have hvalue := computes_after m c.before
  have hdst := hdraws.isLabelled_operand c.dst
  have hsrc := hdraws.isLabelled_operand c.src
  have hdstText : c.comparison.dst = _ := hdraws.value_eq c.dst
  have hsrcText : c.comparison.src = _ := hdraws.value_eq c.src
  have hexprText : c.comparison.expr = maxText c.comparison.dst c.comparison.src := rfl
  refine ⟨(shapesAfter c.before).operand c.dst, (shapesAfter c.before).operand c.src, ?_⟩
  constructor
  · rw [hdstText]
    exact hdst.readFrom
  · rw [hsrcText]
    exact hsrc.readFrom
  · rw [hexprText, hdstText, hsrcText, ← Shape.text_node]
    exact (hdst.node hsrc).readFrom
  · exact hvalue c.dst
  · exact hvalue c.src
  · rw [registersAfter_of_mem_compared m hc, ← hvalue c.dst, ← hvalue c.src]
    rfl

end Colata.CompareMaxShape
