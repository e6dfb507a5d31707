/-
# Trees written in parentheses

An inner node is written as a word with its subtrees in parentheses behind it. As long as
no label has a parenthesis or a separator, the written text determines the tree.
-/

import Colata.Math.PairTree

namespace Colata.Math

universe u v w

namespace PairTree

variable {α : Type u} {β : Type v} {γ : Type w}

def map (f : α → β) : PairTree α → PairTree β
  | .leaf value => .leaf (f value)
  | .node left right => .node (left.map f) (right.map f)

/-- The value of a tree under an operation for its inner nodes. -/
def fold (combine : β → β → β) (f : α → β) : PairTree α → β
  | .leaf value => f value
  | .node left right => combine (left.fold combine f) (right.fold combine f)

end PairTree

/-- How inner nodes are written: `word opening left separator gap right closing`. -/
structure Bracketing (α : Type u) where
  word : List α
  opening : α
  separator : α
  gap : List α
  closing : α

namespace Bracketing

variable {α : Type u} (b : Bracketing α)

/-- The characters that words and labels are made of. -/
def IsPlain (c : α) : Prop := c ≠ b.opening ∧ c ≠ b.separator ∧ c ≠ b.closing

/-- The opening parenthesis is told from what ends a subtree. -/
structure WellFormed : Prop where
  word_plain : ∀ c ∈ b.word, b.IsPlain c
  opening_ne_separator : b.opening ≠ b.separator
  opening_ne_closing : b.opening ≠ b.closing

/-- A text behind a subtree: it is empty or starts with what ends a subtree. -/
def Ends (rest : List α) : Prop := ∀ c ∈ rest.head?, c = b.separator ∨ c = b.closing

def render : PairTree (List α) → List α
  | .leaf label => label
  | .node left right =>
      b.word ++ b.opening :: (render left ++ b.separator :: (b.gap ++ (render right ++ [b.closing])))

variable {b}

/-- A plain word ends where the first character that is not plain stands. -/
theorem append_inj_of_plain {first second rest rest' : List α}
    (hfirst : ∀ c ∈ first, b.IsPlain c) (hsecond : ∀ c ∈ second, b.IsPlain c)
    (hrest : ∀ c ∈ rest.head?, ¬ b.IsPlain c) (hrest' : ∀ c ∈ rest'.head?, ¬ b.IsPlain c)
    (h : first ++ rest = second ++ rest') : first = second ∧ rest = rest' := by
  induction first generalizing second with
  | nil =>
      cases second with
      | nil => exact ⟨rfl, h⟩
      | cons c second =>
          obtain rfl : rest = c :: (second ++ rest') := h
          exact absurd (hsecond c List.mem_cons_self) (hrest c rfl)
  | cons c first ih =>
      cases second with
      | nil =>
          obtain rfl : c :: (first ++ rest) = rest' := h
          exact absurd (hfirst c List.mem_cons_self) (hrest' c rfl)
      | cons d second =>
          obtain ⟨rfl, htail⟩ := List.cons.inj h
          obtain ⟨rfl, hsame⟩ := ih (fun x hx => hfirst x (List.mem_cons_of_mem c hx))
            (fun x hx => hsecond x (List.mem_cons_of_mem c hx)) htail
          exact ⟨rfl, hsame⟩

theorem Ends.not_isPlain {rest : List α} (h : b.Ends rest) : ∀ c ∈ rest.head?, ¬ b.IsPlain c := by
  rintro c hc ⟨_, hseparator, hclosing⟩
  exact (h c hc).elim hseparator hclosing

theorem ends_separator (rest : List α) : b.Ends (b.separator :: rest) := by
  intro c hc
  exact Or.inl (Option.mem_some_iff.mp hc).symm

theorem ends_closing (rest : List α) : b.Ends (b.closing :: rest) := by
  intro c hc
  exact Or.inr (Option.mem_some_iff.mp hc).symm

/-- A label is told from an inner node by what stands behind its first word. -/
theorem WellFormed.label_ne (h : b.WellFormed) {label rest : List α}
    (hlabel : ∀ c ∈ label, b.IsPlain c) (hrest : b.Ends rest) (inner : List α) :
    label ++ rest ≠ b.word ++ b.opening :: inner := by
  intro heq
  have hopening : ∀ c ∈ (b.opening :: inner).head?, ¬ b.IsPlain c := by
    rintro c hc ⟨hne, _⟩
    exact hne (Option.mem_some_iff.mp hc).symm
  obtain ⟨_, rfl⟩ := append_inj_of_plain hlabel h.word_plain hrest.not_isPlain hopening heq
  exact (hrest b.opening rfl).elim h.opening_ne_separator h.opening_ne_closing

/-- What is written of a tree ends where the tree ends. -/
theorem WellFormed.render_append_inj (h : b.WellFormed) {tree tree' : PairTree (List α)}
    (hlabels : ∀ label ∈ tree.leaves, ∀ c ∈ label, b.IsPlain c)
    (hlabels' : ∀ label ∈ tree'.leaves, ∀ c ∈ label, b.IsPlain c) {rest rest' : List α}
    (hrest : b.Ends rest) (hrest' : b.Ends rest')
    (heq : b.render tree ++ rest = b.render tree' ++ rest') : tree = tree' ∧ rest = rest' := by
  induction tree generalizing tree' rest rest' with
  | leaf label =>
      have hlabel := hlabels label List.mem_cons_self
      cases tree' with
      | leaf label' =>
          obtain ⟨rfl, hsame⟩ := append_inj_of_plain hlabel (hlabels' label' List.mem_cons_self)
            hrest.not_isPlain hrest'.not_isPlain heq
          exact ⟨rfl, hsame⟩
      | node left right =>
          rw [render, render, List.append_assoc b.word, List.cons_append] at heq
          exact absurd heq (h.label_ne hlabel hrest _)
  | node left right ihLeft ihRight =>
      cases tree' with
      | leaf label =>
          rw [render, render, List.append_assoc b.word, List.cons_append] at heq
          exact absurd heq.symm (h.label_ne (hlabels' label List.mem_cons_self) hrest' _)
      | node left' right' =>
          simp only [PairTree.leaves, List.mem_append] at hlabels hlabels'
          simp only [render, List.append_assoc, List.cons_append, List.append_cancel_left_eq,
            List.cons.injEq, true_and] at heq
          obtain ⟨rfl, hbehind⟩ := ihLeft (fun label hmem => hlabels label (Or.inl hmem))
            (fun label hmem => hlabels' label (Or.inl hmem)) (ends_separator _) (ends_separator _)
            heq
          have hright := List.append_cancel_left (List.cons.inj hbehind).2
          obtain ⟨rfl, hclosing⟩ := ihRight (fun label hmem => hlabels label (Or.inr hmem))
            (fun label hmem => hlabels' label (Or.inr hmem)) (ends_closing _) (ends_closing _)
            hright
          exact ⟨rfl, (List.cons.inj hclosing).2⟩

/-- Trees with plain labels are read back from what is written of them. -/
theorem WellFormed.render_injective (h : b.WellFormed) {tree tree' : PairTree (List α)}
    (hlabels : ∀ label ∈ tree.leaves, ∀ c ∈ label, b.IsPlain c)
    (hlabels' : ∀ label ∈ tree'.leaves, ∀ c ∈ label, b.IsPlain c)
    (heq : b.render tree = b.render tree') : tree = tree' := by
  have hnil : b.Ends ([] : List α) := fun c hc => by cases hc
  have happend : b.render tree ++ [] = b.render tree' ++ [] := by rw [heq]
  exact (h.render_append_inj hlabels hlabels' hnil hnil happend).1

end Bracketing

end Colata.Math
