/-
# Reducing a list with an associative and commutative operation

A left fold does not depend on how its operands are grouped. What a fold adds to its
start can be computed apart from it, two operands can be combined first, and a
combined operand can be put back at the end. A value gathers some operands if it does
what they do one by one. A fold that keeps the better of two values ends with the best
one, and one that never takes the lesser of two ends with a greatest one.
-/

import Mathlib.Data.List.Basic
import Mathlib.Order.Lattice

namespace Colata.Math

universe u

variable {α : Type u} {op : α → α → α}

section Reordering

variable [Std.Associative op] [Std.Commutative op]

/-- An operand of the start can be left for the end. -/
theorem foldl_op (list : List α) (start operand : α) :
    list.foldl op (op start operand) = op (list.foldl op start) operand := by
  induction list generalizing start with
  | nil => rfl
  | cons value list ih =>
      have hswap : op (op start operand) value = op (op start value) operand := by
        calc op (op start operand) value
            = op start (op operand value) := Std.Associative.assoc _ _ _
          _ = op start (op value operand) :=
            congrArg (op start) (Std.Commutative.comm operand value)
          _ = op (op start value) operand := (Std.Associative.assoc _ _ _).symm
      rw [List.foldl_cons, hswap, ih, List.foldl_cons]

/-- Taking two operands from the front and putting their combination at the end changes
nothing. -/
theorem foldl_append_combined (list : List α) (start first second : α) :
    (list ++ [op first second]).foldl op start = (first :: second :: list).foldl op start := by
  have hassoc : op (op (list.foldl op start) first) second =
      op (list.foldl op start) (op first second) := Std.Associative.assoc _ _ _
  rw [List.foldl_append, List.foldl_cons, List.foldl_nil, List.foldl_cons, List.foldl_cons,
    foldl_op, foldl_op, hassoc]

end Reordering

/-- A chain that takes its operands in from the left is the fold. -/
theorem foldl_flip [Std.Commutative op] (operands : List α) (start : α) :
    operands.foldl (fun result operand => op operand result) start = operands.foldl op start := by
  have hflip : (fun result operand => op operand result) = op := by
    funext result operand
    exact Std.Commutative.comm operand result
  rw [hflip]

section Gathers

/-- Taking the value in is taking in all the operands. -/
def Gathers (op : α → α → α) (operands : List α) (value : α) : Prop :=
  ∀ start, op start value = operands.foldl op start

theorem gathers_singleton (x : α) : Gathers op [x] x := fun _ => rfl

variable [Std.Associative op] {first second operands : List α} {x y value : α}

/-- What a fold from a neutral start computes gathers its operands. -/
theorem gathers_foldl {unit : α} (hunit : ∀ x, op x unit = x) (operands : List α) :
    Gathers op operands (operands.foldl op unit) := by
  intro start
  have hmoved : operands.foldl op (op start unit) = op start (operands.foldl op unit) :=
    List.foldl_assoc
  rw [← hmoved, hunit]

theorem Gathers.append (hfirst : Gathers op first x) (hsecond : Gathers op second y) :
    Gathers op (first ++ second) (op x y) := by
  intro start
  calc op start (op x y)
      = op (op start x) y := (Std.Associative.assoc start x y).symm
    _ = (first ++ second).foldl op start := by
        rw [hfirst, hsecond, List.foldl_append]

/-- One more operand can be taken in from the left. -/
theorem Gathers.concat [Std.Commutative op] (h : Gathers op operands value) (x : α) :
    Gathers op (operands ++ [x]) (op x value) := by
  have hswap : op x value = op value x := Std.Commutative.comm x value
  rw [hswap]
  exact h.append (gathers_singleton x)

/-- What has been taken in already adds nothing. -/
theorem Gathers.absorb [Std.IdempotentOp op] (h : Gathers op operands value) (start : α) :
    op (operands.foldl op start) value = operands.foldl op start := by
  rw [← h start]
  calc op (op start value) value
      = op start (op value value) := Std.Associative.assoc start value value
    _ = op start value := congrArg (op start) (Std.IdempotentOp.idempotent value)

end Gathers

/-- The first value, unless it is not as good as the second one. -/
def choose (asGood : α → α → Bool) (first second : α) : α :=
  if asGood first second then first else second

/-- Among values in an antisymmetric order, the fold keeps one that is as good as all. -/
theorem foldl_choose {asGood : α → α → Bool}
    (hantisymm : ∀ first second, asGood first second → asGood second first → first = second)
    {list : List α} {best start : α} (hstart : asGood best start)
    (hbest : ∀ value ∈ list, asGood best value) (hmem : best ∈ list ∨ start = best) :
    list.foldl (choose asGood) start = best := by
  induction list generalizing start with
  | nil => exact hmem.resolve_left List.not_mem_nil
  | cons value list ih =>
      have hvalue : asGood best value := hbest value List.mem_cons_self
      have hrest : ∀ other ∈ list, asGood best other :=
        fun other hother => hbest other (List.mem_cons_of_mem value hother)
      rw [List.foldl_cons]
      by_cases hfirst : asGood start value
      · have hkept : choose asGood start value = start := if_pos hfirst
        rw [hkept]
        apply ih hstart hrest
        rcases hmem with hmem | heq
        · rcases List.mem_cons.mp hmem with heq | hlater
          · exact Or.inr (hantisymm start best (heq ▸ hfirst) hstart)
          · exact Or.inl hlater
        · exact Or.inr heq
      · have htaken : choose asGood start value = value := if_neg hfirst
        rw [htaken]
        apply ih hvalue hrest
        rcases hmem with hmem | heq
        · exact (List.mem_cons.mp hmem).symm.imp_right Eq.symm
        · exact absurd (heq ▸ hvalue) hfirst

/-- A fold that takes one of two values, and never a lesser one, ends with a greatest value. -/
theorem foldl_greatest {β : Type u} [Preorder β] {key : α → β} {Good : α → Prop}
    (hop : ∀ first second, Good first → Good second →
      (op first second = first ∨ op first second = second) ∧
        key first ≤ key (op first second) ∧ key second ≤ key (op first second))
    {list : List α} {start : α} (hgood : ∀ value ∈ start :: list, Good value) :
    list.foldl op start ∈ start :: list ∧
      ∀ value ∈ start :: list, key value ≤ key (list.foldl op start) := by
  induction list generalizing start with
  | nil => simp
  | cons next list ih =>
      have hstart : Good start := hgood start List.mem_cons_self
      have hnext : Good next := hgood next (List.mem_cons_of_mem _ List.mem_cons_self)
      obtain ⟨htaken, hkeyStart, hkeyNext⟩ := hop start next hstart hnext
      have hrest : ∀ value ∈ op start next :: list, Good value := by
        intro value hvalue
        rcases List.mem_cons.mp hvalue with rfl | hlater
        · rcases htaken with h | h
          · rwa [h]
          · rwa [h]
        · exact hgood value (List.mem_cons_of_mem _ (List.mem_cons_of_mem _ hlater))
      obtain ⟨hmem, hgreatest⟩ := ih hrest
      rw [List.foldl_cons]
      constructor
      · rcases List.mem_cons.mp hmem with hfinal | hlater
        · rw [hfinal, List.mem_cons, List.mem_cons]
          exact htaken.imp_right Or.inl
        · exact List.mem_cons_of_mem _ (List.mem_cons_of_mem _ hlater)
      · have hfirst := hgreatest (op start next) List.mem_cons_self
        intro value hvalue
        rcases List.mem_cons.mp hvalue with rfl | hvalue
        · exact hkeyStart.trans hfirst
        · rcases List.mem_cons.mp hvalue with rfl | hlater
          · exact hkeyNext.trans hfirst
          · exact hgreatest value (List.mem_cons_of_mem _ hlater)

end Colata.Math
