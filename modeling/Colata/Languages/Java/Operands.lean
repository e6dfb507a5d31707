/-
# What the names of a body stand for

A straight-line body builds a tree of `Math.max` operations under each of its names. Its
leaves are array elements and the values that names had before the body. A body that
runs gives every name the value of its tree.
-/

import Colata.Languages.Java.ForLoop
import Colata.Math.PairTree

namespace Colata.Java.ForLoop

open Colata.Math

/-- What a tree of operations starts from. -/
inductive Operand (ν : Type)
  | element (offset : ℕ)
  | before (name : ν)
  deriving DecidableEq

/-- A tree of `Math.max` operations. -/
abbrev MaxTree (ν : Type) := PairTree (Operand ν)

variable {ν : Type}

/-- The tree of a right-hand side, where the names it reads stand for these trees. -/
def Expr.trace (trees : ν → Option (MaxTree ν)) : Expr ν → Option (MaxTree ν)
  | .element offset => some (.leaf (.element offset))
  | .max left right => do
      let leftTree ← trees left
      let rightTree ← trees right
      some (.node leftTree rightTree)
  | .copy name => trees name

/-- The value of a tree. -/
def treeValue (read : ℕ → Except Failure ℤ) (env : Env ν) : MaxTree ν → Option ℤ
  | .leaf (.element offset) => (read offset).toOption
  | .leaf (.before name) => env name
  | .node left right => do
      let leftValue ← treeValue read env left
      let rightValue ← treeValue read env right
      some (max leftValue rightValue)

/-- The names that stand for a tree have its value. -/
def Agrees (read : ℕ → Except Failure ℤ) (start : Env ν) (trees : ν → Option (MaxTree ν))
    (env : Env ν) : Prop :=
  ∀ name tree, trees name = some tree → treeValue read start tree = env name

theorem Env.eq_some_of_get {env : Env ν} {name : ν} {x : ℤ} (h : env.get name = .ok x) :
    env name = some x := by
  unfold Env.get at h
  cases henv : env name with
  | none =>
      rw [henv] at h
      cases h
  | some y =>
      rw [henv] at h
      cases h
      rfl

/-- A right-hand side has the value of its tree. -/
theorem Agrees.expr {read : ℕ → Except Failure ℤ} {start env : Env ν}
    {trees : ν → Option (MaxTree ν)} (h : Agrees read start trees env) {value : Expr ν} {x : ℤ}
    {tree : MaxTree ν} (hvalue : value.eval read env = .ok x)
    (htree : value.trace trees = some tree) : treeValue read start tree = some x := by
  cases value with
  | element offset =>
      obtain rfl := Option.some.inj htree
      have hread : read offset = .ok x := hvalue
      rw [treeValue, hread]
      rfl
  | copy name => rw [h name tree htree, Env.eq_some_of_get hvalue]
  | max left right =>
      simp only [Expr.trace, Option.bind_eq_bind, Option.bind_eq_some_iff] at htree
      obtain ⟨leftTree, hleft, rightTree, hright, hnode⟩ := htree
      obtain rfl := Option.some.inj hnode
      rw [Expr.eval, bind_eq_ok] at hvalue
      obtain ⟨y, hy, hvalue⟩ := hvalue
      rw [bind_eq_ok] at hvalue
      obtain ⟨z, hz, hvalue⟩ := hvalue
      cases hvalue
      rw [treeValue, h left leftTree hleft, h right rightTree hright, Env.eq_some_of_get hy,
        Env.eq_some_of_get hz]
      rfl

variable [DecidableEq ν]

def Statement.trace (trees : ν → Option (MaxTree ν)) :
    Statement ν → ν → Option (MaxTree ν)
  | .var name value => Function.update trees name (value.trace trees)
  | .assign name value => Function.update trees name (value.trace trees)
  | .comment _ => trees

/-- The trees that the names stand for after the code. -/
def trace (trees : ν → Option (MaxTree ν)) (code : List (Statement ν)) :
    ν → Option (MaxTree ν) :=
  code.foldl Statement.trace trees

/-- Before a body, a name stands for its own value. -/
def initialTrees (known : List ν) (name : ν) : Option (MaxTree ν) :=
  if name ∈ known then some (.leaf (.before name)) else none

section Trace

variable {trees : ν → Option (MaxTree ν)} {first second code : List (Statement ν)}

theorem trace_append : trace trees (first ++ second) = trace (trace trees first) second :=
  List.foldl_append

theorem trace_cons (statement : Statement ν) :
    trace trees (statement :: code) = trace (statement.trace trees) code := rfl

/-- Names that are neither declared nor assigned keep their trees. -/
theorem trace_of_notMem {name : ν} (hdeclared : name ∉ declared code)
    (hassigned : name ∉ assigned code) : trace trees code name = trees name := by
  induction code generalizing trees with
  | nil => rfl
  | cons statement code ih =>
      rw [trace_cons]
      cases statement with
      | comment text => exact ih hdeclared hassigned
      | var other value =>
          simp only [declared, List.filterMap_cons, List.mem_cons, not_or] at hdeclared
          rw [ih hdeclared.2 hassigned]
          exact Function.update_of_ne hdeclared.1 _ _
      | assign other value =>
          simp only [assigned, List.filterMap_cons, List.mem_cons, not_or] at hassigned
          rw [ih hdeclared hassigned.2]
          exact Function.update_of_ne hassigned.1 _ _

variable {read : ℕ → Except Failure ℤ} {start env final : Env ν}

theorem agrees_initialTrees (known : List ν) : Agrees read start (initialTrees known) start := by
  intro name tree htree
  unfold initialTrees at htree
  split_ifs at htree
  obtain rfl := Option.some.inj htree
  rfl

/-- One statement keeps the agreement. -/
theorem Agrees.statement (h : Agrees read start trees env) {statement : Statement ν}
    (hexec : statement.exec read env = .ok final) :
    Agrees read start (statement.trace trees) final := by
  have hupdate : ∀ {name : ν} {value : Expr ν},
      (statement = .var name value ∨ statement = .assign name value) →
      Agrees read start (Function.update trees name (value.trace trees)) final := by
    intro name value hstatement
    obtain ⟨x, hx, rfl⟩ := (exec_eq_ok hstatement).mp hexec
    intro other tree htree
    by_cases hself : other = name
    · subst hself
      rw [Function.update_self] at htree ⊢
      exact h.expr hx htree
    · rw [Function.update_of_ne hself] at htree ⊢
      exact h other tree htree
  cases statement with
  | comment text =>
      cases hexec
      exact h
  | var name value => exact hupdate (Or.inl rfl)
  | assign name value => exact hupdate (Or.inr rfl)

/-- After a body that runs, the names have the values of their trees. -/
theorem Agrees.exec (h : Agrees read start trees env) (hexec : exec read env code = .ok final) :
    Agrees read start (trace trees code) final := by
  induction code generalizing trees env with
  | nil =>
      cases hexec
      exact h
  | cons statement code ih =>
      rw [exec_cons, bind_eq_ok] at hexec
      obtain ⟨next, hstep, hrest⟩ := hexec
      exact ih (h.statement hstep) hrest

end Trace

end Colata.Java.ForLoop
