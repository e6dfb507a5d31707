/-
# Combining a queue in pairs

Two trees are taken from the front of a queue, and the tree with both as subtrees is put
at its end, until one tree is left. The heights in the queue differ by one at most, the
lower ones in front, and so the last tree is as low as a binary tree with its leaves can
be, whether or not their number is a power of two.
-/

import Mathlib.Algebra.Order.Group.Nat
import Mathlib.Data.List.Perm.Basic
import Mathlib.Order.Bounds.Basic
import Mathlib.Tactic.Ring

namespace Colata.Math

universe u

/-- Binary trees with values at their leaves. -/
inductive PairTree (α : Type u)
  | leaf (value : α)
  | node (left right : PairTree α)
  deriving DecidableEq

namespace PairTree

variable {α : Type u}

def leaves : PairTree α → List α
  | .leaf value => [value]
  | .node left right => left.leaves ++ right.leaves

def height : PairTree α → ℕ
  | .leaf _ => 0
  | .node left right => max left.height right.height + 1

/-- How many inner nodes the tree has. -/
def nodes : PairTree α → ℕ
  | .leaf _ => 0
  | .node left right => left.nodes + right.nodes + 1

theorem length_leaves (tree : PairTree α) : tree.leaves.length = tree.nodes + 1 := by
  induction tree with
  | leaf value => rfl
  | node left right ihLeft ihRight =>
      rw [leaves, List.length_append, ihLeft, ihRight, nodes]
      omega

theorem length_leaves_le (tree : PairTree α) : tree.leaves.length ≤ 2 ^ tree.height := by
  induction tree with
  | leaf value => exact Nat.le_refl 1
  | node left right ihLeft ihRight =>
      have hleft : 2 ^ left.height ≤ 2 ^ max left.height right.height :=
        Nat.pow_le_pow_right (by decide) (le_max_left _ _)
      have hright : 2 ^ right.height ≤ 2 ^ max left.height right.height :=
        Nat.pow_le_pow_right (by decide) (le_max_right _ _)
      rw [leaves, List.length_append, height, pow_succ]
      omega

/-- Combine the first two trees of the queue while there are two. -/
def combine : List (PairTree α) → List (PairTree α)
  | left :: right :: queue => combine (queue ++ [.node left right])
  | queue => queue
termination_by queue => queue.length

theorem combine_singleton (tree : PairTree α) : combine [tree] = [tree] := by
  rw [combine]
  simp

/-- What is left of a queue with some trees is one tree with all their leaves. -/
theorem exists_combine {queue : List (PairTree α)} (hne : queue ≠ []) :
    ∃ tree, combine queue = [tree] ∧ tree.leaves.Perm (queue.flatMap leaves) := by
  induction queue using combine.induct with
  | case1 left right queue ih =>
      obtain ⟨tree, hcombine, hleaves⟩ :=
        ih (List.append_ne_nil_of_right_ne_nil queue (List.cons_ne_nil _ _))
      refine ⟨tree, by rw [combine, hcombine], hleaves.trans ?_⟩
      rw [List.flatMap_append, List.flatMap_singleton, List.flatMap_cons, List.flatMap_cons,
        leaves, ← List.append_assoc left.leaves]
      exact List.perm_append_comm
  | case2 queue h =>
      match queue with
      | [] => exact absurd rfl hne
      | [tree] => exact ⟨tree, combine_singleton tree, by simp⟩
      | left :: right :: rest => exact absurd rfl (h left right rest)

/-! ## Heights in the queue -/

/-- The heights are two neighbouring ones, the lower ones first, and a complete tree of
height `bound` has room for complete trees of these heights. -/
def Stepped (bound : ℕ) (heights : List ℕ) : Prop :=
  ∃ low lower higher, heights = List.replicate lower low ++ List.replicate higher (low + 1) ∧
    (lower + 2 * higher) * 2 ^ low ≤ 2 ^ bound

theorem stepped_replicate {count bound : ℕ} (h : count ≤ 2 ^ bound) :
    Stepped bound (List.replicate count 0) :=
  ⟨0, count, 0, by simp, by simpa using h⟩

/-- An odd number of powers of two leaves room for one more below a higher power. -/
theorem succ_mul_two_pow_le {count low bound : ℕ} (hcount : 0 < count)
    (h : (2 * count + 1) * 2 ^ low ≤ 2 ^ bound) : (2 * count + 2) * 2 ^ low ≤ 2 ^ bound := by
  have hpos : 0 < 2 ^ low := Nat.two_pow_pos low
  have hlt : low < bound := by
    apply (Nat.pow_lt_pow_iff_right (a := 2) (by decide)).mp
    calc 2 ^ low < 3 * 2 ^ low := by omega
      _ ≤ (2 * count + 1) * 2 ^ low := Nat.mul_le_mul_right _ (by omega)
      _ ≤ 2 ^ bound := h
  obtain ⟨more, rfl⟩ := Nat.exists_eq_add_of_lt hlt
  have hbound : 2 ^ (low + more + 1) = 2 * 2 ^ more * 2 ^ low := by ring
  rw [hbound] at h ⊢
  have heven : 2 * count + 1 ≤ 2 * 2 ^ more := Nat.le_of_mul_le_mul_right h hpos
  exact Nat.mul_le_mul_right _ (by omega)

/-- Combining the first two trees keeps the heights stepped. -/
theorem Stepped.combine {bound left right : ℕ} {heights : List ℕ}
    (h : Stepped bound (left :: right :: heights)) :
    Stepped bound (heights ++ [max left right + 1]) := by
  obtain ⟨low, lower, higher, hheights, hroom⟩ := h
  rcases lower with _ | _ | lower
  · rcases higher with _ | _ | higher
    · simp at hheights
    · simp at hheights
    · -- No lower trees are left.
      simp only [List.replicate_succ, List.replicate_zero, List.nil_append, List.cons.injEq]
        at hheights
      obtain ⟨rfl, rfl, rfl⟩ := hheights
      refine ⟨low + 1, higher, 1, by rw [max_self]; rfl, ?_⟩
      calc (higher + 2 * 1) * 2 ^ (low + 1)
          = (0 + 2 * (higher + 2)) * 2 ^ low := by ring
        _ ≤ 2 ^ bound := hroom
  · rcases higher with _ | higher
    · simp at hheights
    · -- The last lower tree is combined with a higher one.
      simp only [List.replicate_succ, List.replicate_zero, List.cons_append, List.nil_append,
        Nat.zero_add, List.cons.injEq] at hheights
      obtain ⟨rfl, rfl, rfl⟩ := hheights
      refine ⟨left + 1, higher, 1, by rw [max_eq_right (Nat.le_succ left)]; rfl, ?_⟩
      calc (higher + 2 * 1) * 2 ^ (left + 1)
          = (2 * (higher + 1) + 2) * 2 ^ left := by ring
        _ ≤ 2 ^ bound := by
            apply succ_mul_two_pow_le (Nat.succ_pos higher)
            rwa [Nat.add_comm]
  · simp only [List.replicate_succ, List.cons_append, List.cons.injEq] at hheights
    obtain ⟨rfl, rfl, rfl⟩ := hheights
    refine ⟨right, lower, higher + 1, ?_, ?_⟩
    · rw [max_self, List.replicate_succ', List.append_assoc]
    · calc (lower + 2 * (higher + 1)) * 2 ^ right
          = (lower + 1 + 1 + 2 * higher) * 2 ^ right := by ring
        _ ≤ 2 ^ bound := hroom

theorem Stepped.le {bound height : ℕ} (h : Stepped bound [height]) : height ≤ bound := by
  obtain ⟨low, lower, higher, hheights, hroom⟩ := h
  have hlength : lower + higher = 1 := by
    have hlength := congrArg List.length hheights
    simpa using hlength.symm
  apply (Nat.pow_le_pow_iff_right (a := 2) (by decide)).mp
  rcases lower with _ | lower
  · obtain rfl : higher = 1 := by omega
    obtain rfl : height = low + 1 := by simpa using hheights
    calc 2 ^ (low + 1) = (0 + 2 * 1) * 2 ^ low := by ring
      _ ≤ 2 ^ bound := hroom
  · obtain ⟨rfl, rfl⟩ : lower = 0 ∧ higher = 0 := by omega
    obtain rfl : height = low := by simpa using hheights
    simpa using hroom

theorem height_le_of_combine {queue : List (PairTree α)} {tree : PairTree α} {bound : ℕ}
    (hstepped : Stepped bound (queue.map height)) (hcombine : combine queue = [tree]) :
    tree.height ≤ bound := by
  induction queue using combine.induct with
  | case1 left right queue ih =>
      rw [PairTree.combine] at hcombine
      apply ih _ hcombine
      rw [List.map_append]
      exact hstepped.combine
  | case2 queue h =>
      match queue with
      | [] =>
          rw [PairTree.combine] at hcombine
          · cases hcombine
          · exact h
      | [last] =>
          rw [combine_singleton] at hcombine
          obtain rfl : last = tree := (List.cons.inj hcombine).1
          exact hstepped.le
      | left :: right :: rest => exact absurd rfl (h left right rest)

/-- Leaves are combined into a tree of the least height that has room for them. -/
theorem isLeast_height_combine {values : List α} {tree : PairTree α}
    (hcombine : combine (values.map leaf) = [tree]) :
    IsLeast {height | values.length ≤ 2 ^ height} tree.height := by
  have hne : values.map leaf ≠ [] := by
    intro hnil
    rw [hnil, combine] at hcombine
    · cases hcombine
    · intro _ _ _ h
      cases h
  obtain ⟨other, hother, hleaves⟩ := exists_combine hne
  obtain rfl : other = tree := (List.cons.inj (hother.symm.trans hcombine)).1
  constructor
  · have hlength : other.leaves.length = values.length := by
      rw [hleaves.length_eq, List.flatMap_map]
      simp [leaves]
    show values.length ≤ 2 ^ other.height
    rw [← hlength]
    exact other.length_leaves_le
  · intro bound hbound
    apply height_le_of_combine _ hcombine
    have hheights : (values.map leaf).map height = List.replicate values.length 0 := by
      rw [List.map_map, ← List.map_const]
      rfl
    rw [hheights]
    exact stepped_replicate hbound

end PairTree

end Colata.Math
