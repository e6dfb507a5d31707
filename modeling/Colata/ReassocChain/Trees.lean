/-
# The trees that `reTree` emits

Each block of an emitted body takes the maximum of its elements in a binary tree of the
least possible height, and the result is combined with each of the trees in turn. The
trees come about in the queue of names: a name stands for the tree that its operands
were combined to.
-/

import Colata.Languages.Java.Operands
import Colata.ReassocChain.Generated

namespace Colata.ReassocChain

open Colata.Math Colata.Java Colata.Java.ForLoop

/-- The loaded elements of a block, as trees. -/
def elementTrees (start count : ℕ) : List (MaxTree Name) :=
  ((List.range' start count).map .element).map .leaf

/-- Code that combines the elements of block `i`, once they are loaded, into a tree of
maxima under the name `t last`. -/
structure CombinesInTree (inner i : ℕ) (code : Code) (last : ℕ) (tree : MaxTree Name) :
    Prop where
  onlyMax : ∀ statement ∈ code, ∃ name left right, statement = .var name (.max left right)
  operations : code.length = inner - 1
  traced : ∀ trees, trace trees (loads (i * inner) inner ++ code) (.t last) = some tree
  nodes : tree.nodes = inner - 1
  leaves : tree.leaves.Perm ((List.range' (i * inner) inner).map .element)
  height : IsLeast {height | inner ≤ 2 ^ height} tree.height

/-! ## The queue of names -/

/-- A loaded name stands for its element. -/
theorem trace_loads (trees : Name → Option (MaxTree Name)) (start : ℕ) {count k : ℕ}
    (hk : start ≤ k) (hlt : k < start + count) :
    trace trees (loads start count) (.v k) = some (.leaf (.element k)) := by
  induction count with
  | zero => omega
  | succ count ih =>
      have hsplit : loads start (count + 1) = loads start count ++ [load (start + count)] := by
        rw [loads, List.range_succ, List.map_append]
        rfl
      have hlast : trace trees (loads start (count + 1)) =
          Function.update (trace trees (loads start count)) (.v (start + count))
            (some (.leaf (.element (start + count)))) := by
        rw [hsplit, trace_append]
        rfl
      rw [hlast]
      by_cases heq : k = start + count
      · rw [heq, Function.update_self]
      · rw [Function.update_of_ne fun hname => heq (Name.v.inj hname)]
        exact ih (by omega)

theorem onlyMax_drain (names : List Name) (nameIndex : ℕ) :
    ∀ statement ∈ (drain names nameIndex).1,
      ∃ name left right, statement = .var name (.max left right) := by
  induction names, nameIndex using drain.induct with
  | case1 left right names nameIndex ih =>
      rw [drain]
      intro statement hmem
      cases List.mem_cons.mp hmem with
      | inl heq => exact ⟨_, _, _, heq⟩
      | inr hrest => exact ih statement hrest
  | case2 names nameIndex h =>
      rw [drain_eq_nil (length_le_one h)]
      intro statement hmem
      cases hmem

theorem length_drain (names : List Name) (nameIndex : ℕ) :
    (drain names nameIndex).1.length = names.length - 1 := by
  induction names, nameIndex using drain.induct with
  | case1 left right names nameIndex ih =>
      rw [drain, length_drain_step left right names nameIndex, List.length_cons, ih]
  | case2 names nameIndex h =>
      have hlength := length_le_one h
      rw [drain_eq_nil hlength, Nat.sub_eq_zero_of_le hlength]
      rfl

/-- Names that are still to come are not in the queue. -/
theorem notMem_concat {left right : Name} {names : List Name} {nameIndex : ℕ}
    (hnew : ∀ k, nameIndex ≤ k → .t k ∉ left :: right :: names) :
    ∀ k, nameIndex + 1 ≤ k → Name.t k ∉ names ++ [.t nameIndex] := by
  intro k hk hmem
  cases List.mem_append.mp hmem with
  | inl hold =>
      exact hnew k (by omega) (List.mem_cons_of_mem left (List.mem_cons_of_mem right hold))
  | inr hself =>
      have hindex : k = nameIndex := Name.t.inj (List.mem_singleton.mp hself)
      omega

/-- The names in the queue stand for the trees that are combined in pairs, and so the last
name stands for the last tree. -/
theorem exists_trace_drain {trees : Name → Option (MaxTree Name)} {names : List Name}
    {nameIndex : ℕ} {queue : List (MaxTree Name)} (hqueue : names.map trees = queue.map some)
    (hnew : ∀ k, nameIndex ≤ k → .t k ∉ names) (hnames : names ≠ [])
    (hlast : names.length = 1 → names = [.t (nameIndex - 1)]) :
    ∃ tree, PairTree.combine queue = [tree] ∧
      trace trees (drain names nameIndex).1 (.t (nameIndex + (names.length - 1) - 1)) =
        some tree := by
  induction names, nameIndex using drain.induct generalizing trees queue with
  | case1 left right names nameIndex ih =>
      obtain ⟨leftTree, rest, rfl, hleft, hrest⟩ := exists_value_cons hqueue
      obtain ⟨rightTree, rest, rfl, hright, hrest⟩ := exists_value_cons hrest
      let next := Function.update trees (.t nameIndex) (some (.node leftTree rightTree))
      have hstep : (Statement.var (.t nameIndex) (.max left right)).trace trees = next := by
        show Function.update trees (.t nameIndex) (Expr.trace trees (.max left right)) = next
        rw [Expr.trace, hleft, hright]
        rfl
      have hkept : names.map next = names.map trees := by
        apply List.map_congr_left
        intro name hname
        apply Function.update_of_ne
        intro heq
        exact hnew nameIndex (Nat.le_refl _)
          (List.mem_cons_of_mem left (List.mem_cons_of_mem right (heq ▸ hname)))
      have hnext : (names ++ [Name.t nameIndex]).map next =
          (rest ++ [PairTree.node leftTree rightTree]).map some := by
        rw [List.map_append, List.map_append, hkept, hrest, List.map_singleton,
          List.map_singleton]
        exact congrArg (rest.map some ++ [·]) (Function.update_self _ _ _)
      obtain ⟨tree, hcombine, htrace⟩ := ih hnext (notMem_concat hnew)
        (List.append_ne_nil_of_right_ne_nil names (List.cons_ne_nil _ _))
        (eq_singleton_of_length_concat names nameIndex)
      refine ⟨tree, by rw [PairTree.combine, hcombine], ?_⟩
      rw [drain, trace_cons, hstep, length_drain_step left right names nameIndex, ← htrace]
      congr 2
      omega
  | case2 names nameIndex h =>
      have hlength := length_le_one h
      have hone : names.length = 1 :=
        Nat.le_antisymm hlength (List.length_pos_of_ne_nil hnames)
      rw [drain_eq_nil hlength, hone]
      rw [hlast hone] at hqueue
      obtain ⟨tree, rest, rfl, htree, hrest⟩ := exists_value_cons hqueue
      rw [List.map_nil, eq_comm, List.map_eq_nil_iff] at hrest
      exact ⟨tree, by rw [hrest, PairTree.combine_singleton], htree⟩

/-! ## One block -/

/-- The code between the loads and the reduction of block `i`. -/
def treeCode (inner i : ℕ) : Code :=
  (drain ((List.range inner).map fun j => .v (i * inner + j)) (i * (inner - 1))).1

/-- The number of the last name of block `i`. -/
def treeLast (inner i : ℕ) : ℕ := i * (inner - 1) + (inner - 1) - 1

theorem treeBlock_eq (inner i : ℕ) : treeBlock inner i =
    loads (i * inner) inner ++ treeCode inner i ++ [reduceResult (treeLast inner i)] := rfl

/-- Behind its loads, a block leaves the tree of its elements under its last name. -/
theorem exists_trace_treeCode {inner : ℕ} (hinner : 2 ≤ inner) (i : ℕ) :
    ∃ tree, PairTree.combine (elementTrees (i * inner) inner) = [tree] ∧ ∀ trees,
      trace trees (loads (i * inner) inner ++ treeCode inner i) (.t (treeLast inner i)) =
        some tree := by
  let names := (List.range inner).map fun j => Name.v (i * inner + j)
  have hlength : names.length = inner := by
    rw [List.length_map, List.length_range]
  have hqueue : ∀ trees, names.map (trace trees (loads (i * inner) inner)) =
      (elementTrees (i * inner) inner).map some := by
    intro trees
    rw [elementTrees, List.range'_eq_map_range, List.map_map, List.map_map, List.map_map,
      List.map_map]
    apply List.map_congr_left
    intro j hj
    rw [List.mem_range] at hj
    exact trace_loads trees (i * inner) (Nat.le_add_right _ j) (by omega)
  have hnew : ∀ k, i * (inner - 1) ≤ k → Name.t k ∉ names := by
    intro k _ hmem
    obtain ⟨_, _, heq⟩ := List.mem_map.mp hmem
    cases heq
  have htraced : ∀ trees, ∃ tree, PairTree.combine (elementTrees (i * inner) inner) = [tree] ∧
      trace trees (loads (i * inner) inner ++ treeCode inner i) (.t (treeLast inner i)) =
        some tree := by
    intro trees
    have htrace := exists_trace_drain (hqueue trees) hnew
      (List.ne_nil_of_length_pos (by omega)) (by omega)
    rw [hlength] at htrace
    rw [trace_append]
    exact htrace
  obtain ⟨tree, hcombine, _⟩ := htraced fun _ => none
  refine ⟨tree, hcombine, fun trees => ?_⟩
  obtain ⟨other, hother, htrace⟩ := htraced trees
  obtain rfl : other = tree := (List.cons.inj (hother.symm.trans hcombine)).1
  exact htrace

/-- The tree of a block has each of its elements as a leaf once. -/
theorem leaves_perm {start count : ℕ} (hcount : 0 < count) {tree : MaxTree Name}
    (hcombine : PairTree.combine (elementTrees start count) = [tree]) :
    tree.leaves.Perm ((List.range' start count).map .element) := by
  have hne : elementTrees start count ≠ [] := by
    apply List.ne_nil_of_length_pos
    rwa [elementTrees, List.length_map, List.length_map, List.length_range']
  obtain ⟨other, hother, hperm⟩ := PairTree.exists_combine hne
  obtain rfl : other = tree := (List.cons.inj (hother.symm.trans hcombine)).1
  rw [elementTrees, List.flatMap_map] at hperm
  simpa [PairTree.leaves] using hperm

theorem exists_combinesInTree {inner : ℕ} (hinner : 2 ≤ inner) (i : ℕ) :
    ∃ tree, CombinesInTree inner i (treeCode inner i) (treeLast inner i) tree := by
  obtain ⟨tree, hcombine, htrace⟩ := exists_trace_treeCode hinner i
  have hleaves := leaves_perm (by omega) hcombine
  have hcount : tree.leaves.length = inner := by
    rw [hleaves.length_eq, List.length_map, List.length_range']
  have hheight := PairTree.isLeast_height_combine hcombine
  rw [List.length_map, List.length_range'] at hheight
  refine ⟨tree, onlyMax_drain _ _, ?_, htrace, ?_, hleaves, hheight⟩
  · rw [treeCode, length_drain, List.length_map, List.length_range]
  · have hnodes := tree.length_leaves
    omega

/-! ## The body -/

theorem notMem_names_loads_treeCode (inner i : ℕ) :
    .result ∉ declared (loads (i * inner) inner ++ treeCode inner i) ∧
      assigned (loads (i * inner) inner ++ treeCode inner i) = [] := by
  constructor
  · rw [declared_append, treeCode, declared_drain, List.mem_append, not_or]
    constructor
    · intro hmem
      obtain ⟨_, heq, _⟩ := mem_declared_loads.mp hmem
      cases heq
    · intro hmem
      obtain ⟨_, _, heq⟩ := List.mem_map.mp hmem
      cases heq
  · rw [assigned_append, loads_eq, assigned_declarations, treeCode, assigned_drain]
    rfl

/-- A block combines the result with its tree. -/
theorem trace_treeBlock {inner i : ℕ} {tree result : MaxTree Name}
    (h : CombinesInTree inner i (treeCode inner i) (treeLast inner i) tree)
    {trees : Name → Option (MaxTree Name)} (hresult : trees .result = some result) :
    trace trees (treeBlock inner i) .result = some (.node result tree) := by
  obtain ⟨hdeclared, hassigned⟩ := notMem_names_loads_treeCode inner i
  have hkept : trace trees (loads (i * inner) inner ++ treeCode inner i) .result = some result := by
    rw [trace_of_notMem hdeclared (by rw [hassigned]; exact List.not_mem_nil), hresult]
  have hreduce : ∀ before : Name → Option (MaxTree Name),
      trace before [reduceResult (treeLast inner i)] =
        Function.update before .result
          (Expr.trace before (.max .result (.t (treeLast inner i)))) := fun _ => rfl
  rw [treeBlock_eq, trace_append, hreduce, Function.update_self, Expr.trace, hkept,
    h.traced trees]
  rfl

theorem assigned_treeBlocks (outer inner : ℕ) :
    assigned ((List.range outer).flatMap (treeBlock inner)) = List.replicate outer .result := by
  induction outer with
  | zero => rfl
  | succ outer ih =>
      rw [List.range_succ, List.flatMap_append, List.flatMap_singleton, assigned_append, ih,
        treeBlock_eq, assigned_append, (notMem_names_loads_treeCode _ _).2, List.replicate_succ']
      rfl

/-- The result is combined with the tree of one block after the other. -/
theorem trace_treeBlocks {inner : ℕ} {tree : ℕ → MaxTree Name}
    (h : ∀ i, CombinesInTree inner i (treeCode inner i) (treeLast inner i) (tree i))
    (outer : ℕ) :
    trace (initialTrees [.result]) ((List.range outer).flatMap (treeBlock inner)) .result =
      some (((List.range outer).map tree).foldl .node (.leaf (.before .result))) := by
  induction outer with
  | zero => rfl
  | succ outer ih =>
      rw [List.range_succ, List.flatMap_append, List.flatMap_singleton, trace_append,
        trace_treeBlock (h outer) ih, List.map_append, List.foldl_append]
      rfl

/-- The body of `reTree` consists of blocks. Each of them loads its elements, combines them
in a tree of least height and takes the maximum of the result and the tree. Nothing else
is assigned to the result, and a turn that runs leaves it with the value of these maxima. -/
theorem reTree_balanced (outer : ℕ) {inner : ℕ} (hinner : 2 ≤ inner) :
    ∃ (code : ℕ → Code) (last : ℕ → ℕ) (tree : ℕ → MaxTree Name),
      (reTree outer inner).body = (List.range outer).flatMap (fun i =>
        loads (i * inner) inner ++ code i ++ [reduceResult (last i)]) ∧
      (∀ i, CombinesInTree inner i (code i) (last i) (tree i)) ∧
      assigned (reTree outer inner).body = List.replicate outer .result ∧
      trace (initialTrees [.result]) (reTree outer inner).body .result =
        some (((List.range outer).map tree).foldl .node (.leaf (.before .result))) ∧
      ∀ read result final,
        exec read (start .result result) (reTree outer inner).body = .ok final →
          final .result = treeValue read (start .result result)
            (((List.range outer).map tree).foldl .node (.leaf (.before .result))) := by
  have hbody : (reTree outer inner).body = (List.range outer).flatMap (treeBlock inner) := by
    rw [reTree, foldl_reTreeBlock]
  choose tree htree using fun i => exists_combinesInTree hinner i
  have htrace : trace (initialTrees [.result]) (reTree outer inner).body .result =
      some (((List.range outer).map tree).foldl .node (.leaf (.before .result))) :=
    hbody ▸ trace_treeBlocks htree outer
  refine ⟨treeCode inner, treeLast inner, tree, hbody, htree, ?_, htrace, ?_⟩
  · rw [hbody, assigned_treeBlocks]
  · intro read result final hexec
    exact ((agrees_initialTrees [.result]).exec hexec _ _ htrace).symm

/-- Three elements, whose number is no power of two. -/
theorem reTree_balanced_two_three :
    ∃ (code : ℕ → Code) (last : ℕ → ℕ) (tree : ℕ → MaxTree Name),
      (reTree 2 3).body = (List.range 2).flatMap (fun i =>
        loads (i * 3) 3 ++ code i ++ [reduceResult (last i)]) ∧
      (∀ i, CombinesInTree 3 i (code i) (last i) (tree i)) ∧
      assigned (reTree 2 3).body = List.replicate 2 .result ∧
      trace (initialTrees [.result]) (reTree 2 3).body .result =
        some (((List.range 2).map tree).foldl .node (.leaf (.before .result))) ∧
      ∀ read result final, exec read (start .result result) (reTree 2 3).body = .ok final →
        final .result = treeValue read (start .result result)
          (((List.range 2).map tree).foldl .node (.leaf (.before .result))) :=
  reTree_balanced 2 (by decide)

end Colata.ReassocChain
