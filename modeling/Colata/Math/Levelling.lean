/-
# Levellings of a digraph

A node is grounded when it is accessible along the edges that lead to it, that is,
when no infinite chain of predecessors ends there. In a digraph with finitely many
sources this is the same as not lying downstream of a cycle. A levelling lists
nodes so that every predecessor of a node stands in an earlier level and no node
whose predecessors are all listed is missing; it lists exactly the grounded nodes.
-/

import Mathlib.Data.Fintype.Card
import Mathlib.Data.List.Nodup
import Mathlib.Data.Set.Finite.Basic
import Mathlib.Logic.Relation
import Mathlib.Order.Bounds.Basic
import Mathlib.Order.WellFounded

namespace Colata.Math

open Relation

universe u

variable {α : Type u} {edge : α → α → Prop}

/-- A walk of this many edges ends at the node. -/
inductive WalkTo (edge : α → α → Prop) : ℕ → α → Prop
  | nil (node : α) : WalkTo edge 0 node
  | snoc {length : ℕ} {source target : α} :
      WalkTo edge length source → edge source target → WalkTo edge (length + 1) target

/-- No closed walk of positive length. -/
def Acyclic (edge : α → α → Prop) : Prop := ∀ node, ¬ TransGen edge node node

/-- Reachable from a node that lies on a cycle. -/
def BelowCycle (edge : α → α → Prop) (node : α) : Prop :=
  ∃ start, TransGen edge start start ∧ ReflTransGen edge start node

theorem acc_of_reflTransGen {first second : α} (hacc : Acc edge second)
    (hpath : ReflTransGen edge first second) : Acc edge first := by
  induction hpath using ReflTransGen.head_induction_on with
  | refl => exact hacc
  | head hedge _ ih => exact ih.inv hedge

theorem not_transGen_self_of_acc {node : α} (hacc : Acc edge node) :
    ¬ TransGen edge node node := by
  have htrans : Acc (TransGen edge) node := hacc.transGen
  induction htrans with
  | intro node _ ih =>
      intro hcycle
      exact ih node hcycle (hacc.inv_of_transGen hcycle) hcycle

/-- With finitely many sources, a node is grounded exactly when it does not lie
downstream of a cycle. -/
theorem acc_iff_not_belowCycle (hfinite : {source | ∃ target, edge source target}.Finite)
    (node : α) : Acc edge node ↔ ¬ BelowCycle edge node := by
  constructor
  · rintro hacc ⟨start, hcycle, hpath⟩
    exact not_transGen_self_of_acc (acc_of_reflTransGen hacc hpath) hcycle
  · intro hnot
    -- The nodes upstream of `node` are finitely many, and the walks among them never close.
    let Upstream := {start // ReflTransGen edge start node}
    have hsubset : {start | ReflTransGen edge start node} ⊆
        insert node {source | ∃ target, edge source target} := by
      intro start hstart
      rcases ReflTransGen.cases_head hstart with rfl | ⟨next, hedge, _⟩
      · exact Set.mem_insert _ _
      · exact Set.mem_insert_of_mem _ ⟨next, hedge⟩
    have : Finite Upstream := ((hfinite.insert node).subset hsubset).to_subtype
    let walk : Upstream → Upstream → Prop := fun first second => TransGen edge first.1 second.1
    have : IsTrans Upstream walk := ⟨fun _ _ _ => TransGen.trans⟩
    have : Std.Irrefl walk := ⟨fun start hcycle => hnot ⟨start.1, hcycle, start.2⟩⟩
    have hwell : WellFounded walk := Finite.wellFounded_of_trans_of_irrefl walk
    have hacc : ∀ start : Upstream, Acc edge start.1 := fun start => by
      induction start using hwell.induction with
      | _ start ih =>
          refine ⟨_, fun source hedge => ?_⟩
          exact ih ⟨source, start.2.head hedge⟩ (TransGen.single hedge)
    exact hacc ⟨node, ReflTransGen.refl⟩

theorem acc_of_acyclic (hfinite : {source | ∃ target, edge source target}.Finite)
    (hacyclic : Acyclic edge) (node : α) : Acc edge node :=
  (acc_iff_not_belowCycle hfinite node).mpr fun ⟨start, hcycle, _⟩ => hacyclic start hcycle

/-- A digraph whose edges climb a rank has no cycle. -/
theorem acyclic_of_rank (rank : α → ℕ) (hrank : ∀ source target, edge source target →
    rank source < rank target) : Acyclic edge := by
  have hclimb : ∀ {first second}, TransGen edge first second → rank first < rank second := by
    intro first second hwalk
    induction hwalk with
    | single hedge => exact hrank _ _ hedge
    | tail _ hedge ih => exact ih.trans (hrank _ _ hedge)
  exact fun node hcycle => (hclimb hcycle).false

/-- A walk either avoids the nodes with `avoided` as sources or passes through one. -/
theorem transGen_avoids_or_passes (avoided : α → Prop) {first second : α}
    (hwalk : TransGen edge first second) :
    TransGen (fun source target => edge source target ∧ ¬ avoided source) first second ∨
      ∃ middle, avoided middle ∧ ReflTransGen edge first middle ∧
        TransGen edge middle second := by
  induction hwalk using TransGen.head_induction_on with
  | @single node hedge =>
      by_cases hnode : avoided node
      · exact Or.inr ⟨node, hnode, ReflTransGen.refl, TransGen.single hedge⟩
      · exact Or.inl (TransGen.single ⟨hedge, hnode⟩)
  | @head node next hedge hrest ih =>
      by_cases hnode : avoided node
      · exact Or.inr ⟨node, hnode, ReflTransGen.refl, hrest.head hedge⟩
      · rcases ih with hclean | ⟨middle, hmiddle, hto, hfrom⟩
        · exact Or.inl (hclean.head ⟨hedge, hnode⟩)
        · exact Or.inr ⟨middle, hmiddle, hto.head hedge, hfrom⟩

/-! ## Levels -/

/-- `node` stands in the level with this index. -/
def AtLevel (levels : List (List α)) (index : ℕ) (node : α) : Prop :=
  ∃ level, levels[index]? = some level ∧ node ∈ level

/-- `first` stands in a strictly earlier level than `second`. -/
def Earlier (levels : List (List α)) (first second : α) : Prop :=
  ∃ index later, index < later ∧ AtLevel levels index first ∧ AtLevel levels later second

theorem mem_flatten_iff_atLevel {levels : List (List α)} {node : α} :
    node ∈ levels.flatten ↔ ∃ index, AtLevel levels index node := by
  rw [List.mem_flatten]
  constructor
  · rintro ⟨level, hlevel, hnode⟩
    obtain ⟨index, hindex⟩ := List.mem_iff_getElem?.mp hlevel
    exact ⟨index, level, hindex, hnode⟩
  · rintro ⟨index, level, hindex, hnode⟩
    exact ⟨level, List.mem_of_getElem? hindex, hnode⟩

theorem AtLevel.lt_length {levels : List (List α)} {index : ℕ} {node : α}
    (h : AtLevel levels index node) : index < levels.length := by
  obtain ⟨level, hlevel, _⟩ := h
  exact (List.getElem?_eq_some_iff.mp hlevel).1

/-- Levels without repetitions hold every node once. -/
theorem AtLevel.unique {levels : List (List α)} (hnodup : levels.flatten.Nodup)
    {first second : ℕ} {node : α} (hfirst : AtLevel levels first node)
    (hsecond : AtLevel levels second node) : first = second := by
  obtain ⟨left, hleft, hmem⟩ := hfirst
  obtain ⟨right, hright, hmem'⟩ := hsecond
  obtain ⟨hlt, rfl⟩ := List.getElem?_eq_some_iff.mp hleft
  obtain ⟨hlt', rfl⟩ := List.getElem?_eq_some_iff.mp hright
  have hdisjoint := (List.nodup_flatten.mp hnodup).2
  rw [List.pairwise_iff_getElem] at hdisjoint
  rcases Nat.lt_trichotomy first second with h | h | h
  · exact absurd hmem' (hdisjoint first second hlt hlt' h hmem)
  · exact h
  · exact absurd hmem (hdisjoint second first hlt' hlt h hmem')

theorem AtLevel.of_forall₂_perm {levels other : List (List α)}
    (hlevels : List.Forall₂ List.Perm levels other) {index : ℕ} {node : α}
    (h : AtLevel levels index node) : AtLevel other index node := by
  obtain ⟨level, hlevel, hmem⟩ := h
  induction hlevels generalizing index with
  | nil => simp at hlevel
  | cons hperm _ ih =>
      cases index with
      | zero =>
          obtain rfl : _ = level := Option.some.inj hlevel
          exact ⟨_, rfl, hperm.mem_iff.mp hmem⟩
      | succ index => exact ih hlevel

/-- Reordering nodes inside their levels keeps the order between levels. -/
theorem Earlier.of_forall₂_perm {levels other : List (List α)}
    (hlevels : List.Forall₂ List.Perm levels other) {first second : α}
    (h : Earlier levels first second) : Earlier other first second := by
  obtain ⟨index, later, hlt, hfirst, hsecond⟩ := h
  exact ⟨index, later, hlt, hfirst.of_forall₂_perm hlevels, hsecond.of_forall₂_perm hlevels⟩

theorem atLevel_append_left {levels more : List (List α)} {index : ℕ}
    (h : index < levels.length) {node : α} :
    AtLevel (levels ++ more) index node ↔ AtLevel levels index node := by
  simp [AtLevel, List.getElem?_append_left h]

theorem atLevel_append_right {levels more : List (List α)} {index : ℕ} {node : α} :
    AtLevel (levels ++ more) (levels.length + index) node ↔ AtLevel more index node := by
  simp [AtLevel, List.getElem?_append_right (Nat.le_add_right _ _)]

theorem mem_flatten_take_iff {levels : List (List α)} {index : ℕ} {node : α} :
    node ∈ (levels.take index).flatten ↔ ∃ earlier < index, AtLevel levels earlier node := by
  rw [mem_flatten_iff_atLevel]
  constructor
  · rintro ⟨earlier, level, hlevel, hnode⟩
    rw [List.getElem?_take] at hlevel
    split_ifs at hlevel with hlt
    exact ⟨earlier, hlt, level, hlevel, hnode⟩
  · rintro ⟨earlier, hlt, level, hlevel, hnode⟩
    exact ⟨earlier, level, by rw [List.getElem?_take, if_pos hlt, hlevel], hnode⟩

/-- What stands earlier than a node stands in the levels before the node's own. -/
theorem Earlier.mem_flatten_take {levels : List (List α)} (hnodup : levels.flatten.Nodup)
    {first second : α} (h : Earlier levels first second) {index : ℕ}
    (hsecond : AtLevel levels index second) : first ∈ (levels.take index).flatten := by
  obtain ⟨earlier, later, hlt, hfirst, hlater⟩ := h
  rw [hlater.unique hnodup hsecond] at hlt
  exact mem_flatten_take_iff.mpr ⟨earlier, hlt, hfirst⟩

/-- What stands earlier than a node comes before it when the levels are listed. -/
theorem Earlier.mem_takeWhile [DecidableEq α] {levels : List (List α)}
    (hnodup : levels.flatten.Nodup) {first second : α} (h : Earlier levels first second) :
    first ∈ levels.flatten.takeWhile (· ≠ second) := by
  obtain ⟨_, index, _, _, hsecond⟩ := id h
  have hsplit : (levels.take index).flatten ++ (levels.drop index).flatten = levels.flatten := by
    rw [← List.flatten_append, List.take_append_drop]
  have hbefore : ∀ node ∈ (levels.take index).flatten, decide (node ≠ second) = true := by
    intro node hnode
    apply decide_eq_true
    rintro rfl
    obtain ⟨earlier, hlt, hat⟩ := mem_flatten_take_iff.mp hnode
    exact hlt.ne (hat.unique hnodup hsecond)
  rw [← hsplit, List.takeWhile_append_of_pos hbefore]
  exact List.mem_append_left _ (h.mem_flatten_take hnodup hsecond)

theorem Earlier.cons {levels : List (List α)} {first second : α} (h : Earlier levels first second)
    (level : List α) : Earlier (level :: levels) first second := by
  obtain ⟨index, later, hlt, hfirst, hsecond⟩ := h
  exact ⟨index + 1, later + 1, Nat.succ_lt_succ hlt, hfirst, hsecond⟩

/-- Levels without delay: a node that is not in the first level has a predecessor in the
level right before its own. -/
def Prompt (edge : α → α → Prop) (levels : List (List α)) : Prop :=
  ∀ index node, AtLevel levels (index + 1) node →
    ∃ source, edge source node ∧ AtLevel levels index source

theorem Prompt.walkTo {levels : List (List α)} (h : Prompt edge levels) {index : ℕ} {node : α}
    (hnode : AtLevel levels index node) : WalkTo edge index node := by
  induction index generalizing node with
  | zero => exact WalkTo.nil node
  | succ index ih =>
      obtain ⟨source, hedge, hsource⟩ := h index node hnode
      exact (ih hsource).snoc hedge

theorem Prompt.of_append {levels more : List (List α)} (h : Prompt edge (levels ++ more)) :
    Prompt edge levels := by
  intro index node hnode
  have hlength := hnode.lt_length
  obtain ⟨source, hedge, hsource⟩ := h index node ((atLevel_append_left hlength).mpr hnode)
  exact ⟨source, hedge, (atLevel_append_left (Nat.lt_of_succ_lt hlength)).mp hsource⟩

/-- Levels in which predecessors come first and no listed-out node is missing. -/
structure Levelling (edge : α → α → Prop) (ids : List α) (levels : List (List α)) : Prop where
  nodup : levels.flatten.Nodup
  subset : ∀ node ∈ levels.flatten, node ∈ ids
  predecessor : ∀ index node, AtLevel levels index node → ∀ source, edge source node →
    ∃ earlier < index, AtLevel levels earlier source
  complete : ∀ node ∈ ids, (∀ source, edge source node → source ∈ levels.flatten) →
    node ∈ levels.flatten

namespace Levelling

variable {ids : List α} {levels : List (List α)}

/-- A levelling lists exactly the grounded nodes. -/
theorem mem_iff_acc (h : Levelling edge ids levels)
    (hsource : ∀ source target, edge source target → source ∈ ids) {node : α}
    (hnode : node ∈ ids) : node ∈ levels.flatten ↔ Acc edge node := by
  constructor
  · intro hmem
    obtain ⟨index, hindex⟩ := mem_flatten_iff_atLevel.mp hmem
    induction index using Nat.strong_induction_on generalizing node with
    | _ index ih =>
        refine ⟨_, fun source hedge => ?_⟩
        obtain ⟨earlier, hlt, hat⟩ := h.predecessor index node hindex source hedge
        exact ih earlier hlt (hsource source node hedge)
          (mem_flatten_iff_atLevel.mpr ⟨earlier, hat⟩) hat
  · intro hacc
    induction hacc with
    | intro node _ ih =>
        exact h.complete node hnode fun source hedge =>
          ih source hedge (hsource source node hedge)

/-- If all nodes the levelling leaves out are appended as one last level, an edge
leads from an earlier to a later level exactly when its source is grounded. -/
theorem earlier_append_iff (h : Levelling edge ids levels)
    (hsource : ∀ source target, edge source target → source ∈ ids) {last : List (List α)}
    (hlast : last.length ≤ 1)
    (hrest : ∀ node, node ∈ last.flatten ↔ node ∈ ids ∧ node ∉ levels.flatten)
    {source target : α} (hedge : edge source target) (htarget : target ∈ ids) :
    Earlier (levels ++ last) source target ↔ Acc edge source := by
  rw [← h.mem_iff_acc hsource (hsource source target hedge)]
  constructor
  · rintro ⟨index, later, hlt, hfirst, hsecond⟩
    by_contra hnot
    have hbound := hsecond.lt_length
    rw [List.length_append] at hbound
    have hindex : index < levels.length := by omega
    exact hnot (mem_flatten_iff_atLevel.mpr ⟨index, (atLevel_append_left hindex).mp hfirst⟩)
  · intro hmem
    obtain ⟨index, hindex⟩ := mem_flatten_iff_atLevel.mp hmem
    by_cases htgt : target ∈ levels.flatten
    · obtain ⟨later, hlater⟩ := mem_flatten_iff_atLevel.mp htgt
      obtain ⟨earlier, hlt, hat⟩ := h.predecessor later target hlater source hedge
      exact ⟨earlier, later, hlt, (atLevel_append_left hat.lt_length).mpr hat,
        (atLevel_append_left hlater.lt_length).mpr hlater⟩
    · obtain ⟨later, hlater⟩ := mem_flatten_iff_atLevel.mp ((hrest target).mpr ⟨htarget, htgt⟩)
      exact ⟨index, levels.length + later, Nat.lt_add_right _ hindex.lt_length,
        (atLevel_append_left hindex.lt_length).mpr hindex, atLevel_append_right.mpr hlater⟩

theorem length_le_of_walkTo (h : Levelling edge ids levels) {length index : ℕ} {node : α}
    (hwalk : WalkTo edge length node) (hnode : AtLevel levels index node) : length ≤ index := by
  induction hwalk generalizing index with
  | nil => exact Nat.zero_le index
  | snoc _ hedge ih =>
      obtain ⟨earlier, hlt, hsource⟩ := h.predecessor index _ hnode _ hedge
      exact (Nat.succ_le_succ (ih hsource)).trans hlt

/-- In a levelling without delay the index of a node's level is the length of the
longest walk that ends at the node. -/
theorem isGreatest_walkTo (h : Levelling edge ids levels) (hprompt : Prompt edge levels)
    {index : ℕ} {node : α} (hnode : AtLevel levels index node) :
    IsGreatest {length | WalkTo edge length node} index :=
  ⟨hprompt.walkTo hnode, fun _ hwalk => h.length_le_of_walkTo hwalk hnode⟩

end Levelling

end Colata.Math
