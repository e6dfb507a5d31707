/-
# The order of the lines of a dump

A line that is no node is skipped, and of the lines with one id the last one counts. Nothing
else about the order of the lines matters as long as the ids are array indices, since the
entries of an object are enumerated by ascending index then.
-/

import Colata.IR.Parser

namespace Colata.IR

open Colata.Math Colata.JavaScript

/-- The nodes that the lines of a dump describe, in the order of the lines. -/
def parsedNodes (text : String) : List Node :=
  (text.toList.splitOn '\n').filterMap fun rawLine => parseLine (trim rawLine)

/-- The node that the last line with an id describes. -/
def lastNode (text : String) (id : NodeId) : Option Node :=
  (parsedNodes text).reverse.find? fun node => node.id = id

/-- The node ids of the dump are array indices. -/
def IndexedIds (text : String) : Prop :=
  ∀ node ∈ parsedNodes text, (NodeTable.arrayIndex? node.id).isSome = true

instance (text : String) : Decidable (IndexedIds text) :=
  inferInstanceAs (Decidable (∀ node ∈ parsedNodes text, _))

theorem parseIR_eq_foldl (text : String) :
    parseIR text = (parsedNodes text).foldl NodeTable.insert .empty := by
  rw [parsedNodes, List.foldl_filterMap, parseIR]
  refine List.foldl_ext _ _ _ fun nodes rawLine _ => ?_
  rw [addLine]
  cases parseLine (trim rawLine) with
  | none => rfl
  | some node => rfl

/-! ## Looking a node up -/

theorem NodeTable.get?_insert (table : NodeTable) (node : Node) (id : NodeId) :
    (table.insert node).get? id = if node.id = id then some node else table.get? id := by
  by_cases hid : node.id = id
  · rw [if_pos hid, get?_eq_some_iff, mem_insert]
    exact ⟨Or.inl rfl, hid⟩
  · rw [if_neg hid]
    ext other
    rw [get?_eq_some_iff, get?_eq_some_iff, mem_insert]
    constructor
    · rintro ⟨rfl | ⟨hmem, _⟩, hother⟩
      · exact absurd hother hid
      · exact ⟨hmem, hother⟩
    · rintro ⟨hmem, rfl⟩
      exact ⟨Or.inr ⟨hmem, Ne.symm hid⟩, rfl⟩

/-- Of the lines with one id the last one counts. -/
theorem get?_parseIR (text : String) (id : NodeId) :
    (parseIR text).get? id = lastNode text id := by
  rw [parseIR_eq_foldl, lastNode]
  induction parsedNodes text using List.reverseRecOn with
  | nil => rfl
  | append_singleton nodes node ih =>
      rw [List.foldl_append, List.foldl_cons, List.foldl_nil, NodeTable.get?_insert, ih,
        List.reverse_append, List.reverse_singleton, List.singleton_append, List.find?_cons]
      by_cases hid : node.id = id
      · simp [hid]
      · simp [hid]

/-! ## The order of enumeration -/

theorem NodeTable.arrayIndex?_injective {id other : NodeId} {index : ℕ}
    (hid : arrayIndex? id = some index) (hother : arrayIndex? other = some index) :
    id = other := by
  have hindex : ∀ {id : NodeId}, arrayIndex? id = some index →
      ∃ magnitude h, id = .finite false magnitude h ∧ magnitude = index * Binary64.one := by
    intro id hid
    cases id with
    | nan => simp only [arrayIndex?, reduceCtorEq] at hid
    | infinity negative => simp only [arrayIndex?, reduceCtorEq] at hid
    | finite negative magnitude h =>
        cases negative with
        | true => simp only [arrayIndex?, reduceCtorEq] at hid
        | false =>
            rw [arrayIndex?] at hid
            split_ifs at hid with hwhole
            refine ⟨magnitude, h, rfl, ?_⟩
            rw [← Option.some.inj hid, Nat.div_mul_cancel (Nat.dvd_of_mod_eq_zero hwhole.1)]
  obtain ⟨magnitude, _, rfl, hmagnitude⟩ := hindex hid
  obtain ⟨other, _, rfl, hotherMagnitude⟩ := hindex hother
  obtain rfl : magnitude = other := hmagnitude.trans hotherMagnitude.symm
  rfl

/-- The key is an array index, and it is enumerated before the other key. -/
theorem NodeTable.precedes_iff {key other : NodeId} (hother : (arrayIndex? other).isSome = true) :
    precedes key other = true ↔
      ∃ index ∈ arrayIndex? key, ∃ otherIndex ∈ arrayIndex? other, index < otherIndex := by
  obtain ⟨otherIndex, hindex⟩ := Option.isSome_iff_exists.mp hother
  rw [precedes, hindex]
  cases arrayIndex? key with
  | none => simp
  | some index => simp

/-- The ids are array indices and enumerated in ascending order. -/
structure Ascending (ids : List NodeId) : Prop where
  indexed : ∀ id ∈ ids, (NodeTable.arrayIndex? id).isSome = true
  pairwise : ids.Pairwise fun id other => NodeTable.precedes id other = true

section Ascending

variable {ids : List NodeId} {nodes : List Node}

theorem NodeTable.precedes_trans {first second third : NodeId}
    (hsecond : (arrayIndex? second).isSome = true) (hthird : (arrayIndex? third).isSome = true)
    (h : precedes first second = true) (h' : precedes second third = true) :
    precedes first third = true := by
  obtain ⟨index, hindex, middle, hmiddle, hlt⟩ := (precedes_iff hsecond).mp h
  obtain ⟨middle', hmiddle', last, hlast, hlt'⟩ := (precedes_iff hthird).mp h'
  obtain rfl : middle = middle' := Option.some.inj (hmiddle.symm.trans hmiddle')
  exact (precedes_iff hthird).mpr ⟨index, hindex, last, hlast, hlt.trans hlt'⟩

theorem NodeTable.precedes_total {first second : NodeId}
    (hfirst : (arrayIndex? first).isSome = true) (hsecond : (arrayIndex? second).isSome = true)
    (hne : first ≠ second) (hnot : ¬ precedes first second = true) :
    precedes second first = true := by
  obtain ⟨index, hindex⟩ := Option.isSome_iff_exists.mp hfirst
  obtain ⟨other, hother⟩ := Option.isSome_iff_exists.mp hsecond
  refine (precedes_iff hfirst).mpr ⟨other, hother, index, hindex, ?_⟩
  have hle : ¬ index < other := fun hlt =>
    hnot ((precedes_iff hsecond).mpr ⟨index, hindex, other, hother, hlt⟩)
  have hneq : index ≠ other := fun heq =>
    hne (arrayIndex?_injective hindex (heq ▸ hother))
  omega

theorem ascending_place {node : Node} (h : Ascending (nodes.map Node.id))
    (hindexed : (NodeTable.arrayIndex? node.id).isSome = true)
    (hnew : node.id ∉ nodes.map Node.id) :
    Ascending ((NodeTable.place node nodes).map Node.id) := by
  have hall : ∀ id ∈ (NodeTable.place node nodes).map Node.id,
      (NodeTable.arrayIndex? id).isSome = true := by
    intro id hid
    rw [((NodeTable.place_perm node nodes).map Node.id).mem_iff, List.map_cons,
      List.mem_cons] at hid
    rcases hid with rfl | hmem
    · exact hindexed
    · exact h.indexed id hmem
  refine ⟨hall, ?_⟩
  clear hall
  induction nodes with
  | nil => exact List.pairwise_singleton _ _
  | cons other nodes ih =>
      rw [List.map_cons, List.mem_cons, not_or] at hnew
      have hother := h.indexed other.id List.mem_cons_self
      have hrest : Ascending (nodes.map Node.id) :=
        ⟨fun id hid => h.indexed id (List.mem_cons_of_mem _ hid),
          (List.pairwise_cons.mp h.pairwise).2⟩
      have hfirst := (List.pairwise_cons.mp h.pairwise).1
      rw [NodeTable.place]
      split_ifs with hprecedes
      · refine List.pairwise_cons.mpr ⟨fun id hid => ?_, h.pairwise⟩
        rcases List.mem_cons.mp hid with rfl | hmem
        · exact hprecedes
        · exact NodeTable.precedes_trans hother (hrest.indexed id hmem) hprecedes (hfirst id hmem)
      · refine List.pairwise_cons.mpr ⟨fun id hid => ?_, ih hrest hnew.2⟩
        rw [((NodeTable.place_perm node nodes).map Node.id).mem_iff, List.map_cons,
          List.mem_cons] at hid
        rcases hid with rfl | hmem
        · exact NodeTable.precedes_total hindexed hother hnew.1 hprecedes
        · exact hfirst id hmem

theorem Ascending.insert {table : NodeTable} (h : Ascending table.ids) {node : Node}
    (hindexed : (NodeTable.arrayIndex? node.id).isSome = true) :
    Ascending (table.insert node).ids := by
  rw [NodeTable.insert]
  split_ifs with hmem
  · show Ascending ((NodeTable.overwrite node table.nodes).map Node.id)
    rwa [NodeTable.map_id_overwrite]
  · exact ascending_place h hindexed hmem

theorem ascending_parseIR {text : String} (h : IndexedIds text) : Ascending (parseIR text).ids := by
  rw [parseIR_eq_foldl]
  have hloop : ∀ (nodes : List Node) (table : NodeTable), Ascending table.ids →
      (∀ node ∈ nodes, (NodeTable.arrayIndex? node.id).isSome = true) →
      Ascending (nodes.foldl NodeTable.insert table).ids := by
    intro nodes
    induction nodes with
    | nil => exact fun _ htable _ => htable
    | cons node nodes ih =>
        intro table htable hnodes
        rw [List.forall_mem_cons] at hnodes
        exact ih _ (htable.insert hnodes.1) hnodes.2
  exact hloop _ _ ⟨fun _ hid => (List.not_mem_nil hid).elim, .nil⟩ h

/-- A table with ascending ids is determined by what its keys give. -/
theorem eq_of_get?_eq {first second : NodeTable} (hfirst : Ascending first.ids)
    (hsecond : Ascending second.ids) (h : ∀ id, first.get? id = second.get? id) :
    first = second := by
  have hmem : ∀ node, node ∈ first.nodes ↔ node ∈ second.nodes := fun node => by
    rw [← and_iff_left (a := node ∈ first.nodes) (rfl : node.id = node.id),
      ← NodeTable.get?_eq_some_iff, h, NodeTable.get?_eq_some_iff, and_iff_left rfl]
  have hperm : first.nodes.Perm second.nodes :=
    (List.perm_ext_iff_of_nodup first.nodup.of_map second.nodup.of_map).mpr hmem
  have hnodes : first.nodes = second.nodes := by
    refine List.Perm.eq_of_pairwise (fun a b ha hb hab hba => ?_)
      (List.pairwise_map.mp hfirst.pairwise) (List.pairwise_map.mp hsecond.pairwise) hperm
    have hindexed := hfirst.indexed a.id (NodeTable.mem_ids.mpr ⟨a, ha, rfl⟩)
    obtain ⟨index, hindex, other, hother, hlt⟩ := (NodeTable.precedes_iff
      (hsecond.indexed b.id (NodeTable.mem_ids.mpr ⟨b, hb, rfl⟩))).mp hab
    obtain ⟨other', hother', index', hindex', hlt'⟩ := (NodeTable.precedes_iff hindexed).mp hba
    obtain rfl : index = index' := Option.some.inj (hindex.symm.trans hindex')
    obtain rfl : other = other' := Option.some.inj (hother.symm.trans hother')
    exact absurd (hlt.trans hlt') (lt_irrefl _)
  cases first
  cases second
  simpa using hnodes

end Ascending

/-! ## Dumps with the same table -/

/-- Dumps whose ids are array indices give the same table exactly if for every id their last
lines describe the same node. -/
theorem parseIR_eq_iff {first second : String} (hfirst : IndexedIds first)
    (hsecond : IndexedIds second) :
    parseIR first = parseIR second ↔ ∀ id, lastNode first id = lastNode second id := by
  constructor
  · intro h id
    rw [← get?_parseIR, ← get?_parseIR, h]
  · intro h
    refine eq_of_get?_eq (ascending_parseIR hfirst) (ascending_parseIR hsecond) fun id => ?_
    rw [get?_parseIR, get?_parseIR, h]

theorem lastNode_eq_some_iff {text : String} (hnodup : ((parsedNodes text).map Node.id).Nodup)
    {id : NodeId} {node : Node} :
    lastNode text id = some node ↔ node ∈ parsedNodes text ∧ node.id = id := by
  have hreverse : ((parsedNodes text).reverse.map Node.id).Nodup := by
    rwa [List.map_reverse, List.nodup_reverse]
  rw [← List.mem_reverse]
  let table : NodeTable := ⟨(parsedNodes text).reverse, hreverse⟩
  show table.get? id = some node ↔ _
  exact NodeTable.get?_eq_some_iff

/-- The lines of a dump can be put in any order if no two of them describe nodes with the same
id. -/
theorem parseIR_eq_of_perm {first second : String}
    (hperm : (first.toList.splitOn '\n').Perm (second.toList.splitOn '\n'))
    (hnodup : ((parsedNodes first).map Node.id).Nodup) (hindexed : IndexedIds first) :
    parseIR first = parseIR second := by
  have hparsed : (parsedNodes first).Perm (parsedNodes second) := hperm.filterMap _
  have hnodup' := (hparsed.map Node.id).nodup_iff.mp hnodup
  have hindexed' : IndexedIds second := fun node hnode =>
    hindexed node (hparsed.mem_iff.mpr hnode)
  rw [parseIR_eq_iff hindexed hindexed']
  intro id
  ext node
  rw [lastNode_eq_some_iff hnodup, lastNode_eq_some_iff hnodup', hparsed.mem_iff]

/-- Two lines and the same in the other order. -/
theorem parseIR_eq_of_perm_swap :
    parseIR "1 ConI === 0 [[ 2 ]]\n2 Return === 1 [[ ]]" =
      parseIR "2 Return === 1 [[ ]]\n1 ConI === 0 [[ 2 ]]" :=
  parseIR_eq_of_perm (by decide +kernel) (by decide +kernel) (by decide +kernel)

end Colata.IR
