/-
# Sorted sets under a comparator

A tree set holds elements in ascending order and takes an element only if the
comparator tells it apart from all elements it holds. The comparator may fail. On
elements where it does not and where it is an order, what a run of additions holds
is sorted and represents every added element.
-/

import Mathlib.Data.List.AList
import Mathlib.Order.Basic

namespace Colata.Math.TreeSet

universe u v

variable {α : Type u} {ε : Type v}

/-- Put an element at its place, unless the comparator finds it there. -/
def place (compare : α → α → Except ε Ordering) (x : α) : List α → Except ε (List α)
  | [] => .ok [x]
  | y :: set =>
      match compare x y with
      | .error failure => .error failure
      | .ok .lt => .ok (x :: y :: set)
      | .ok .eq => .ok (y :: set)
      | .ok .gt => (place compare x set).map (y :: ·)

/-- Add an element. The first one is compared with itself. -/
def add (compare : α → α → Except ε Ordering) (set : List α) (x : α) : Except ε (List α) :=
  if set.isEmpty then (compare x x).map fun _ => [x] else place compare x set

/-- Sorted, and representing the elements of a list up to ties. -/
structure Represents (cmp : α → α → Ordering) (elements set : List α) : Prop where
  sorted : set.Pairwise fun first second => cmp first second = .lt
  subset : ∀ x ∈ set, x ∈ elements
  covers : ∀ x ∈ elements, ∃ y ∈ set, cmp x y = .eq

theorem Represents.of_perm {cmp : α → α → Ordering} {elements others set : List α}
    (h : Represents cmp elements set) (hperm : elements.Perm others) : Represents cmp others set :=
  ⟨h.sorted, fun x hx => hperm.mem_iff.mp (h.subset x hx),
    fun x hx => h.covers x (hperm.mem_iff.mpr hx)⟩

variable {cmp : α → α → Ordering} [Std.TransCmp cmp]
  {compare : α → α → Except ε Ordering} {set : List α}

/-- No two elements of a sorted set tie. -/
theorem Represents.eq_of_tie {elements : List α} (h : Represents cmp elements set) {x y : α}
    (hx : x ∈ set) (hy : y ∈ set) (htie : cmp x y = .eq) : x = y := by
  have hpair : set.Pairwise fun first second => cmp first second ≠ .eq := by
    apply h.sorted.imp
    intro first second hlt heq
    rw [hlt] at heq
    cases heq
  by_contra hne
  have hsymm : Std.Symm fun first second => cmp first second ≠ .eq :=
    ⟨fun _ _ hneq heq => hneq (Std.OrientedCmp.eq_symm heq)⟩
  exact hpair.forall hx hy hne htie

/-- Distinct elements no two of which tie are all held. -/
theorem Represents.perm {elements : List α} (h : Represents cmp elements set)
    (hnodup : elements.Nodup)
    (htie : ∀ x ∈ elements, ∀ y ∈ elements, cmp x y = .eq → x = y) : set.Perm elements := by
  have hset : set.Nodup := by
    apply h.sorted.imp
    intro first second hlt heq
    rw [heq] at hlt
    exact absurd (hlt.symm.trans Std.ReflCmp.compare_self) (by decide)
  rw [List.perm_ext_iff_of_nodup hset hnodup]
  refine fun x => ⟨h.subset x, fun hx => ?_⟩
  obtain ⟨y, hy, heq⟩ := h.covers x hx
  rwa [htie x hx y (h.subset y hy) heq]

/-- Where the comparator succeeds, placing an element keeps the set sorted and holds the
element up to a tie. -/
theorem place_spec {x : α} (hsorted : set.Pairwise fun first second => cmp first second = .lt)
    (hcompare : ∀ y ∈ set, compare x y = .ok (cmp x y)) :
    ∃ next, place compare x set = .ok next ∧
      next.Pairwise (fun first second => cmp first second = .lt) ∧
      (∀ y ∈ next, y = x ∨ y ∈ set) ∧ (∀ y ∈ set, y ∈ next) ∧ ∃ y ∈ next, cmp x y = .eq := by
  induction set with
  | nil =>
      exact ⟨[x], rfl, List.pairwise_singleton _ x, by simp, by simp, x, List.mem_cons_self,
        Std.ReflCmp.compare_self⟩
  | cons y set ih =>
      obtain ⟨hfirst, hrest⟩ := List.pairwise_cons.mp hsorted
      have hy := hcompare y List.mem_cons_self
      cases horder : cmp x y with
      | lt =>
          have hall : ∀ z ∈ y :: set, cmp x z = .lt := by
            intro z hz
            rcases List.mem_cons.mp hz with heq | hin
            · rwa [heq]
            · exact Std.TransCmp.lt_trans horder (hfirst z hin)
          refine ⟨x :: y :: set, by simp [place, hy, horder], ?_⟩
          exact ⟨List.pairwise_cons.mpr ⟨hall, hsorted⟩, by simp, by simp +contextual, x,
            List.mem_cons_self, Std.ReflCmp.compare_self⟩
      | eq =>
          refine ⟨y :: set, by simp [place, hy, horder], ?_⟩
          exact ⟨hsorted, fun z hz => Or.inr hz, fun z hz => hz, y, List.mem_cons_self, horder⟩
      | gt =>
          obtain ⟨next, hnext, hpair, hsubset, hkeep, z, hz, htie⟩ :=
            ih hrest fun w hw => hcompare w (List.mem_cons_of_mem y hw)
          have hafter : ∀ w ∈ next, cmp y w = .lt := by
            intro w hw
            rcases hsubset w hw with heq | hin
            · rw [heq]
              exact Std.OrientedCmp.lt_of_gt horder
            · exact hfirst w hin
          refine ⟨y :: next, by simp [place, hy, horder, hnext, Except.map], ?_⟩
          refine ⟨List.pairwise_cons.mpr ⟨hafter, hpair⟩, ?_, ?_, z, ?_, htie⟩
          · intro w hw
            rcases List.mem_cons.mp hw with heq | hin
            · exact Or.inr (heq ▸ List.mem_cons_self)
            · exact (hsubset w hin).imp_right (List.mem_cons_of_mem y)
          · intro w hw
            rcases List.mem_cons.mp hw with heq | hin
            · exact heq ▸ List.mem_cons_self
            · exact List.mem_cons_of_mem y (hkeep w hin)
          · exact List.mem_cons_of_mem y hz

theorem represents_nil (cmp : α → α → Ordering) : Represents cmp [] ([] : List α) :=
  ⟨List.Pairwise.nil, by simp, by simp⟩

/-- One addition where the comparator succeeds. -/
theorem Represents.add {elements : List α} (h : Represents cmp elements set) {x : α}
    (hcompare : ∀ y ∈ x :: elements, compare x y = .ok (cmp x y)) :
    ∃ next, add compare set x = .ok next ∧ Represents cmp (elements ++ [x]) next := by
  cases set with
  | nil =>
      have hself := hcompare x List.mem_cons_self
      have hnone : elements = [] := by
        by_contra hne
        obtain ⟨y, hy⟩ := List.exists_mem_of_ne_nil elements hne
        obtain ⟨z, hz, _⟩ := h.covers y hy
        cases hz
      subst hnone
      refine ⟨[x], by simp [TreeSet.add, hself, Except.map], List.pairwise_singleton _ x,
        by simp, ?_⟩
      intro y hy
      obtain rfl : y = x := by simpa using hy
      exact ⟨y, List.mem_cons_self, Std.ReflCmp.compare_self⟩
  | cons first set =>
      obtain ⟨next, hnext, hpair, hsubset, hkeep, y, hy, htie⟩ := place_spec h.sorted
        fun z hz => hcompare z (List.mem_cons_of_mem x (h.subset z hz))
      refine ⟨next, by simp [TreeSet.add, hnext], hpair, ?_, ?_⟩
      · intro z hz
        rw [List.mem_append, List.mem_singleton]
        exact (hsubset z hz).symm.imp_left (h.subset z)
      · intro z hz
        rcases List.mem_append.mp hz with hold | hnew
        · obtain ⟨w, hw, hwtie⟩ := h.covers z hold
          exact ⟨w, hkeep w hw, hwtie⟩
        · exact ⟨y, hy, List.mem_singleton.mp hnew ▸ htie⟩

end Colata.Math.TreeSet
