/-
# Elements found by a key

A table gives the element that a key finds, if there is one. A loop whose turns each touch
the entry of one key, and no two turns the same one, does to every entry what its own turn
does.
-/

import Mathlib.Data.List.Basic
import Mathlib.Data.List.Nodup
import Mathlib.Logic.Function.Basic

namespace Colata.Math

universe u v w

variable {ι : Type u} {κ : Type v} {α : Type w}

/-- A turn for an item changes the entry at the key of the item only. -/
structure ActsAt (turn : (κ → α) → ι → κ → α) (key : ι → κ) (change : ι → α → α) : Prop where
  self : ∀ table item, turn table item (key item) = change item (table (key item))
  other : ∀ table item k, k ≠ key item → turn table item k = table k

section ActsAt

variable {turn : (κ → α) → ι → κ → α} {key : ι → κ} {change : ι → α → α}

theorem ActsAt.foldl_of_notMem (h : ActsAt turn key change) {items : List ι} {k : κ}
    (hk : k ∉ items.map key) (table : κ → α) : items.foldl turn table k = table k := by
  induction items generalizing table with
  | nil => rfl
  | cons item items ih =>
      rw [List.map_cons, List.mem_cons, not_or] at hk
      rw [List.foldl_cons, ih hk.2, h.other _ _ _ hk.1]

theorem ActsAt.foldl_of_mem (h : ActsAt turn key change) {items : List ι}
    (hnodup : (items.map key).Nodup) {item : ι} (hitem : item ∈ items) (table : κ → α) :
    items.foldl turn table (key item) = change item (table (key item)) := by
  induction items generalizing table with
  | nil => cases hitem
  | cons first items ih =>
      rw [List.map_cons, List.nodup_cons] at hnodup
      rw [List.foldl_cons]
      rcases List.mem_cons.mp hitem with rfl | hrest
      · rw [h.foldl_of_notMem hnodup.1, h.self]
      · have hne : key item ≠ key first := fun heq =>
          hnodup.1 (heq ▸ List.mem_map_of_mem hrest)
        rw [ih hnodup.2 hrest, h.other _ _ _ hne]

/-- A loop that acts on some of its items only. -/
theorem ActsAt.ite (h : ActsAt turn key change) (test : ι → Bool) :
    ActsAt (fun table item => if test item then turn table item else table) key
      fun item entry => if test item then change item entry else entry where
  self := fun table item => by
    cases test item with
    | true => exact h.self table item
    | false => rfl
  other := fun table item k hne => by
    cases test item with
    | true => exact h.other table item k hne
    | false => rfl

end ActsAt

variable [DecidableEq κ]

/-- Change the element that a key finds, if there is one. -/
def modifyAt (elements : κ → Option α) (key : κ) (change : α → α) : κ → Option α :=
  Function.update elements key ((elements key).map change)

theorem actsAt_modifyAt (key : ι → κ) (change : ι → α → α) :
    ActsAt (fun elements item => modifyAt elements (key item) (change item)) key
      fun item => Option.map (change item) where
  self := fun _ _ => Function.update_self _ _ _
  other := fun _ _ _ hne => Function.update_of_ne hne _ _

/-- Changing elements makes none and removes none. -/
theorem isSome_modifyAt (elements : κ → Option α) (key : κ) (change : α → α) (k : κ) :
    (modifyAt elements key change k).isSome = (elements k).isSome := by
  rw [modifyAt]
  by_cases hk : k = key
  · rw [hk, Function.update_self, Option.isSome_map]
  · rw [Function.update_of_ne hk]

theorem actsAt_update (key : ι → κ) (value : ι → α) :
    ActsAt (fun table item => Function.update table (key item) (value item)) key
      fun item _ => value item where
  self := fun _ _ => Function.update_self _ _ _
  other := fun _ _ _ hne => Function.update_of_ne hne _ _

/-- A loop that writes to each key a value that depends on the key only. -/
theorem foldl_update_eq_ite (key : ι → κ) (value : κ → α) (items : List ι) (table : κ → α) :
    items.foldl (fun table item => Function.update table (key item) (value (key item))) table =
      fun k => if k ∈ items.map key then value k else table k := by
  funext k
  induction items generalizing table with
  | nil => rfl
  | cons item items ih =>
      rw [List.foldl_cons, ih, List.map_cons]
      by_cases hrest : k ∈ items.map key
      · rw [if_pos hrest, if_pos (List.mem_cons_of_mem _ hrest)]
      · rw [if_neg hrest]
        by_cases hk : k = key item
        · rw [hk, Function.update_self, if_pos List.mem_cons_self]
        · rw [Function.update_of_ne hk, if_neg fun hmem => (List.mem_cons.mp hmem).elim hk hrest]

end Colata.Math
