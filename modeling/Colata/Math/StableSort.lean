/-
# Stable sorting

A stable sort breaks ties by position. So a list that is in order already is ordered by the
key first and by its former order second.
-/

import Mathlib.Data.List.Nodup
import Mathlib.Order.Lattice

namespace Colata.Math

universe u v

variable {α : Type u} {β : Type v} {le : α → α → Bool} {R : α → α → Prop} {list : List α}

/-- Elements that the sort does not tell apart keep their order. -/
theorem pairwise_mergeSort_of_pairwise (trans : ∀ a b c, le a b → le b c → le a c)
    (total : ∀ a b, le a b || le b a) (h : list.Pairwise R) :
    (list.mergeSort le).Pairwise fun a b => le a b = true ∧ (le b a = true → R a b) := by
  have hsorted : (list.zipIdx.mergeSort (List.zipIdxLE le)).Pairwise
      fun a b => List.zipIdxLE le a b = true :=
    List.pairwise_mergeSort (List.zipIdxLE_trans trans) (List.zipIdxLE_total total) list.zipIdx
  have hnodup : (list.zipIdx.mergeSort (List.zipIdxLE le)).Nodup := by
    rw [(List.mergeSort_perm _ _).nodup_iff]
    apply List.Nodup.of_map Prod.snd
    rw [List.zipIdx_map_snd]
    exact List.nodup_range'
  rw [← List.mergeSort_zipIdx, List.pairwise_map]
  refine (hsorted.and hnodup).imp_of_mem ?_
  rintro ⟨a, i⟩ ⟨b, j⟩ ha hb ⟨hle, hne⟩
  rw [List.mem_mergeSort, List.mem_zipIdx_iff_getElem?] at ha hb
  dsimp only at ha hb
  rw [List.zipIdxLE] at hle
  split_ifs at hle with hab hba
  · refine ⟨hab, fun _ => ?_⟩
    have hij : i < j := by
      refine Nat.lt_of_le_of_ne (of_decide_eq_true hle) ?_
      rintro rfl
      exact hne (Prod.ext (Option.some.inj (ha.symm.trans hb)) rfl)
    obtain ⟨hi, rfl⟩ := List.getElem?_eq_some_iff.mp ha
    obtain ⟨hj, rfl⟩ := List.getElem?_eq_some_iff.mp hb
    exact List.pairwise_iff_getElem.mp h i j hi hj hij
  · exact ⟨hab, fun hge => absurd hge hba⟩

/-- A comparison of the elements by a key. -/
theorem pairwise_mergeSort_key [LinearOrder β] (key : α → β)
    (hle : ∀ a ∈ list, ∀ b ∈ list, le a b = decide (key a ≤ key b)) (h : list.Pairwise R) :
    (list.mergeSort le).Pairwise fun a b => key a ≤ key b ∧ (key a = key b → R a b) := by
  have hsort : list.mergeSort le = list.mergeSort fun a b => decide (key a ≤ key b) := by
    have hmap : (list.mergeSort le).map id =
        (list.map id).mergeSort fun a b => decide (key a ≤ key b) := List.map_mergeSort hle
    rwa [List.map_id, List.map_id] at hmap
  rw [hsort]
  refine (pairwise_mergeSort_of_pairwise ?_ ?_ h).imp ?_
  · intro a b c hab hbc
    exact decide_eq_true ((of_decide_eq_true hab).trans (of_decide_eq_true hbc))
  · intro a b
    rw [Bool.or_eq_true, decide_eq_true_eq, decide_eq_true_eq]
    exact le_total _ _
  · intro a b hab
    exact ⟨of_decide_eq_true hab.1, fun heq => hab.2 (decide_eq_true heq.ge)⟩

end Colata.Math
