/-
# Cutting lists into pieces

The pieces of a list are the maximal non-empty runs between separators. Separators
at the ends, or in a row, make no difference. Joined pieces can be told apart.
-/

import Mathlib.Data.List.DropRight
import Mathlib.Data.List.Basic

namespace Colata.Math

variable {α : Type*} {isSeparator : α → Bool}

/-- The non-empty runs between the separators, in order. -/
def pieces (isSeparator : α → Bool) (list : List α) : List (List α) :=
  (list.splitOnP isSeparator).filter fun piece => !piece.isEmpty

theorem exists_splitOnP (isSeparator : α → Bool) (list : List α) :
    ∃ first rest, list.splitOnP isSeparator = first :: rest :=
  List.exists_cons_of_ne_nil (List.splitOnP_ne_nil isSeparator list)

theorem pieces_nil : pieces isSeparator [] = [] := rfl

/-- A separator cuts the list into two. -/
theorem pieces_append_cons (list rest : List α) {separator : α}
    (hseparator : isSeparator separator = true) :
    pieces isSeparator (list ++ separator :: rest) =
      pieces isSeparator list ++ pieces isSeparator rest := by
  rw [pieces, List.splitOnP_append_cons list rest hseparator, List.filter_append]
  rfl

theorem pieces_append_separators (list : List α) {separators : List α}
    (hseparators : ∀ c ∈ separators, isSeparator c = true) :
    pieces isSeparator (list ++ separators) = pieces isSeparator list := by
  induction separators generalizing list with
  | nil => rw [List.append_nil]
  | cons c separators ih =>
      have hrest := ih [] fun other hother => hseparators other (List.mem_cons_of_mem c hother)
      rw [pieces_append_cons list separators (hseparators c List.mem_cons_self)]
      rw [List.nil_append, pieces_nil] at hrest
      rw [hrest, List.append_nil]

theorem pieces_separators_append (list : List α) {separators : List α}
    (hseparators : ∀ c ∈ separators, isSeparator c = true) :
    pieces isSeparator (separators ++ list) = pieces isSeparator list := by
  induction separators with
  | nil => rfl
  | cons c separators ih =>
      have hcut := pieces_append_cons [] (separators ++ list) (hseparators c List.mem_cons_self)
      rw [List.nil_append, pieces_nil, List.nil_append] at hcut
      rw [List.cons_append, hcut]
      exact ih fun other hother => hseparators other (List.mem_cons_of_mem c hother)

theorem pieces_dropWhile (list : List α) :
    pieces isSeparator (list.dropWhile isSeparator) = pieces isSeparator list := by
  have hsplit := List.takeWhile_append_dropWhile (p := isSeparator) (l := list)
  have htaken : ∀ c ∈ list.takeWhile isSeparator, isSeparator c = true :=
    fun c hc => List.mem_takeWhile_imp hc
  calc pieces isSeparator (list.dropWhile isSeparator)
      = pieces isSeparator (list.takeWhile isSeparator ++ list.dropWhile isSeparator) :=
        (pieces_separators_append _ htaken).symm
    _ = pieces isSeparator list := by rw [hsplit]

theorem pieces_rdropWhile (list : List α) :
    pieces isSeparator (list.rdropWhile isSeparator) = pieces isSeparator list := by
  have hsplit := List.rdropWhile_append_rtakeWhile (p := isSeparator) (l := list)
  have htaken : ∀ c ∈ list.rtakeWhile isSeparator, isSeparator c = true :=
    fun c hc => List.mem_rtakeWhile_imp hc
  calc pieces isSeparator (list.rdropWhile isSeparator)
      = pieces isSeparator (list.rdropWhile isSeparator ++ list.rtakeWhile isSeparator) :=
        (pieces_append_separators _ htaken).symm
    _ = pieces isSeparator list := by rw [hsplit]

/-- The runs without the further separators of a finer cut are runs of that too. The first
run may still grow, so it is compared on its own. -/
theorem mem_splitOnP_of_imp {isOther : α → Bool}
    (himp : ∀ c, isSeparator c = true → isOther c = true) {list first other : List α}
    {rest others : List (List α)} (hfirst : list.splitOnP isSeparator = first :: rest)
    (hother : list.splitOnP isOther = other :: others) :
    ((∀ c ∈ first, isOther c = false) → first = other) ∧
      ∀ run ∈ rest, (∀ c ∈ run, isOther c = false) → run ∈ others := by
  induction list generalizing first other rest others with
  | nil =>
      cases hfirst
      cases hother
      exact ⟨fun _ => rfl, fun run hrun => absurd hrun List.not_mem_nil⟩
  | cons c list ih =>
      obtain ⟨first', rest', hfirst'⟩ := exists_splitOnP isSeparator list
      obtain ⟨other', others', hother'⟩ := exists_splitOnP isOther list
      obtain ⟨hhead, htail⟩ := ih hfirst' hother'
      rw [List.splitOnP_cons_eq_if_modifyHead, hfirst', List.modifyHead_cons] at hfirst
      rw [List.splitOnP_cons_eq_if_modifyHead, hother', List.modifyHead_cons] at hother
      by_cases hseparator : isSeparator c = true
      · rw [if_pos hseparator] at hfirst
        rw [if_pos (himp c hseparator)] at hother
        cases hfirst
        cases hother
        refine ⟨fun _ => rfl, fun run hrun hclean => ?_⟩
        cases List.mem_cons.mp hrun with
        | inl heq =>
            rw [heq] at hclean ⊢
            exact List.mem_cons.mpr (Or.inl (hhead hclean))
        | inr hmem => exact List.mem_cons_of_mem other' (htail run hmem hclean)
      · rw [if_neg hseparator] at hfirst
        cases hfirst
        by_cases hsep : isOther c = true
        · rw [if_pos hsep] at hother
          cases hother
          refine ⟨fun hclean => ?_, fun run hrun hclean => ?_⟩
          · rw [hclean c List.mem_cons_self] at hsep
            cases hsep
          · exact List.mem_cons_of_mem other' (htail run hrun hclean)
        · rw [if_neg hsep] at hother
          cases hother
          refine ⟨fun hclean => ?_, htail⟩
          rw [hhead fun d hd => hclean d (List.mem_cons_of_mem c hd)]

/-- A piece without the further separators of a finer cut is a piece of that too. -/
theorem mem_pieces_of_imp {isOther : α → Bool}
    (himp : ∀ c, isSeparator c = true → isOther c = true) {list piece : List α}
    (hpiece : piece ∈ pieces isSeparator list) (hclean : ∀ c ∈ piece, isOther c = false) :
    piece ∈ pieces isOther list := by
  obtain ⟨first, rest, hfirst⟩ := exists_splitOnP isSeparator list
  obtain ⟨other, others, hother⟩ := exists_splitOnP isOther list
  obtain ⟨hhead, htail⟩ := mem_splitOnP_of_imp himp hfirst hother
  rw [pieces, hfirst, List.mem_filter, List.mem_cons] at hpiece
  rw [pieces, hother, List.mem_filter, List.mem_cons]
  refine ⟨?_, hpiece.2⟩
  cases hpiece.1 with
  | inl heq =>
      rw [heq] at hclean
      exact Or.inl (heq.trans (hhead hclean))
  | inr hmem => exact Or.inr (htail piece hmem hclean)

/-! ## Joining pieces -/

/-- What is between separators is part of the list. -/
theorem mem_of_mem_splitOn [DecidableEq α] {separator : α} {list piece : List α}
    (hpiece : piece ∈ list.splitOn separator) {x : α} (hx : x ∈ piece) : x ∈ list := by
  obtain ⟨i, hi⟩ := List.mem_iff_getElem?.mp hpiece
  have hbetween : piece ∈ (list.splitOn separator).intersperse [separator] := by
    apply List.mem_of_getElem?
    rw [List.getElem?_intersperse_two_mul, hi]
  have hjoined : [separator].intercalate (list.splitOn separator) = list :=
    List.intercalate_splitOn separator
  rw [← hjoined, List.intercalate]
  exact List.mem_flatten.mpr ⟨piece, hbetween, hx⟩

/-- No piece between two separators holds one. -/
theorem notMem_of_mem_splitOn [DecidableEq α] {separator : α} {list piece : List α}
    (h : piece ∈ list.splitOn separator) : separator ∉ piece := by
  induction list generalizing piece with
  | nil =>
    obtain rfl : piece = [] := by simpa using h
    exact List.not_mem_nil
  | cons first list ih =>
    rw [List.splitOn_cons_eq_if_modifyHead] at h
    split_ifs at h with hfirst
    · rcases List.mem_cons.mp h with rfl | hmem
      · exact List.not_mem_nil
      · exact ih hmem
    · obtain ⟨head, tail, hsplit⟩ := List.exists_cons_of_ne_nil (List.splitOn_ne_nil separator list)
      rw [hsplit, List.modifyHead_cons] at h
      rcases List.mem_cons.mp h with rfl | hmem
      · have hhead : separator ∉ head := ih (hsplit ▸ List.mem_cons_self)
        simp only [List.mem_cons, not_or]
        exact ⟨fun heq => hfirst (by simp [heq]), hhead⟩
      · exact ih (hsplit ▸ List.mem_cons_of_mem _ hmem)

/-- Pieces that are joined by a separator, none of them empty and none with the separator. -/
structure Joinable (separator : α) (pieces : List (List α)) : Prop where
  ne_nil : ∀ piece ∈ pieces, piece ≠ []
  notMem : ∀ piece ∈ pieces, separator ∉ piece

theorem Joinable.intercalate_eq_nil_iff {separator : α} {pieces : List (List α)}
    (h : Joinable separator pieces) : [separator].intercalate pieces = [] ↔ pieces = [] := by
  constructor
  · intro hnil
    match pieces with
    | [] => rfl
    | [piece] => exact absurd (by simpa using hnil) (h.ne_nil piece List.mem_cons_self)
    | first :: second :: rest => simp [List.intercalate_cons_cons] at hnil
  · rintro rfl
    rfl

/-- Joined pieces can be told apart. -/
theorem Joinable.intercalate_inj [DecidableEq α] {separator : α} {first second : List (List α)}
    (hfirst : Joinable separator first) (hsecond : Joinable separator second)
    (h : [separator].intercalate first = [separator].intercalate second) : first = second := by
  by_cases hnil : first = []
  · rw [hfirst.intercalate_eq_nil_iff.mpr hnil] at h
    rw [hnil, hsecond.intercalate_eq_nil_iff.mp h.symm]
  · have hnil' : second ≠ [] := fun hempty =>
      hnil (hfirst.intercalate_eq_nil_iff.mp (h.trans (hsecond.intercalate_eq_nil_iff.mpr hempty)))
    have hsplit := congrArg (List.splitOn separator) h
    rwa [List.splitOn_intercalate separator hfirst.notMem hnil,
      List.splitOn_intercalate separator hsecond.notMem hnil'] at hsplit

end Colata.Math
