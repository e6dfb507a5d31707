/-
# Occurrences of a pattern with wildcards

Every place of a pattern asks for one letter or is a wildcard. The pattern occurs at a
position of the text when each place accepts the letter it meets there. Writing another
letter into the text keeps an occurrence unless a place that tells the two letters apart
meets the written position.
-/

import Mathlib.Data.List.Basic
import Mathlib.Data.Nat.Notation

namespace Colata.Math.Occurrence

universe u

variable {α : Type u} [DecidableEq α]

/-- The places of a pattern; `none` is a wildcard. -/
abbrev Pattern (α : Type u) := List (Option α)

/-- Whether the place accepts the letter; a wildcard accepts the letters of `wild`. -/
def accepts (wild : α → Bool) : Option α → α → Bool
  | none, x => wild x
  | some letter, x => x == letter

/-- Whether the pattern occurs at the start of the text. -/
def startsWith (wild : α → Bool) : Pattern α → List α → Bool
  | [], _ => true
  | _ :: _, [] => false
  | place :: pattern, x :: text => accepts wild place x && startsWith wild pattern text

/-- The first position at which the pattern occurs. -/
def find (wild : α → Bool) (pattern : Pattern α) : List α → Option ℕ
  | [] => if startsWith wild pattern [] then some 0 else none
  | x :: text =>
      if startsWith wild pattern (x :: text) then some 0
      else (find wild pattern text).map (· + 1)

/-- The pattern occurs at the position of the text. -/
def OccursAt (wild : α → Bool) (pattern : Pattern α) (text : List α) (p : ℕ) : Prop :=
  ∀ i place, pattern[i]? = some place →
    ∃ x, text[p + i]? = some x ∧ accepts wild place x = true

variable {wild : α → Bool} {pattern : Pattern α} {text : List α} {p : ℕ}

@[simp] theorem occursAt_nil : OccursAt wild [] text p := by
  intro i place hplace
  simp at hplace

theorem occursAt_cons {place : Option α} :
    OccursAt wild (place :: pattern) text p ↔
      (∃ x, text[p]? = some x ∧ accepts wild place x = true) ∧
        OccursAt wild pattern text (p + 1) := by
  constructor
  · intro hoccurs
    refine ⟨by simpa using hoccurs 0 place rfl, fun i later hlater => ?_⟩
    have hx := hoccurs (i + 1) later (by simpa using hlater)
    rwa [show p + 1 + i = p + (i + 1) by omega]
  · rintro ⟨hfirst, hrest⟩ i later hlater
    cases i with
    | zero =>
        obtain rfl : place = later := by simpa using hlater
        simpa using hfirst
    | succ i =>
        have hx := hrest i later (by simpa using hlater)
        rwa [show p + (i + 1) = p + 1 + i by omega]

theorem occursAt_cons_succ {x : α} :
    OccursAt wild pattern (x :: text) (p + 1) ↔ OccursAt wild pattern text p := by
  unfold OccursAt
  refine forall_congr' fun i => forall_congr' fun place => ?_
  rw [show p + 1 + i = p + i + 1 by omega, List.getElem?_cons_succ]

theorem startsWith_iff (pattern : Pattern α) (text : List α) :
    startsWith wild pattern text = true ↔ OccursAt wild pattern text 0 := by
  induction pattern generalizing text with
  | nil => simp [startsWith]
  | cons place pattern ih =>
      cases text with
      | nil => simp [startsWith, occursAt_cons]
      | cons x text => simp [startsWith, occursAt_cons, occursAt_cons_succ, ih]

theorem occursAt_of_find_eq_some (hfind : find wild pattern text = some p) :
    OccursAt wild pattern text p := by
  induction text generalizing p with
  | nil =>
      simp only [find, Option.ite_none_right_eq_some, Option.some.injEq] at hfind
      obtain ⟨hstarts, rfl⟩ := hfind
      exact (startsWith_iff pattern []).1 hstarts
  | cons x text ih =>
      rw [find] at hfind
      split at hfind
      · obtain rfl : 0 = p := by simpa using hfind
        exact (startsWith_iff pattern _).1 ‹_›
      · obtain ⟨q, hq, rfl⟩ := Option.map_eq_some_iff.1 hfind
        exact occursAt_cons_succ.2 (ih hq)

theorem find_isSome_of_occursAt (hoccurs : OccursAt wild pattern text p) :
    (find wild pattern text).isSome = true := by
  induction text generalizing p with
  | nil =>
      have hstarts : startsWith wild pattern [] = true := by
        rw [startsWith_iff]
        intro i place hplace
        obtain ⟨x, hx, -⟩ := hoccurs i place hplace
        simp at hx
      simp [find, hstarts]
  | cons x text ih =>
      rw [find]
      split
      · rfl
      · cases p with
        | zero => exact absurd ((startsWith_iff pattern _).2 hoccurs) ‹_›
        | succ p => simpa using ih (occursAt_cons_succ.1 hoccurs)

/-- The search succeeds exactly when the pattern occurs. -/
theorem find_isSome_iff (pattern : Pattern α) (text : List α) :
    (find wild pattern text).isSome = true ↔ ∃ p, OccursAt wild pattern text p := by
  constructor
  · intro hfind
    obtain ⟨p, hp⟩ := Option.isSome_iff_exists.1 hfind
    exact ⟨p, occursAt_of_find_eq_some hp⟩
  · rintro ⟨p, hp⟩
    exact find_isSome_of_occursAt hp

theorem find_eq_none_iff (pattern : Pattern α) (text : List α) :
    find wild pattern text = none ↔ ∀ p, ¬OccursAt wild pattern text p := by
  rw [← Option.not_isSome_iff_eq_none, find_isSome_iff, not_exists]

/-- The wildcards matter only through the letters that they meet. -/
theorem OccursAt.of_wild {other : α → Bool} (hoccurs : OccursAt wild pattern text p)
    (hwild : ∀ i x, pattern[i]? = some none → text[p + i]? = some x → other x = true) :
    OccursAt other pattern text p := by
  intro i place hplace
  obtain ⟨x, hx, haccepts⟩ := hoccurs i place hplace
  refine ⟨x, hx, ?_⟩
  cases place with
  | none => exact hwild i x hplace hx
  | some letter => exact haccepts

section Writing

/-- The places that accept the first letter and refuse the second. -/
def telling (wild : α → Bool) (pattern : Pattern α) (x y : α) : List ℕ :=
  (List.range pattern.length).filter fun i =>
    pattern[i]?.any fun place => accepts wild place x && !accepts wild place y

variable {k : ℕ} {x y : α}

theorem mem_telling {i : ℕ} :
    i ∈ telling wild pattern x y ↔
      ∃ place, pattern[i]? = some place ∧ accepts wild place x = true ∧
        accepts wild place y = false := by
  simp only [telling, List.mem_filter, List.mem_range, Option.any_eq_true, Bool.and_eq_true,
    Bool.not_eq_true']
  constructor
  · rintro ⟨-, place, hplace, hx, hy⟩
    exact ⟨place, hplace, hx, hy⟩
  · rintro ⟨place, hplace, hx, hy⟩
    exact ⟨(List.getElem?_eq_some_iff.1 hplace).1, place, hplace, hx, hy⟩

/-- An occurrence survives the writing when no telling place meets the position. -/
theorem OccursAt.set (hoccurs : OccursAt wild pattern text p) (hx : text[k]? = some x)
    (hkeep : ∀ i ∈ telling wild pattern x y, p + i ≠ k) :
    OccursAt wild pattern (text.set k y) p := by
  intro i place hplace
  obtain ⟨z, hz, haccepts⟩ := hoccurs i place hplace
  by_cases hmeets : p + i = k
  · obtain rfl : x = z := by simpa [← hmeets, hz] using hx.symm
    refine ⟨y, ?_, ?_⟩
    · rw [hmeets, List.getElem?_set_self (List.getElem?_eq_some_iff.1 hx).1]
    · by_contra hrefuses
      exact hkeep i (mem_telling.2 ⟨place, hplace, haccepts, by simpa using hrefuses⟩) hmeets
  · exact ⟨z, by rw [List.getElem?_set_ne (Ne.symm hmeets), hz], haccepts⟩

/-- An occurrence after the writing was there before when no telling place meets the
position. -/
theorem OccursAt.of_set (hoccurs : OccursAt wild pattern (text.set k y) p)
    (hx : text[k]? = some x) (hkeep : ∀ i ∈ telling wild pattern y x, p + i ≠ k) :
    OccursAt wild pattern text p := by
  have hk := (List.getElem?_eq_some_iff.1 hx).1
  have hback : ((text.set k y).set k x) = text := by
    rw [List.set_set, ← (List.getElem?_eq_some_iff.1 hx).2, List.set_getElem_self]
  rw [← hback]
  exact hoccurs.set (List.getElem?_set_self hk) hkeep

/-- The writing destroys an occurrence of which a telling place meets the position. -/
theorem not_occursAt_set {i : ℕ} (hi : i ∈ telling wild pattern x y) (hx : text[p + i]? = some x) :
    ¬OccursAt wild pattern (text.set (p + i) y) p := by
  intro hoccurs
  obtain ⟨place, hplace, -, hrefuses⟩ := mem_telling.1 hi
  obtain ⟨z, hz, haccepts⟩ := hoccurs i place hplace
  rw [List.getElem?_set_self (List.getElem?_eq_some_iff.1 hx).1] at hz
  obtain rfl : y = z := by simpa using hz
  rw [hrefuses] at haccepts
  exact Bool.false_ne_true haccepts

/-- When no place prefers the new letter, the writing only destroys occurrences. -/
theorem occursAt_set_iff (hx : text[k]? = some x) (hnew : telling wild pattern y x = []) :
    OccursAt wild pattern (text.set k y) p ↔
      OccursAt wild pattern text p ∧ ∀ i ∈ telling wild pattern x y, p + i ≠ k := by
  constructor
  · intro hoccurs
    refine ⟨hoccurs.of_set hx (by simp [hnew]), ?_⟩
    rintro i hi rfl
    exact not_occursAt_set hi hx hoccurs
  · rintro ⟨hoccurs, hkeep⟩
    exact hoccurs.set hx hkeep

/-- When no place tells the two letters apart, the writing changes no occurrence. -/
theorem occursAt_set_iff_of_indifferent (hx : text[k]? = some x)
    (hlost : telling wild pattern x y = []) (hnew : telling wild pattern y x = []) :
    OccursAt wild pattern (text.set k y) p ↔ OccursAt wild pattern text p := by
  rw [occursAt_set_iff hx hnew, hlost]
  exact and_iff_left fun i hi => absurd hi List.not_mem_nil

end Writing

end Colata.Math.Occurrence
