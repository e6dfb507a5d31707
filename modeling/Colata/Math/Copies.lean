/-
# Contents that are copied between cells

Every cell holds a content of its own at first. An effect may copy the content of one
cell into another, and may make cells lose what they hold. A cell that has lost its
content holds an initial one again only after a copy into it.
-/

import Mathlib.Data.List.Basic

namespace Colata.Math

/-- What happens to the cells: a copy from a source into a target, and lost contents. -/
structure Effect (ρ : Type) where
  copied : Option (ρ × ρ)
  lost : List ρ

variable {ρ : Type} [DecidableEq ρ]

/-- The cells, each with the cell whose initial content it holds, if it holds one. -/
def Effect.apply (effect : Effect ρ) (contents : ρ → Option ρ) : ρ → Option ρ := fun cell =>
  if cell ∈ effect.lost then none
  else
    match effect.copied with
    | some (source, target) => if cell = target then contents source else contents cell
    | none => contents cell

def contentsAfter (effects : List (Effect ρ)) : ρ → Option ρ :=
  effects.foldl (fun contents effect => effect.apply contents) some

/-- The effect puts the content of another cell into the cell. -/
def Effect.CopiesInto (effect : Effect ρ) (cell : ρ) : Prop :=
  cell ∉ effect.lost ∧ ∃ source, effect.copied = some (source, cell)

theorem Effect.apply_eq_of_not_copiesInto {effect : Effect ρ} {contents : ρ → Option ρ} {cell : ρ}
    (hcopy : ¬ effect.CopiesInto cell) (hnone : contents cell = none) :
    effect.apply contents cell = none := by
  unfold Effect.apply
  split_ifs with hlost
  · rfl
  · split
    · rename_i source target hcopied
      have hne : cell ≠ target := by
        rintro rfl
        exact hcopy ⟨hlost, source, hcopied⟩
      rw [if_neg hne, hnone]
    · exact hnone

theorem foldl_apply_eq_none {effects : List (Effect ρ)} {contents : ρ → Option ρ} {cell : ρ}
    (hcopy : ∀ effect ∈ effects, ¬ effect.CopiesInto cell) (hnone : contents cell = none) :
    effects.foldl (fun contents effect => effect.apply contents) contents cell = none := by
  induction effects generalizing contents with
  | nil => exact hnone
  | cons effect effects ih =>
    apply ih fun other hother => hcopy other (List.mem_cons_of_mem _ hother)
    exact Effect.apply_eq_of_not_copiesInto (hcopy effect List.mem_cons_self) hnone

/-- After a loss, only a copy brings a cell an initial content again. -/
theorem exists_copiesInto_of_lost {before after : List (Effect ρ)} {effect : Effect ρ} {cell : ρ}
    (hlost : cell ∈ effect.lost)
    (hholds : (contentsAfter (before ++ effect :: after) cell).isSome) :
    ∃ copy ∈ after, copy.CopiesInto cell := by
  by_contra hno
  push Not at hno
  have hnone : effect.apply (contentsAfter before) cell = none := if_pos hlost
  have hafter := foldl_apply_eq_none hno hnone
  rw [contentsAfter, List.foldl_append, List.foldl_cons] at hholds
  rw [contentsAfter] at hafter
  rw [hafter] at hholds
  cases hholds

end Colata.Math
