/-
# Typing the value of a parameter

The steps are built with the numbers in the fields. A number that is typed reaches them when
its field is left. If two parameters of the dump have the same index they share one entry, and
the first of their fields decides: what is typed in the second one is shown, but not used.
-/

import Colata.Viewer.Runs

namespace Colata.Viewer

open Colata.IR Colata.Math

/-- The number in the first of the fields for an index. -/
def fieldFor (inputs : List ParamInput) (index : Binary64) : Option Binary64 :=
  (inputs.find? fun input => input.index = index).map ParamInput.value

/-- Typing changes what the first field for an index holds, if it is the field typed in. -/
theorem fieldFor_modify {inputs : List ParamInput} {position : ℕ} {typed : ParamInput}
    (h : inputs[position]? = some typed) (value index : Binary64) :
    fieldFor (inputs.modify position fun input => { input with value }) index =
      if index = typed.index ∧ index ∉ (inputs.take position).map ParamInput.index then
        some value
      else fieldFor inputs index := by
  induction inputs generalizing position with
  | nil => cases h
  | cons input inputs ih =>
      have hcons : ∀ (first : ParamInput) (rest : List ParamInput),
          fieldFor (first :: rest) index =
            if first.index = index then some first.value else fieldFor rest index := by
        intro first rest
        rw [fieldFor, List.find?_cons]
        by_cases hfirst : first.index = index
        · simp [hfirst]
        · simp [hfirst, fieldFor]
      cases position with
      | zero =>
          obtain rfl : input = typed := Option.some.inj h
          rw [List.modify_zero_cons, hcons, hcons, List.take_zero]
          by_cases hindex : input.index = index
          · rw [if_pos hindex, if_pos ⟨hindex.symm, List.not_mem_nil⟩]
          · rw [if_neg hindex, if_neg fun hand => hindex hand.1.symm, if_neg hindex]
      | succ position =>
          rw [List.modify_succ_cons, hcons, hcons, List.take_succ_cons, List.map_cons]
          by_cases hindex : input.index = index
          · rw [if_pos hindex, if_neg fun hand => hand.2 (hindex ▸ List.mem_cons_self),
              if_pos hindex]
          · have hmem : index ∈ input.index :: (inputs.take position).map ParamInput.index ↔
                index ∈ (inputs.take position).map ParamInput.index := by
              rw [List.mem_cons, or_iff_right (Ne.symm hindex)]
            rw [if_neg hindex, if_neg hindex, ih h]
            simp only [hmem]

/-- The values in the fields after typing. -/
theorem Page.typedValues_modify {page : Page} {position : ℕ} {typed : ParamInput}
    (h : page.paramInputs[position]? = some typed) (value : Binary64) :
    ({ page with
      paramInputs := page.paramInputs.modify position fun input => { input with value } } :
      Page).typedValues =
      if typed.index ∈ (page.paramInputs.take position).map ParamInput.index then
        page.typedValues
      else Function.update page.typedValues typed.index (some (.num value)) := by
  funext index
  show (fieldFor (page.paramInputs.modify position fun input => { input with value })
    index).map Value.num = _
  rw [fieldFor_modify h]
  by_cases hearlier : typed.index ∈ (page.paramInputs.take position).map ParamInput.index
  · rw [if_pos hearlier, if_neg fun hand => hand.2 (hand.1 ▸ hearlier)]
    rfl
  · rw [if_neg hearlier]
    by_cases hindex : index = typed.index
    · rw [if_pos ⟨hindex, hindex ▸ hearlier⟩, hindex, Function.update_self]
      rfl
    · rw [if_neg fun hand => hindex hand.1, Function.update_of_ne hindex]
      rfl

/-- Typing a number into a field and leaving the field in any moment of a run: if the field is
the first for its index then the steps are built with the number and with what the other
fields hold, and otherwise with what the fields held before. -/
theorem run_typed (browser : Browser) (irText javaText : String) (happyPath : Bool)
    (events : List Event) (position : ℕ) (value : Binary64) :
    let page := run browser irText javaText happyPath events
    let next := run browser irText javaText happyPath
      (events ++ [.typeParam position value, .changeParam position])
    next.nodes = page.nodes ∧ next.happyPath = page.happyPath ∧
      ∀ typed, page.paramInputs[position]? = some typed →
        buildSteps next.nodes next.edges next.levels
          (if typed.index ∈ (page.paramInputs.take position).map ParamInput.index then
            page.typedValues
          else Function.update page.typedValues typed.index (some (.num value))) =
          some next.steps := by
  intro page next
  have hvalid : page.Valid browser := valid_run browser irText javaText happyPath events
  have hnext : next = stateLeft (Page.changeParam { page with
      paramInputs := page.paramInputs.modify position fun input => { input with value } }
      position) := run_append browser irText javaText happyPath events _
  by_cases hlt : position < page.paramInputs.length
  · obtain ⟨steps, left, hends⟩ :=
      (hvalid.typeParam position value).changeParam (by rwa [List.length_modify])
    rw [hnext, hends.outcome, Page.stateLeft_outcome]
    refine ⟨by rw [hends.frame]; rfl, by rw [hends.frame]; rfl, fun typed htyped => ?_⟩
    have hvalues : left.paramValues = ({ page with
        paramInputs := page.paramInputs.modify position fun input => { input with value } } :
        Page).typedValues := by rw [hends.frame]; rfl
    rw [← Page.typedValues_modify htyped, ← hvalues]
    exact hends.valid.built.steps
  · have hnone : page.paramInputs[position]? = none :=
      List.getElem?_eq_none_iff.mpr (not_lt.mp hlt)
    have hunchanged : (page.paramInputs.modify position fun input => { input with value })[position]?
        = none := by rw [List.getElem?_modify, hnone, Option.map_eq_map, Option.map_none]
    rw [hnext, Page.changeParam, hunchanged]
    refine ⟨rfl, rfl, fun typed htyped => ?_⟩
    rw [hnone] at htyped
    cases htyped

end Colata.Viewer
