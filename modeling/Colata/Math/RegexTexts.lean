/-
# The texts that a pattern reads

A pattern without captures reads the same texts wherever it stands. Its texts are known
from those of its pieces. A search passes over the positions from which the pattern cannot
match.
-/

import Colata.Math.Regex

namespace Colata.Math.Regex

/-- Wherever it stands, the pattern reads exactly these texts and captures nothing. -/
def Reads (pattern : Regex) (texts : List Char → Prop) : Prop :=
  ∀ state next, next ∈ run pattern state ↔ ∃ taken, texts taken ∧ state.Skips next taken

section Reads

variable {accepts : Char → Bool} {first second body : Regex} {firstTexts secondTexts texts :
  List Char → Prop}

theorem State.Skips.trans {state middle next : State} {taken more : List Char}
    (hfirst : state.Skips middle taken) (hsecond : middle.Skips next more) :
    state.Skips next (taken ++ more) := by
  obtain ⟨_, hrest, rfl⟩ := hfirst
  obtain ⟨after, hafter, rfl⟩ := hsecond
  refine ⟨after, by rw [hrest, List.append_assoc]; exact congrArg (taken ++ ·) hafter, ?_⟩
  rw [List.length_append, Nat.add_assoc]

theorem State.Skips.split {state next : State} {taken more : List Char}
    (h : state.Skips next (taken ++ more)) :
    ∃ middle : State, state.Skips middle taken ∧ middle.Skips next more := by
  obtain ⟨after, hrest, rfl⟩ := h
  rw [List.append_assoc] at hrest
  refine ⟨⟨_, more ++ after, state.captures⟩, ⟨more ++ after, hrest, rfl⟩, after, rfl, ?_⟩
  rw [List.length_append, Nat.add_assoc]

theorem State.skips_nil {state next : State} : state.Skips next [] ↔ next = state := by
  constructor
  · rintro ⟨_, hrest, rfl⟩
    rw [List.nil_append] at hrest
    rw [← hrest]
    rfl
  · rintro rfl
    exact ⟨_, rfl, rfl⟩

theorem State.Skips.length_rest {state next : State} {taken : List Char}
    (h : state.Skips next taken) :
    next.rest.length < state.rest.length ↔ taken ≠ [] := by
  obtain ⟨after, hrest, rfl⟩ := h
  rw [hrest, List.length_append, ← List.length_pos_iff]
  exact Nat.lt_add_left_iff_pos

/-- What a search finds are texts of the pattern. -/
theorem Reads.of_mem_findAllFrom (h : Reads body texts) {skip : ℕ} {text piece : List Char}
    (hmem : piece ∈ body.findAllFrom skip text) : texts piece := by
  obtain ⟨rest, found, hfound, rfl⟩ := exists_of_mem_findAllFrom hmem
  obtain ⟨taken, htaken, after, hrest, rfl⟩ :=
    (h (.initial rest) found).mp (List.mem_of_mem_head? hfound)
  have hwhole : rest = taken ++ after := hrest
  have hposition : (State.initial rest).position + taken.length = taken.length := Nat.zero_add _
  rwa [hposition, hwhole, List.take_left]

theorem reads_literal (text : String) : Reads (literal text) (· = text.toList) := by
  intro state next
  rw [mem_run_literal]
  simp

theorem reads_plus_char : Reads (plus (.char accepts))
    fun taken => taken ≠ [] ∧ ∀ c ∈ taken, accepts c := by
  intro state next
  rw [mem_run_plus_char]
  simp only [and_assoc]

theorem reads_star_char {greedy : Bool} :
    Reads (.star greedy (.char accepts)) fun taken => ∀ c ∈ taken, accepts c :=
  fun _ _ => mem_run_star_char_iff

theorem reads_empty : Reads .empty (· = []) := by
  intro state next
  have hrun : run .empty state = [state] := rfl
  simp [hrun, State.skips_nil]

theorem Reads.congr {other : List Char → Prop} (h : Reads body texts)
    (hsame : ∀ taken, texts taken ↔ other taken) : Reads body other := by
  intro state next
  rw [h state next]
  exact exists_congr fun taken => and_congr_left' (hsame taken)

/-- A sequence reads the texts of its pieces one after the other. -/
theorem Reads.seq (hfirst : Reads first firstTexts) (hsecond : Reads second secondTexts) :
    Reads (.seq first second) fun taken =>
      ∃ left right, firstTexts left ∧ secondTexts right ∧ taken = left ++ right := by
  intro state next
  rw [run_seq, List.mem_flatMap]
  constructor
  · rintro ⟨middle, hmiddle, hnext⟩
    obtain ⟨left, hleft, hskips⟩ := (hfirst state middle).mp hmiddle
    obtain ⟨right, hright, hskips'⟩ := (hsecond middle next).mp hnext
    exact ⟨left ++ right, ⟨left, right, hleft, hright, rfl⟩, hskips.trans hskips'⟩
  · rintro ⟨_, ⟨left, right, hleft, hright, rfl⟩, hskips⟩
    obtain ⟨middle, hskips, hskips'⟩ := hskips.split
    exact ⟨middle, (hfirst state middle).mpr ⟨left, hleft, hskips⟩,
      (hsecond middle next).mpr ⟨right, hright, hskips'⟩⟩

theorem mem_run_opt {state next : State} :
    next ∈ run (.opt body) state ↔
      next ∈ run body state ∧ next.rest.length < state.rest.length ∨ next = state := by
  rw [run, List.mem_append, List.mem_filter, decide_eq_true_eq, List.mem_singleton]

/-- An optional piece takes in what its body takes in, if that is something. -/
theorem mem_run_opt_of_ne_nil {state next : State} {taken : List Char}
    (h : next ∈ run body state) (hrest : state.rest = taken ++ next.rest) (hne : taken ≠ []) :
    next ∈ run (.opt body) state := by
  have hshorter : next.rest.length < state.rest.length := by
    rw [hrest, List.length_append]
    exact Nat.lt_add_of_pos_left (List.length_pos_iff.mpr hne)
  exact mem_run_opt.mpr (Or.inl ⟨h, hshorter⟩)

/-- An optional piece reads its texts or nothing. -/
theorem Reads.opt (h : Reads body texts) :
    Reads (.opt body) fun taken => texts taken ∧ taken ≠ [] ∨ taken = [] := by
  intro state next
  rw [mem_run_opt, h state next]
  constructor
  · rintro (⟨⟨taken, htaken, hskips⟩, hshorter⟩ | hsame)
    · exact ⟨taken, Or.inl ⟨htaken, hskips.length_rest.mp hshorter⟩, hskips⟩
    · exact ⟨[], Or.inr rfl, State.skips_nil.mpr hsame⟩
  · rintro ⟨taken, ⟨htaken, hne⟩ | rfl, hskips⟩
    · exact Or.inl ⟨⟨taken, htaken, hskips⟩, hskips.length_rest.mpr hne⟩
    · exact Or.inr (State.skips_nil.mp hskips)

/-- A group captures what its body reads. -/
theorem Reads.mem_run_group (h : Reads body texts) {index : ℕ} {state next : State} :
    next ∈ run (.group index body) state ↔
      ∃ taken after, texts taken ∧ state.rest = taken ++ after ∧
        next = ⟨state.position + taken.length, after, (index, taken) :: state.captures⟩ := by
  rw [run_group, List.mem_map]
  constructor
  · rintro ⟨middle, hmiddle, rfl⟩
    obtain ⟨taken, htaken, after, hrest, rfl⟩ := (h state middle).mp hmiddle
    refine ⟨taken, after, htaken, hrest, ?_⟩
    cases state
    subst hrest
    exact State.capture_append
  · rintro ⟨taken, after, htaken, hrest, rfl⟩
    refine ⟨_, (h state _).mpr ⟨taken, htaken, after, hrest, rfl⟩, ?_⟩
    cases state
    subst hrest
    exact State.capture_append

theorem Reads.group_mem_run (h : Reads body texts) {taken : List Char} (htaken : texts taken)
    (index position : ℕ) (after : List Char) (captures : List (ℕ × List Char)) :
    ⟨position + taken.length, after, (index, taken) :: captures⟩ ∈
      run (.group index body) ⟨position, taken ++ after, captures⟩ :=
  h.mem_run_group.mpr ⟨taken, after, htaken, rfl, rfl⟩

theorem mem_run_alt {state next : State} :
    next ∈ run (.alt first second) state ↔ next ∈ run first state ∨ next ∈ run second state := by
  rw [run, List.mem_append]

end Reads

/-! ## Searching -/

section Search

variable {pattern : Regex} {position : ℕ} {found : State}

/-- What a search finds, it finds at some position. -/
theorem exists_of_searchFrom {position : ℕ} {text : List Char}
    (h : pattern.searchFrom position text = some found) :
    ∃ start rest, found ∈ pattern.run ⟨start, rest, []⟩ := by
  induction text generalizing position with
  | nil => exact ⟨position, [], List.mem_of_mem_head? h⟩
  | cons c text ih =>
      rw [searchFrom] at h
      split at h
      · rename_i first hfirst
        obtain rfl := Option.some.inj h
        exact ⟨position, c :: text, List.mem_of_mem_head? hfirst⟩
      · exact ih h

theorem searchFrom_of_head? {text : List Char}
    (h : (pattern.run ⟨position, text, []⟩).head? = some found) :
    pattern.searchFrom position text = some found := by
  cases text with
  | nil => exact h
  | cons c text => rw [searchFrom, h]

/-- A search passes over what the pattern cannot start with. -/
theorem searchFrom_append {before after : List Char}
    (h : ∀ skipped rest, before = skipped ++ rest → rest ≠ [] → ∀ position,
      pattern.run ⟨position, rest ++ after, []⟩ = []) :
    pattern.searchFrom position (before ++ after) =
      pattern.searchFrom (position + before.length) after := by
  induction before generalizing position with
  | nil => rfl
  | cons c before ih =>
      have hnone := h [] (c :: before) rfl (List.cons_ne_nil c before) position
      have hrest : pattern.searchFrom (position + 1) (before ++ after) = _ :=
        ih fun skipped rest hsplit => h (c :: skipped) rest (by rw [hsplit]; rfl)
      have hlength : position + 1 + before.length = position + (c :: before).length := by
        rw [List.length_cons, Nat.add_assoc, Nat.add_comm 1]
      rw [List.cons_append] at hnone
      rw [List.cons_append, searchFrom, hnone, ← hlength, ← hrest]
      rfl

end Search

end Colata.Math.Regex
