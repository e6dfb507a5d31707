/-
# Prioritized regular expressions

A pattern denotes, at each input state, the list of all states in which a
backtracking matcher can leave it, the preferred one first. Sequencing is
`flatMap`, so the head of the list is exactly the match a backtracking engine
reports, and the remaining elements are the ones it would fall back to. Greedy
and lazy repetition differ only in the order of the list.
-/

import Mathlib.Data.List.Basic
import Mathlib.Data.List.TakeWhile

namespace Colata.Math

/-- Regular expressions over characters, with numbered capture groups. -/
inductive Regex
  | empty
  | char (accepts : Char → Bool)
  | seq (first second : Regex)
  | alt (first second : Regex)
  | opt (body : Regex)
  | star (greedy : Bool) (body : Regex)
  | group (index : ℕ) (body : Regex)
  | start
  | stop

namespace Regex

/-- Where a matcher stands: how far it has read, what remains, and what its
groups have captured so far, latest first. -/
structure State where
  position : ℕ
  rest : List Char
  captures : List (ℕ × List Char)

namespace State

/-- The state before anything is read. -/
def initial (text : List Char) : State := ⟨0, text, []⟩

/-- Read `count` characters. -/
def advance (state : State) (count : ℕ) : State :=
  ⟨state.position + count, state.rest.drop count, state.captures⟩

/-- Record for `index` the text read since `before`. -/
def capture (index : ℕ) (before after : State) : State :=
  { after with
    captures := (index, before.rest.take (after.position - before.position)) :: after.captures }

/-- The text a group captured last, if it took part in the match. -/
def captured (state : State) (index : ℕ) : Option (List Char) :=
  state.captures.lookup index

@[simp]
theorem advance_zero (state : State) : state.advance 0 = state := by
  simp [advance]

theorem advance_advance (state : State) (first second : ℕ) :
    (state.advance first).advance second = state.advance (first + second) := by
  simp [advance, Nat.add_assoc]

@[simp]
theorem advance_rest (state : State) (count : ℕ) :
    (state.advance count).rest = state.rest.drop count := rfl

end State

/-- Repeat a body, consuming at least one character each time round. -/
def iterate (body : State → List State) (greedy : Bool) : ℕ → State → List State
  | 0, state => [state]
  | fuel + 1, state =>
      let more := (body state).flatMap fun next =>
        if next.rest.length < state.rest.length then iterate body greedy fuel next else []
      if greedy then more ++ [state] else state :: more

/-- All ways to match, the preferred one first. -/
def run : Regex → State → List State
  | .empty, state => [state]
  | .char accepts, state =>
      match state.rest with
      | c :: _ => if accepts c then [state.advance 1] else []
      | [] => []
  | .seq first second, state => (run first state).flatMap (run second)
  | .alt first second, state => run first state ++ run second state
  | .opt body, state =>
      (run body state).filter (fun next => next.rest.length < state.rest.length) ++ [state]
  | .star greedy body, state => iterate (run body) greedy state.rest.length state
  | .group index body, state => (run body state).map (State.capture index state)
  | .start, state => if state.position = 0 then [state] else []
  | .stop, state => if state.rest = [] then [state] else []

/-- One or more times, as often as possible. -/
def plus (body : Regex) : Regex := .seq body (.star true body)

/-- The pieces one after the other. -/
def sequence : List Regex → Regex
  | [] => .empty
  | piece :: pieces => .seq piece (sequence pieces)

/-- A fixed text. -/
def literal (text : String) : Regex :=
  sequence (text.toList.map fun expected => .char (· == expected))

/-- The leftmost match, as an unanchored search finds it. -/
def searchFrom (pattern : Regex) : ℕ → List Char → Option State
  | position, [] => (pattern.run ⟨position, [], []⟩).head?
  | position, c :: text =>
      match (pattern.run ⟨position, c :: text, []⟩).head? with
      | some found => some found
      | none => searchFrom pattern (position + 1) text

def search (pattern : Regex) (text : List Char) : Option State :=
  pattern.searchFrom 0 text

/-- The match that starts with the text, or none. -/
def matchStart (pattern : Regex) (text : List Char) : Option State :=
  (pattern.run (.initial text)).head?

/-- The matches that do not overlap, from left to right, for a pattern that matches no
empty text. The number says how many characters still belong to the last match. -/
def findAllFrom (pattern : Regex) : ℕ → List Char → List (List Char)
  | _, [] => []
  | skip + 1, _ :: text => findAllFrom pattern skip text
  | 0, c :: text =>
      match pattern.matchStart (c :: text) with
      | some found =>
          (c :: text).take found.position :: findAllFrom pattern (found.position - 1) text
      | none => findAllFrom pattern 0 text

def findAll (pattern : Regex) (text : List Char) : List (List Char) :=
  pattern.findAllFrom 0 text

theorem exists_of_mem_findAllFrom {pattern : Regex} {skip : ℕ} {text piece : List Char}
    (h : piece ∈ pattern.findAllFrom skip text) :
    ∃ rest found, pattern.matchStart rest = some found ∧ piece = rest.take found.position := by
  induction text generalizing skip with
  | nil => cases h
  | cons c text ih =>
    cases skip with
    | succ skip => exact ih h
    | zero =>
      rw [findAllFrom] at h
      split at h
      · rename_i found hfound
        rcases List.mem_cons.mp h with rfl | hmem
        · exact ⟨c :: text, found, hfound, rfl⟩
        · exact ih hmem
      · exact ih h

/-! ## Sequences of pieces -/

theorem run_seq (first second : Regex) (state : State) :
    run (.seq first second) state = (run first state).flatMap (run second) := rfl

@[simp]
theorem run_sequence_nil (state : State) : run (sequence []) state = [state] := rfl

@[simp]
theorem run_sequence_cons (piece : Regex) (pieces : List Regex) (state : State) :
    run (sequence (piece :: pieces)) state =
      (run piece state).flatMap (run (sequence pieces)) := rfl

theorem run_char_cons {accepts : Char → Bool} {state : State} {c : Char} {text : List Char}
    (hrest : state.rest = c :: text) :
    run (.char accepts) state = if accepts c then [state.advance 1] else [] := by
  simp [run, hrest]

theorem run_char_nil {accepts : Char → Bool} {state : State} (hrest : state.rest = []) :
    run (.char accepts) state = [] := by
  simp [run, hrest]

/-- A fixed text matches in exactly one way, if it is what comes next. -/
theorem run_literal {text : List Char} {state : State} {after : List Char}
    (hrest : state.rest = text ++ after) :
    run (sequence (text.map fun expected => .char (· == expected))) state =
      [state.advance text.length] := by
  induction text generalizing state with
  | nil => simp
  | cons c text ih =>
      have hnext : (state.advance 1).rest = text ++ after := by simp [hrest]
      rw [List.map_cons, run_sequence_cons, run_char_cons (by simpa using hrest)]
      simp only [beq_self_eq_true, ↓reduceIte, List.flatMap_singleton]
      rw [ih hnext, State.advance_advance, List.length_cons, Nat.add_comm 1]

/-! ## Repeating one character class -/

section CharacterClass

variable {accepts : Char → Bool}

/-- How many characters of the class come next. -/
def classLength (accepts : Char → Bool) (text : List Char) : ℕ :=
  (text.takeWhile accepts).length

private theorem iterate_char (greedy : Bool) (fuel : ℕ) (state : State)
    (hfuel : state.rest.length ≤ fuel) :
    iterate (run (.char accepts)) greedy fuel state =
      if greedy then
        ((List.range (classLength accepts state.rest + 1)).map state.advance).reverse
      else (List.range (classLength accepts state.rest + 1)).map state.advance := by
  induction fuel generalizing state with
  | zero =>
      have hnil : state.rest = [] := List.length_eq_zero_iff.mp (Nat.le_zero.mp hfuel)
      simp [iterate, classLength, hnil]
  | succ fuel ih =>
      cases hrest : state.rest with
      | nil => simp [iterate, run_char_nil hrest, classLength]
      | cons c text =>
          by_cases hc : accepts c
          · have hlength : (state.advance 1).rest.length ≤ fuel := by
              simp [hrest] at hfuel ⊢; omega
            have hshorter : (state.advance 1).rest.length < (c :: text).length := by
              simp [hrest]
            have hrange : (List.range (classLength accepts (c :: text) + 1)).map state.advance =
                state :: (List.range (classLength accepts text + 1)).map
                  (state.advance 1).advance := by
              have hclass : classLength accepts (c :: text) = classLength accepts text + 1 := by
                simp [classLength, hc]
              rw [hclass, List.range_succ_eq_map, List.map_cons, List.map_map]
              simp [State.advance_advance, Function.comp_def, Nat.add_comm 1]
            have hmore := ih (state.advance 1) hlength
            have htext : (state.advance 1).rest = text := by simp [hrest]
            rw [htext] at hmore
            rw [hrange]
            simp only [iterate, run_char_cons hrest, hc, ↓reduceIte, List.flatMap_cons,
              List.flatMap_nil, List.append_nil, hrest, hshorter]
            cases greedy <;> simp [hmore]
          · have hclass : classLength accepts (c :: text) = 0 := by simp [classLength, hc]
            simp [iterate, run_char_cons hrest, hc, hclass]

/-- Lazy repetition of a class tries the shortest piece first. -/
theorem run_lazy_char (state : State) :
    run (.star false (.char accepts)) state =
      (List.range (classLength accepts state.rest + 1)).map state.advance := by
  rw [run, iterate_char _ _ _ le_rfl, if_neg (by decide)]

/-- Greedy repetition of a class tries the longest piece first. -/
theorem run_greedy_char (state : State) :
    run (.star true (.char accepts)) state =
      ((List.range (classLength accepts state.rest + 1)).map state.advance).reverse := by
  rw [run, iterate_char _ _ _ le_rfl, if_pos rfl]

theorem mem_run_star_char {greedy : Bool} {state next : State} :
    next ∈ run (.star greedy (.char accepts)) state ↔
      ∃ count ≤ classLength accepts state.rest, state.advance count = next := by
  cases greedy with
  | false => simp only [run_lazy_char, List.mem_map, List.mem_range, Nat.lt_succ_iff]
  | true =>
      simp only [run_greedy_char, List.mem_reverse, List.mem_map, List.mem_range, Nat.lt_succ_iff]

/-- A class runs to the end of the text exactly when it accepts every character. -/
theorem classLength_eq_length {text : List Char} :
    classLength accepts text = text.length ↔ ∀ c ∈ text, accepts c := by
  rw [classLength, ← List.takeWhile_eq_self_iff]
  constructor
  · intro hlength
    exact (List.takeWhile_prefix accepts).eq_of_length hlength
  · intro heq
    rw [heq]

theorem classLength_le_length (text : List Char) : classLength accepts text ≤ text.length :=
  (List.takeWhile_prefix accepts).length_le

theorem classLength_append {taken after : List Char} (htaken : ∀ c ∈ taken, accepts c)
    (hafter : ∀ c ∈ after.head?, accepts c = false) :
    classLength accepts (taken ++ after) = taken.length := by
  have hstop : after.takeWhile accepts = [] := by
    cases after with
    | nil => rfl
    | cons c after => simp [hafter c (by simp)]
  rw [classLength, List.takeWhile_append_of_pos htaken, hstop, List.append_nil]

/-- A class stops before a character that it does not accept. -/
theorem classLength_append_lt {taken : List Char} (after : List Char) (hne : taken ≠ [])
    (hlast : ∀ c ∈ taken.getLast?, accepts c = false) :
    classLength accepts (taken ++ after) < taken.length := by
  have hpartial : classLength accepts taken ≠ taken.length := by
    intro hfull
    have haccepts := classLength_eq_length.mp hfull _ (List.getLast_mem hne)
    rw [hlast _ (List.getLast?_eq_some_getLast hne)] at haccepts
    cases haccepts
  have hle : classLength accepts taken ≤ taken.length := classLength_le_length taken
  rw [classLength] at hpartial hle ⊢
  rw [List.takeWhile_append, if_neg hpartial]
  omega

theorem le_classLength {taken after : List Char} (htaken : ∀ c ∈ taken, accepts c) :
    taken.length ≤ classLength accepts (taken ++ after) := by
  rw [classLength, List.takeWhile_append_of_pos htaken]
  simp

/-- If the rest of the pattern matches after the whole run of the class, that
match is the one greedy repetition reports. -/
theorem greedy_first {state : State} {taken after : List Char} {next : State → List State}
    {found : State} (hrest : state.rest = taken ++ after) (htaken : ∀ c ∈ taken, accepts c)
    (hafter : ∀ c ∈ after.head?, accepts c = false)
    (hfound : (next (state.advance taken.length)).head? = some found) :
    ((run (.star true (.char accepts)) state).flatMap next).head? = some found := by
  rw [run_greedy_char, hrest, classLength_append htaken hafter, List.range_succ]
  simp [hfound]

/-- If the rest of the pattern fails after every shorter piece of the class and
matches after `taken`, that match is the one lazy repetition reports. -/
theorem lazy_first {state : State} {taken after : List Char} {next : State → List State}
    {found : State} (hrest : state.rest = taken ++ after) (htaken : ∀ c ∈ taken, accepts c)
    (hshorter : ∀ count < taken.length, next (state.advance count) = [])
    (hfound : (next (state.advance taken.length)).head? = some found) :
    ((run (.star false (.char accepts)) state).flatMap next).head? = some found := by
  have hle : taken.length ≤ classLength accepts state.rest := by
    rw [hrest]
    exact le_classLength htaken
  obtain ⟨extra, hextra⟩ := Nat.exists_eq_add_of_le hle
  have hskip : ((List.range taken.length).map state.advance).flatMap next = [] := by
    simpa [List.flatMap_eq_nil_iff] using hshorter
  have hsplit : classLength accepts state.rest + 1 = taken.length + (extra + 1) := by omega
  rw [run_lazy_char, hsplit, List.range_add, List.map_append, List.flatMap_append, hskip,
    List.nil_append, List.range_succ_eq_map]
  simp [hfound]

theorem mem_run_stop {state next : State} :
    next ∈ run (sequence [.stop]) state ↔ state.rest = [] ∧ next = state := by
  by_cases h : state.rest = [] <;> simp [run, h]

/-- `^`, a class repeated, `$`: the whole text is a non-empty run of the class. -/
theorem matchStart_plus_char_stop (text : List Char) :
    (matchStart (sequence [.start, plus (.char accepts), .stop]) text).isSome ↔
      text ≠ [] ∧ ∀ c ∈ text, accepts c := by
  have hsome : ∀ found : List State, found.head?.isSome ↔ ∃ next, next ∈ found := fun found => by
    cases found <;> simp
  have hstart : run .start (.initial text) = [.initial text] := by simp [run, State.initial]
  rw [matchStart, hsome, run_sequence_cons, hstart, List.flatMap_singleton, run_sequence_cons,
    plus, run_seq]
  cases text with
  | nil => simp [State.initial, run_char_nil]
  | cons first text =>
      rw [run_char_cons (show (State.initial (first :: text)).rest = first :: text from rfl)]
      by_cases hfirst : accepts first
      · simp only [hfirst, ↓reduceIte, List.flatMap_singleton, List.mem_flatMap,
          mem_run_star_char, mem_run_stop]
        constructor
        · rintro ⟨_, _, ⟨count, hcount, rfl⟩, hrest, rfl⟩
          have hend : (text.drop count) = [] := by simpa [State.initial] using hrest
          have hfull : classLength accepts text = text.length :=
            le_antisymm (classLength_le_length text)
              ((List.drop_eq_nil_iff.mp hend).trans (by simpa [State.initial] using hcount))
          simpa [hfirst] using classLength_eq_length.mp hfull
        · rintro ⟨_, hall⟩
          have hfull : classLength accepts text = text.length :=
            classLength_eq_length.mpr fun c hc => hall c (List.mem_cons_of_mem _ hc)
          exact ⟨_, _, ⟨text.length, by simp [State.initial, hfull], rfl⟩,
            by simp [State.initial], rfl⟩
      · simp [hfirst]

end CharacterClass

/-! ## The first match, piece by piece -/

/-- The pieces match, and the match a backtracking matcher reports meets `post`. -/
def First (pieces : List Regex) (state : State) (post : State → Prop) : Prop :=
  ∃ found, (run (sequence pieces) state).head? = some found ∧ post found

section First

variable {accepts : Char → Bool} {more : List Regex} {position index : ℕ}
  {taken after rest : List Char} {captures : List (ℕ × List Char)} {post : State → Prop}

theorem State.advance_append :
    (⟨position, taken ++ after, captures⟩ : State).advance taken.length =
      ⟨position + taken.length, after, captures⟩ := by
  simp [advance]

theorem State.capture_append :
    capture index ⟨position, taken ++ after, captures⟩
        ⟨position + taken.length, after, captures⟩ =
      ⟨position + taken.length, after, (index, taken) :: captures⟩ := by
  simp [capture]

theorem run_group (index : ℕ) (body : Regex) (state : State) :
    run (.group index body) state = (run body state).map (State.capture index state) := rfl

theorem First.start (h : First more (.initial rest) post) :
    First (.start :: more) (.initial rest) post := by
  have hstart : run .start (.initial rest) = [.initial rest] := by simp [run, State.initial]
  rw [First, run_sequence_cons, hstart, List.flatMap_singleton]
  exact h

theorem First.literal {text : String}
    (h : First more ⟨position + text.toList.length, after, captures⟩ post) :
    First (.literal text :: more) ⟨position, text.toList ++ after, captures⟩ post := by
  rw [First, run_sequence_cons, Regex.literal, run_literal rfl, List.flatMap_singleton,
    State.advance_append]
  exact h

/-- Greedy repetition takes the whole run of its class. -/
theorem First.greedy (htaken : ∀ c ∈ taken, accepts c)
    (hafter : ∀ c ∈ after.head?, accepts c = false)
    (h : First more ⟨position + taken.length, after, captures⟩ post) :
    First (.star true (.char accepts) :: more) ⟨position, taken ++ after, captures⟩ post := by
  obtain ⟨found, hfound, hpost⟩ := h
  rw [← State.advance_append] at hfound
  exact ⟨found, greedy_first rfl htaken hafter hfound, hpost⟩

theorem plus_first {next : State → List State} {found : State} (hne : taken ≠ [])
    (htaken : ∀ c ∈ taken, accepts c) (hafter : ∀ c ∈ after.head?, accepts c = false)
    (hfound : (next ⟨position + taken.length, after, captures⟩).head? = some found) :
    ((run (plus (.char accepts)) ⟨position, taken ++ after, captures⟩).flatMap next).head? =
      some found := by
  cases taken with
  | nil => exact absurd rfl hne
  | cons c taken =>
      have hfirst : accepts c := htaken c List.mem_cons_self
      rw [plus, run_seq, run_char_cons rfl, if_pos hfirst, List.flatMap_singleton]
      apply greedy_first rfl (fun d hd => htaken d (List.mem_cons_of_mem c hd)) hafter
      rw [State.advance_advance, Nat.add_comm 1, ← List.length_cons, State.advance_append]
      exact hfound

theorem First.plus (hne : taken ≠ []) (htaken : ∀ c ∈ taken, accepts c)
    (hafter : ∀ c ∈ after.head?, accepts c = false)
    (h : First more ⟨position + taken.length, after, captures⟩ post) :
    First (.plus (.char accepts) :: more) ⟨position, taken ++ after, captures⟩ post := by
  obtain ⟨found, hfound, hpost⟩ := h
  exact ⟨found, plus_first hne htaken hafter hfound, hpost⟩

theorem First.groupPlus (hne : taken ≠ []) (htaken : ∀ c ∈ taken, accepts c)
    (hafter : ∀ c ∈ after.head?, accepts c = false)
    (h : First more ⟨position + taken.length, after, (index, taken) :: captures⟩ post) :
    First (.group index (.plus (.char accepts)) :: more) ⟨position, taken ++ after, captures⟩
      post := by
  obtain ⟨found, hfound, hpost⟩ := h
  rw [First, run_sequence_cons, run_group, List.flatMap_map]
  rw [← State.capture_append] at hfound
  exact ⟨found, plus_first hne htaken hafter hfound, hpost⟩

theorem run_literal_eq_nil {text : String} {expected c : Char} {state : State}
    (hhead : text.toList.head? = some expected) (hrest : state.rest = c :: rest)
    (hne : c ≠ expected) : run (.literal text) state = [] := by
  rw [Regex.literal]
  cases htext : text.toList with
  | nil => simp [htext] at hhead
  | cons first others =>
      obtain rfl : first = expected := by simpa [htext] using hhead
      rw [List.map_cons, run_sequence_cons, run_char_cons hrest]
      simp [hne]

/-- Nothing of a class followed by a text matches while other characters, the last of
them outside the class, come before the text. -/
theorem run_star_literal_eq_nil {greedy : Bool} {text : String} {expected : Char} {state : State}
    (hhead : text.toList.head? = some expected) (hrest : state.rest = taken ++ after)
    (hne : taken ≠ []) (hlast : ∀ c ∈ taken.getLast?, accepts c = false)
    (hclean : ∀ c ∈ taken, c ≠ expected) :
    run (sequence (.star greedy (.char accepts) :: .literal text :: more)) state = [] := by
  rw [run_sequence_cons, List.flatMap_eq_nil_iff]
  intro next hnext
  obtain ⟨count, hcount, rfl⟩ := mem_run_star_char.mp hnext
  -- The class stops before the last of the characters.
  have hshort : count < taken.length := by
    rw [hrest] at hcount
    exact hcount.trans_lt (classLength_append_lt after hne hlast)
  obtain ⟨c, rest, hdrop⟩ :=
    List.exists_cons_of_ne_nil (List.drop_eq_nil_iff.not.mpr (not_le.mpr hshort))
  have hc : c ∈ taken := List.mem_of_mem_drop (hdrop ▸ List.mem_cons_self)
  have hstate : (state.advance count).rest = c :: (rest ++ after) := by
    rw [State.advance_rest, hrest, List.drop_append_of_le_length hshort.le, hdrop, List.cons_append]
  rw [run_sequence_cons, run_literal_eq_nil hhead hstate (hclean c hc), List.flatMap_nil]

/-- A lazy group before blanks and a closing text takes everything up to the blanks. -/
theorem First.delimited {blank : Char → Bool} {text : String} {expected : Char}
    {margin : List Char} (hhead : text.toList.head? = some expected)
    (hexpected : blank expected = false) (htaken : ∀ c ∈ taken, accepts c)
    (hclean : ∀ c ∈ taken, c ≠ expected) (hlast : ∀ c ∈ taken.getLast?, blank c = false)
    (hmargin : ∀ c ∈ margin, blank c)
    (h : First more ⟨position + taken.length + margin.length + text.toList.length, after,
      (index, taken) :: captures⟩ post) :
    First (.group index (.star false (.char accepts)) :: .star true (.char blank) ::
      .literal text :: more) ⟨position, taken ++ (margin ++ (text.toList ++ after)), captures⟩
      post := by
  have htext : ∀ c ∈ (text.toList ++ after).head?, blank c = false := by
    rw [List.head?_append, hhead]
    intro c hc
    obtain rfl : expected = c := Option.some.inj hc
    exact hexpected
  obtain ⟨found, hfound, hpost⟩ := First.greedy hmargin htext (First.literal h)
  rw [First, run_sequence_cons, run_group, List.flatMap_map]
  refine ⟨found, ?_, hpost⟩
  apply lazy_first rfl htaken
  · -- Closing earlier fails, as what remains of the field is in the way.
    intro count hcount
    have hremains : taken.drop count ≠ [] := List.drop_eq_nil_iff.not.mpr (not_le.mpr hcount)
    have hdrop : (taken ++ (margin ++ (text.toList ++ after))).drop count =
        taken.drop count ++ (margin ++ (text.toList ++ after)) :=
      List.drop_append_of_le_length hcount.le
    apply run_star_literal_eq_nil hhead hdrop hremains
    · intro c hc
      apply hlast
      rwa [List.getLast?_drop, if_neg (not_le.mpr hcount)] at hc
    · exact fun c hc => hclean c (List.mem_of_mem_drop hc)
  · rw [State.advance_append, State.capture_append]
    exact hfound

/-- At the end, an optional group takes all that is left. -/
theorem First.optGroupStop (hrest : ∀ c ∈ rest, accepts c)
    (hpost : ∀ found : State,
      (∀ other, other ≠ index → found.captured other = captures.lookup other) → post found) :
    First [.opt (.group index (.star true (.char accepts))), .stop] ⟨position, rest, captures⟩
      post := by
  cases rest with
  | nil =>
      refine ⟨⟨position, [], captures⟩, ?_, hpost _ fun _ _ => rfl⟩
      rw [run_sequence_cons]
      simp [run, iterate]
  | cons c text =>
      let state : State := ⟨position, (c :: text) ++ [], captures⟩
      let found : State := ⟨position + (c :: text).length, [], (index, c :: text) :: captures⟩
      have hstate : (⟨position, c :: text, captures⟩ : State) = state := by simp [state]
      have hend : run (sequence [.stop]) found = [found] := by simp [run, found]
      obtain ⟨others, hothers⟩ : ∃ others, run (.star true (.char accepts)) state =
          state.advance (c :: text).length :: others := by
        have hfull : classLength accepts state.rest = (c :: text).length := by
          rw [← hstate]
          exact classLength_eq_length.mpr hrest
        rw [run_greedy_char, hfull, List.range_succ, List.map_append, List.reverse_append]
        exact ⟨_, rfl⟩
      have hcapture : State.capture index state (state.advance (c :: text).length) = found := by
        rw [State.advance_append, State.capture_append]
      have hkept : ∀ others : List State,
          (found :: others).filter (fun next => decide (next.rest.length < state.rest.length)) =
            found :: others.filter fun next => decide (next.rest.length < state.rest.length) :=
        fun others => List.filter_cons_of_pos (by simp [found, state])
      refine ⟨found, ?_, hpost found ?_⟩
      · rw [hstate, run_sequence_cons, run, run_group, hothers, List.map_cons, hcapture,
          hkept, List.cons_append, List.flatMap_cons, List.head?_append, hend]
        rfl
      · intro other hne
        have hbeq : (other == index) = false := by simpa using hne
        simp [found, State.captured, List.lookup_cons, hbeq]

end First

/-! ## All matches of a piece -/

/-- From `state`, a matcher comes to `next` by reading this text. -/
def State.Skips (state next : State) (taken : List Char) : Prop :=
  ∃ after, state.rest = taken ++ after ∧
    next = ⟨state.position + taken.length, after, state.captures⟩

section Matches

variable {accepts : Char → Bool} {state next : State}

theorem mem_run_char :
    next ∈ run (.char accepts) state ↔ ∃ c, accepts c ∧ state.Skips next [c] := by
  cases hrest : state.rest with
  | nil =>
      rw [run_char_nil hrest]
      simp [State.Skips, hrest]
  | cons c text =>
      rw [run_char_cons hrest]
      by_cases hc : accepts c
      · simp [hc, State.Skips, hrest, State.advance]
      · simp [hc, State.Skips, hrest]

theorem mem_run_star_char_iff {greedy : Bool} :
    next ∈ run (.star greedy (.char accepts)) state ↔
      ∃ taken, (∀ c ∈ taken, accepts c) ∧ state.Skips next taken := by
  rw [mem_run_star_char]
  constructor
  · intro hcount
    obtain ⟨count, hle, rfl⟩ := hcount
    have hsplit := List.takeWhile_append_dropWhile (p := accepts) (l := state.rest)
    have htake : state.rest.take count = (state.rest.takeWhile accepts).take count := by
      rw [← List.take_append_of_le_length hle, hsplit]
    have hlength : (state.rest.take count).length = count := by
      rw [htake, List.length_take]
      exact Nat.min_eq_left hle
    refine ⟨state.rest.take count, ?_, state.rest.drop count, ?_, ?_⟩
    · rw [htake]
      exact fun c hc => List.mem_takeWhile_imp (List.mem_of_mem_take hc)
    · exact (List.take_append_drop count state.rest).symm
    · rw [hlength]
      rfl
  · intro hskips
    obtain ⟨taken, htaken, after, hrest, rfl⟩ := hskips
    refine ⟨taken.length, hrest ▸ le_classLength htaken, ?_⟩
    simp [State.advance, hrest]

theorem mem_run_plus_char :
    next ∈ run (plus (.char accepts)) state ↔
      ∃ taken, taken ≠ [] ∧ (∀ c ∈ taken, accepts c) ∧ state.Skips next taken := by
  rw [plus, run_seq, List.mem_flatMap]
  constructor
  · intro hmatch
    obtain ⟨middle, hfirst, hrest⟩ := hmatch
    obtain ⟨c, hc, after, hstate, rfl⟩ := mem_run_char.mp hfirst
    obtain ⟨taken, htaken, last, hmiddle, rfl⟩ := mem_run_star_char_iff.mp hrest
    obtain rfl : after = taken ++ last := hmiddle
    refine ⟨c :: taken, List.cons_ne_nil c taken, ?_, last, hstate, ?_⟩
    · exact List.forall_mem_cons.mpr ⟨hc, htaken⟩
    · simp [Nat.add_assoc, Nat.add_comm 1]
  · intro hskips
    obtain ⟨taken, hne, htaken, last, hstate, rfl⟩ := hskips
    obtain ⟨c, taken, rfl⟩ := List.exists_cons_of_ne_nil hne
    obtain ⟨hc, htaken⟩ := List.forall_mem_cons.mp htaken
    refine ⟨⟨state.position + 1, taken ++ last, state.captures⟩,
      mem_run_char.mpr ⟨c, hc, taken ++ last, hstate, rfl⟩,
      mem_run_star_char_iff.mpr ⟨taken, htaken, last, rfl, ?_⟩⟩
    simp [Nat.add_assoc, Nat.add_comm 1]

theorem mem_run_literal {text : String} :
    next ∈ run (.literal text) state ↔ state.Skips next text.toList := by
  rw [literal]
  generalize text.toList = expected
  induction expected generalizing state with
  | nil => cases state; simp [State.Skips]
  | cons c expected ih =>
      rw [List.map_cons, run_sequence_cons, List.mem_flatMap]
      constructor
      · intro hmatch
        obtain ⟨middle, hfirst, hrest⟩ := hmatch
        obtain ⟨d, hd, after, hstate, rfl⟩ := mem_run_char.mp hfirst
        obtain rfl : d = c := by simpa using hd
        obtain ⟨last, hafter, rfl⟩ := ih.mp hrest
        obtain rfl : after = expected ++ last := hafter
        exact ⟨last, hstate, by simp [Nat.add_assoc, Nat.add_comm 1]⟩
      · intro hskips
        obtain ⟨last, hstate, rfl⟩ := hskips
        refine ⟨⟨state.position + 1, expected ++ last, state.captures⟩,
          mem_run_char.mpr ⟨c, by simp, expected ++ last, hstate, rfl⟩, ih.mpr ⟨last, rfl, ?_⟩⟩
        simp [Nat.add_assoc, Nat.add_comm 1]

/-- A pattern that starts with `^` matches from the start of a text. -/
theorem mem_run_start {more : List Regex} {text : List Char} :
    next ∈ run (sequence (.start :: more)) (.initial text) ↔
      next ∈ run (sequence more) (.initial text) := by
  have hstart : run .start (.initial text) = [.initial text] := by simp [run, State.initial]
  rw [run_sequence_cons, hstart, List.flatMap_singleton]

theorem mem_run_sequence_cons {piece : Regex} {more : List Regex} :
    next ∈ run (sequence (piece :: more)) state ↔
      ∃ middle ∈ run piece state, next ∈ run (sequence more) middle := by
  rw [run_sequence_cons, List.mem_flatMap]

end Matches

end Regex

end Colata.Math
