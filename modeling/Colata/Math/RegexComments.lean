/-
# Fields before a comment

A lazy group with blanks, an optional comment and the end of the text behind it takes all
that stands before the comment, without the blanks at its end. In front of it, the pieces of
a pattern that read runs of classes take the longest runs.
-/

import Colata.Math.RegexTexts
import Mathlib.Data.List.DropRight

namespace Colata.Math

section Runs

variable {p : Char → Bool} {taken after : List Char}

/-- Runs of a class take all they can where the next character is of another class. -/
theorem takeWhile_append_stop (htaken : ∀ c ∈ taken, p c)
    (hafter : ∀ c ∈ after.head?, p c = false) : (taken ++ after).takeWhile p = taken := by
  rw [List.takeWhile_append_of_pos htaken]
  cases after with
  | nil => simp
  | cons c after => simp [hafter c rfl]

theorem dropWhile_append_stop (htaken : ∀ c ∈ taken, p c)
    (hafter : ∀ c ∈ after.head?, p c = false) : (taken ++ after).dropWhile p = after := by
  rw [List.dropWhile_append_of_pos htaken]
  cases after with
  | nil => rfl
  | cons c after => simp [hafter c rfl]

/-- What stands behind a run of a class does not go on with it. -/
theorem head?_dropWhile_stop (p : Char → Bool) (text : List Char) :
    ∀ c ∈ (text.dropWhile p).head?, p c = false := by
  intro c hc
  have hhead := List.head?_dropWhile_not p text
  rw [Option.mem_def.mp hc] at hhead
  exact hhead

end Runs

namespace Regex

/-- Blanks, perhaps a comment, and the end of the text. -/
def lineEnd (blank dot : Char → Bool) (mark : String) : List Regex :=
  [.star true (.char blank), .opt (.seq (.literal mark) (.star true (.char dot))), .stop]

section LineEnd

variable {blank dot : Char → Bool} {mark : String} {expected : Char} {position index : ℕ}
  {taken margin after rest : List Char} {captures : List (ℕ × List Char)} {post : State → Prop}

/-- No state in which a class can be left fits, if none does before the end of `taken`. -/
theorem run_star_flatMap_eq_nil {greedy : Bool} {state : State} {next : State → List State}
    (hrest : state.rest = taken ++ after) (hne : taken ≠ [])
    (hlast : ∀ c ∈ taken.getLast?, blank c = false)
    (hfail : ∀ count < taken.length, next (state.advance count) = []) :
    (run (.star greedy (.char blank)) state).flatMap next = [] := by
  rw [List.flatMap_eq_nil_iff]
  intro middle hmiddle
  obtain ⟨count, hcount, rfl⟩ := mem_run_star_char.mp hmiddle
  rw [hrest] at hcount
  exact hfail count (hcount.trans_lt (classLength_append_lt after hne hlast))

/-- At the end of the text, no comment is needed. -/
theorem head?_run_comment_nil {state : State} (hrest : state.rest = []) :
    (run (sequence [.opt (.seq (.literal mark) (.star true (.char dot))), .stop]) state).head? =
      some state := by
  have hstop : run (sequence [.stop]) state = [state] := by simp [run, hrest]
  rw [run_sequence_cons, run, hrest]
  simp [hstop]

/-- A comment reaches to the end of the text. -/
theorem head?_run_comment (hmark : mark.toList.head? = some expected)
    (hrest : ∀ c ∈ rest, dot c) :
    (run (sequence [.opt (.seq (.literal mark) (.star true (.char dot))), .stop])
      ⟨position, mark.toList ++ rest, captures⟩).head? =
      some ⟨position + mark.toList.length + rest.length, [], captures⟩ := by
  let state : State := ⟨position, mark.toList ++ rest, captures⟩
  let found : State := ⟨position + mark.toList.length + rest.length, [], captures⟩
  have hmiddle : run (.literal mark) state = [⟨position + mark.toList.length, rest, captures⟩] := by
    rw [Regex.literal, run_literal rfl, State.advance_append]
  have hend : run (sequence [.stop]) found = [found] := by simp [run, found]
  have hadvance : State.advance ⟨position + mark.toList.length, rest, captures⟩ rest.length =
      found := by
    simp [State.advance, found]
  obtain ⟨others, hothers⟩ : ∃ others, run (.star true (.char dot))
      ⟨position + mark.toList.length, rest, captures⟩ = found :: others := by
    have hfull : classLength dot rest = rest.length := classLength_eq_length.mpr hrest
    rw [run_greedy_char, hfull, List.range_succ, List.map_append, List.reverse_append,
      List.map_singleton, hadvance]
    exact ⟨_, rfl⟩
  have hshorter : found.rest.length < state.rest.length := by
    have hne : mark.toList ≠ [] := by
      rintro hnil
      rw [hnil] at hmark
      cases hmark
    show 0 < (mark.toList ++ rest).length
    rw [List.length_append]
    exact Nat.add_pos_left (List.length_pos_of_ne_nil hne) _
  have hkept : (found :: others).filter
      (fun next => decide (next.rest.length < state.rest.length)) =
        found :: others.filter fun next => decide (next.rest.length < state.rest.length) :=
    List.filter_cons_of_pos (decide_eq_true hshorter)
  show (run _ state).head? = some found
  rw [run_sequence_cons, run, run_seq, hmiddle, List.flatMap_singleton, hothers, hkept,
    List.cons_append, List.flatMap_cons, hend]
  rfl

/-- Where another character than a comment's comes, the text does not end. -/
theorem run_comment_eq_nil (hmark : mark.toList.head? = some expected) {state : State} {c : Char}
    (hrest : state.rest = c :: rest) (hne : c ≠ expected) :
    run (sequence [.opt (.seq (.literal mark) (.star true (.char dot))), .stop]) state = [] := by
  have hstop : run (sequence [.stop]) state = [] := by simp [run, hrest]
  rw [run_sequence_cons, run, run_seq, run_literal_eq_nil hmark hrest hne]
  simp [hstop]

/-- A lazy group takes all that stands before the comment and the blanks. -/
theorem First.field (hmark : mark.toList.head? = some expected)
    (hexpected : blank expected = false) (htaken : ∀ c ∈ taken, dot c)
    (hclean : ∀ c ∈ taken, c ≠ expected) (hlast : ∀ c ∈ taken.getLast?, blank c = false)
    (hmargin : ∀ c ∈ margin, blank c)
    (hafter : after = [] ∨ ∃ text, after = mark.toList ++ text ∧ ∀ c ∈ text, dot c)
    (hpost : ∀ found : State, found.captures = (index, taken) :: captures → post found) :
    First (.group index (.star false (.char dot)) :: lineEnd blank dot mark)
      ⟨position, taken ++ (margin ++ after), captures⟩ post := by
  have hblank : ∀ c ∈ after.head?, blank c = false := by
    rcases hafter with rfl | ⟨text, rfl, _⟩
    · intro c hc
      cases hc
    · rw [List.head?_append, hmark]
      intro c hc
      obtain rfl : expected = c := Option.some.inj hc
      exact hexpected
  have hend : First [.opt (.seq (.literal mark) (.star true (.char dot))), .stop]
      ⟨position + taken.length + margin.length, after, (index, taken) :: captures⟩ post := by
    rcases hafter with rfl | ⟨text, rfl, htext⟩
    · exact ⟨_, head?_run_comment_nil rfl, hpost _ rfl⟩
    · exact ⟨_, head?_run_comment hmark htext, hpost _ rfl⟩
  obtain ⟨found, hfound, hfinal⟩ := First.greedy hmargin hblank hend
  rw [First, run_sequence_cons, run_group, List.flatMap_map]
  refine ⟨found, ?_, hfinal⟩
  apply lazy_first rfl htaken
  · -- The text does not end in the middle of the field.
    intro count hcount
    have hremains : taken.drop count ≠ [] := List.drop_eq_nil_iff.not.mpr (not_le.mpr hcount)
    have hdrop : (taken ++ (margin ++ after)).drop count = taken.drop count ++ (margin ++ after) :=
      List.drop_append_of_le_length hcount.le
    rw [lineEnd, run_sequence_cons]
    refine run_star_flatMap_eq_nil hdrop hremains ?_ ?_
    · intro c hc
      apply hlast
      rwa [List.getLast?_drop, if_neg (not_le.mpr hcount)] at hc
    · intro more hmore
      obtain ⟨c, others, hmiddle⟩ :=
        List.exists_cons_of_ne_nil (List.drop_eq_nil_iff.not.mpr (not_le.mpr hmore))
      have hc : c ∈ taken :=
        List.mem_of_mem_drop (List.mem_of_mem_drop (hmiddle ▸ List.mem_cons_self))
      have hstate : ((taken ++ (margin ++ after)).drop count).drop more =
          c :: (others ++ (margin ++ after)) := by
        rw [hdrop, List.drop_append_of_le_length hmore.le, hmiddle, List.cons_append]
      exact run_comment_eq_nil hmark hstate (hclean c hc)
  · rw [State.advance_append, State.capture_append]
    exact hfound

/-- What stands before the comment, without the blanks at its end. -/
def fieldOf (blank : Char → Bool) (expected : Char) (text : List Char) : List Char :=
  (text.takeWhile (· != expected)).rdropWhile blank

/-- On every text without excluded characters, the group takes the field. -/
theorem First.fieldOf (hmark : mark.toList = [expected]) (hexpected : blank expected = false)
    (hrest : ∀ c ∈ rest, dot c)
    (hpost : ∀ found : State,
      found.captures = (index, Regex.fieldOf blank expected rest) :: captures → post found) :
    First (.group index (.star false (.char dot)) :: lineEnd blank dot mark)
      ⟨position, rest, captures⟩ post := by
  let body := rest.takeWhile (· != expected)
  have hbody : body.rdropWhile blank ++ body.rtakeWhile blank = body := by
    rw [List.rdropWhile_append_rtakeWhile]
  have hsplit : rest = body.rdropWhile blank ++
      (body.rtakeWhile blank ++ rest.dropWhile (· != expected)) := by
    rw [← List.append_assoc, hbody, List.takeWhile_append_dropWhile]
  have htaken : ∀ c ∈ body.rdropWhile blank, c ∈ body :=
    fun c hc => (List.rdropWhile_prefix blank body).subset hc
  rw [hsplit]
  apply First.field (by rw [hmark]; rfl) hexpected
  · exact fun c hc => hrest c ((List.takeWhile_subset _) (htaken c hc))
  · intro c hc
    simpa using List.mem_takeWhile_imp (htaken c hc)
  · intro c hc
    obtain ⟨hne, rfl⟩ := List.mem_getLast?_eq_getLast hc
    simpa using List.rdropWhile_last_not blank body hne
  · exact fun c hc => List.mem_rtakeWhile_imp hc
  · cases hcomment : rest.dropWhile (· != expected) with
    | nil => exact Or.inl rfl
    | cons c text =>
        have hc : c = expected := by
          have hhead := List.head?_dropWhile_not (· != expected) rest
          rw [hcomment] at hhead
          simpa using hhead
        refine Or.inr ⟨text, by rw [hmark, hc]; rfl, fun d hd => hrest d ?_⟩
        have hmem : d ∈ rest.dropWhile (· != expected) := by
          rw [hcomment]
          exact List.mem_cons_of_mem c hd
        exact (List.dropWhile_suffix _).subset hmem
  · exact hpost

/-- A match needs a text without excluded characters, blanks apart. -/
theorem forall_of_mem_run_field (hmark : ∀ c ∈ mark.toList, dot c) {state next : State}
    (h : next ∈ run (sequence (.group index (.star false (.char dot)) :: lineEnd blank dot mark))
      state) : ∀ c ∈ state.rest, dot c ∨ blank c := by
  obtain ⟨middle, hgroup, hmiddle⟩ := mem_run_sequence_cons.mp h
  rw [run_group, List.mem_map] at hgroup
  obtain ⟨behind, hbehind, rfl⟩ := hgroup
  obtain ⟨taken, htaken, after, hrest, rfl⟩ := mem_run_star_char_iff.mp hbehind
  obtain ⟨last, hlast, hend⟩ := mem_run_sequence_cons.mp hmiddle
  obtain ⟨margin, hmargin, comment, hafter, rfl⟩ := mem_run_star_char_iff.mp hlast
  obtain ⟨final, hfinal, hstop⟩ := mem_run_sequence_cons.mp hend
  obtain ⟨hnil, _⟩ := mem_run_stop.mp hstop
  have hwhole : state.rest = taken ++ (margin ++ comment) := by
    rw [hrest]
    exact congrArg (taken ++ ·) hafter
  have hcomment : ∀ c ∈ comment, dot c := by
    rcases mem_run_opt.mp hfinal with ⟨hbody, _⟩ | rfl
    · rw [run_seq, List.mem_flatMap] at hbody
      obtain ⟨marked, hliteral, hstar⟩ := hbody
      obtain ⟨text, htext, rfl⟩ := mem_run_literal.mp hliteral
      obtain ⟨texts, htexts, ending, hending, rfl⟩ := mem_run_star_char_iff.mp hstar
      obtain rfl : ending = [] := hnil
      obtain rfl : text = texts ++ [] := hending
      obtain rfl : comment = mark.toList ++ (texts ++ []) := htext
      simpa [or_imp, forall_and] using ⟨hmark, htexts⟩
    · obtain rfl : comment = [] := hnil
      exact List.forall_mem_nil _
  intro c hc
  rw [hwhole, List.mem_append, List.mem_append] at hc
  rcases hc with hc | hc | hc
  · exact Or.inl (htaken c hc)
  · exact Or.inr (hmargin c hc)
  · exact Or.inl (hcomment c hc)

end LineEnd

section Pieces

variable {accepts : Char → Bool} {more : List Regex} {position index : ℕ}
  {taken after : List Char} {captures : List (ℕ × List Char)} {post : State → Prop}

theorem First.char {c : Char} (hc : accepts c)
    (h : First more ⟨position + 1, after, captures⟩ post) :
    First (.char accepts :: more) ⟨position, c :: after, captures⟩ post := by
  rw [First, run_sequence_cons, run_char_cons rfl, if_pos hc, List.flatMap_singleton]
  exact h

/-- A group of a character and a run of a class takes the whole run. -/
theorem First.groupWord {first : Char → Bool} {c : Char} (hc : first c)
    (htaken : ∀ c ∈ taken, accepts c) (hafter : ∀ c ∈ after.head?, accepts c = false)
    (h : First more ⟨position + (c :: taken).length, after, (index, c :: taken) :: captures⟩ post) :
    First (.group index (.seq (.char first) (.star true (.char accepts))) :: more)
      ⟨position, (c :: taken) ++ after, captures⟩ post := by
  obtain ⟨found, hfound, hpost⟩ := h
  rw [First, run_sequence_cons, run_group, List.flatMap_map]
  refine ⟨found, ?_, hpost⟩
  rw [run_seq, run_char_cons rfl, if_pos hc, List.flatMap_singleton]
  apply greedy_first rfl htaken hafter
  rw [State.advance_advance, Nat.add_comm 1, ← List.length_cons, State.advance_append,
    State.capture_append]
  exact hfound

end Pieces

end Regex

end Colata.Math
