/-
# Runs of the page

Whatever the events are and however they follow each other, the page stays valid: it goes on
after a handler that has thrown. The interval of a playing page never comes to a step where
painting throws, and takes the page to its last step.
-/

import Colata.Viewer.Handlers

namespace Colata.Viewer

open Colata.IR Colata.Math Colata.JavaScript

section Valid

variable {browser : Browser} {page : Page}

theorem keeps_handle (browser : Browser) :
    Keeps (Page.handle browser) (Page.Valid browser) := by
  intro page h event
  obtain ⟨next, hhandles⟩ := h.exists_handles event
  rw [hhandles.stateLeft_eq]
  exact hhandles.valid

/-- Loading the page is a handler like the others. -/
theorem exists_loaded (browser : Browser) (irText javaText : String) (happyPath : Bool) :
    ∃ loaded : Page, (Page.blank irText javaText happyPath).visualize browser = loaded.outcome browser ∧
      loaded.Valid browser ∧ loaded.searching = false := by
  have htimed : (Page.blank irText javaText happyPath).Timed :=
    ⟨rfl, fun hfalse => by cases hfalse⟩
  obtain ⟨_, loaded, hends⟩ := @Page.Timed.exists_visualize browser _ htimed
  exact ⟨loaded, hends.outcome, hends.valid, by rw [hends.frame]; rfl⟩

/-- The page is valid after every run. -/
theorem valid_run (browser : Browser) (irText javaText : String) (happyPath : Bool)
    (events : List Event) : (run browser irText javaText happyPath events).Valid browser := by
  obtain ⟨loaded, hloaded, hvalid, _⟩ := exists_loaded browser irText javaText happyPath
  apply (keeps_handle browser).runFrom
  rw [hloaded, Page.stateLeft_outcome]
  exact hvalid

/-- A run goes on from the page that it has reached. -/
theorem run_append (browser : Browser) (irText javaText : String) (happyPath : Bool)
    (before after : List Event) :
    run browser irText javaText happyPath (before ++ after) =
      runFrom (Page.handle browser) (run browser irText javaText happyPath before) after :=
  runFrom_append _ before after

/-- The interval of a playing page moves one step on, and stops at the last one. -/
theorem Page.Valid.handle_tick (h : page.Valid browser) {timer : ℕ}
    (htimers : page.timers = [timer]) :
    ∃ next, page.handle browser (.tick timer) = .ok next ∧ next.Valid browser ∧
      next.nodes = page.nodes ∧ next.steps = page.steps ∧
      if page.currentStep ≥ page.steps.length - 1 then
        next.currentStep = page.currentStep ∧ next.playing = false
      else next.currentStep = page.currentStep + 1 ∧ next.timers = [timer] := by
  have hmem : timer ∈ page.timers := htimers ▸ List.mem_singleton_self timer
  have hplaying : page.playing = true := by
    by_contra hnot
    rw [h.timed.timers, if_neg hnot] at hmem
    cases hmem
  rw [Page.handle, if_pos hmem]
  obtain ⟨next, hnext, hvalid, hnodes, hsteps, hmoved⟩ := h.playOn
  refine ⟨next, hnext, hvalid, hnodes, hsteps, ?_⟩
  split_ifs at hmoved ⊢
  · rw [hmoved, Page.togglePlay, if_pos hplaying]
    exact ⟨rfl, rfl⟩
  · exact ⟨hmoved.1, hmoved.2.trans htimers⟩

/-- A playing page that is left alone comes to its last step and stops there. -/
theorem Page.Valid.runFrom_tick {timer : ℕ} (h : page.Valid browser) (left : ℕ)
    (htimers : page.timers = [timer]) (hleft : page.currentStep + left = page.steps.length) :
    let after := runFrom (Page.handle browser) page (List.replicate left (.tick timer))
    after.Valid browser ∧ after.nodes = page.nodes ∧ after.steps = page.steps ∧
      after.currentStep = page.steps.length - 1 ∧ after.playing = false := by
  induction left generalizing page with
  | zero =>
      have hlength := h.built.lt_length
      omega
  | succ left ih =>
      obtain ⟨next, hnext, hvalid, hnodes, hsteps, hmoved⟩ := h.handle_tick htimers
      have hlength := h.built.lt_length
      rw [List.replicate_succ, runFrom_cons, hnext, stateLeft_ok]
      split_ifs at hmoved with hend
      · obtain rfl : left = 0 := by omega
        exact ⟨hvalid, hnodes, hsteps, hmoved.1.trans (by omega), hmoved.2⟩
      · have hrest : next.currentStep + left = next.steps.length := by
          rw [hmoved.1, hsteps]
          omega
        obtain ⟨hkept, hnodes', hsteps', hlast, hstopped⟩ := ih hvalid hmoved.2 hrest
        exact ⟨hkept, hnodes'.trans hnodes, hsteps'.trans hsteps, hsteps ▸ hlast, hstopped⟩

/-- After every run no interval makes a handler throw, and one runs only if the page plays.
Left alone it takes the page to its last step and is cleared there. -/
theorem run_plays (browser : Browser) (irText javaText : String) (happyPath : Bool)
    (events : List Event) :
    let page := run browser irText javaText happyPath events
    (∀ timer, ∃ next, page.handle browser (.tick timer) = .ok next) ∧
      (page.playing = false → page.timers = []) ∧
      (page.playing = true → ∃ timer, page.timers = [timer] ∧
        let after := run browser irText javaText happyPath (events ++ List.replicate
          ((page.steps.length : ℤ) - page.currentStep).toNat (.tick timer))
        after.nodes = page.nodes ∧ after.steps = page.steps ∧
          after.currentStep = page.steps.length - 1 ∧ after.playing = false ∧
          after.timers = []) := by
  intro page
  have hvalid : page.Valid browser := valid_run browser irText javaText happyPath events
  refine ⟨fun timer => ?_, fun hstopped => ?_, fun hplaying => ?_⟩
  · obtain ⟨next, hnext, _⟩ := hvalid.tick timer
    exact ⟨next, hnext⟩
  · rw [hvalid.timed.timers, hstopped]
    rfl
  · obtain ⟨timer, htimer⟩ := Option.isSome_iff_exists.mp (hvalid.timed.started hplaying)
    have htimers : page.timers = [timer] := by
      rw [hvalid.timed.timers, if_pos hplaying, htimer]
      rfl
    have hlength := hvalid.built.lt_length
    refine ⟨timer, htimers, ?_⟩
    rw [run_append]
    obtain ⟨hkept, hnodes, hsteps, hlast, hstopped⟩ :=
      hvalid.runFrom_tick ((page.steps.length : ℤ) - page.currentStep).toNat htimers (by omega)
    refine ⟨hnodes, hsteps, hlast, hstopped, ?_⟩
    rw [hkept.timed.timers, hstopped]
    rfl

end Valid

end Colata.Viewer
