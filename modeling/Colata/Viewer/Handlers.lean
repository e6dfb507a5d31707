/-
# What the handlers do

Between two events the steps are those that the graph, the parameters and the box "Happy path
only" give, and the current step is one of them. Unless a search is shown the nodes look like
the current step on a graph drawn anew. So do the edges and the caption, and the buttons offer
what is possible, except at the initial step of a graph with data edges that are drawn: there
painting throws, and leaves them as they were. Every handler keeps all this.
-/

import Colata.IR.StepEdges
import Colata.IR.StepTexts
import Colata.Viewer.Redrawing

namespace Colata.Viewer

open Colata.IR Colata.Math Colata.JavaScript

/-! ## What holds between events -/

/-- The graph belongs to its table, and each parameter of the table has its field. -/
structure Page.Parsed (page : Page) : Prop where
  edges : page.edges = buildEdges page.nodes
  exceptionNodes : page.exceptionNodes = classifyExceptionNodes page.nodes page.edges
  detectedParams : page.detectedParams = detectParams page.nodes
  fields : page.paramInputs.map ParamInput.index = page.detectedParams.map Param.index
  values : ∀ index ∉ page.detectedParams.map Param.index, page.paramValues index = none

/-- The steps are those of the graph, and the current one is among them. -/
structure Page.Built (page : Page) : Prop extends Page.Parsed page where
  steps : buildSteps page.nodes page.edges page.levels page.paramValues = some page.steps
  nonneg : 0 ≤ page.currentStep
  lt_length : page.currentStep < page.steps.length

/-- An interval runs exactly while the page plays, and it is the one that will be cleared. -/
structure Page.Timed (page : Page) : Prop where
  timers : page.timers = if page.playing then page.playTimer.toList else []
  started : page.playing = true → page.playTimer.isSome = true

/-- The nodes and the lines of the dump look as if the current step were painted on the graph
drawn anew. -/
def Page.ShowsNodes (browser : Browser) (page : Page) : Prop :=
  ∃ step, page.step? = some step ∧
    page.drawing.seen.nodes = (page.paint step (page.redraw browser page.drawing)).seen.nodes ∧
    page.drawing.lines = (page.paint step (page.redraw browser page.drawing)).lines

/-- The whole page looks like that. -/
def Page.ShowsCurrent (browser : Browser) (page : Page) : Prop :=
  ∃ step, page.step? = some step ∧
    page.drawing.seen = (page.paint step (page.redraw browser page.drawing)).seen

structure Page.Valid (browser : Browser) (page : Page) : Prop where
  built : page.Built
  timed : page.Timed
  draws : page.Draws browser page.drawing
  nodes : page.searching = false → page.ShowsNodes browser
  shows : page.searching = false → ¬ page.Stuck browser → page.ShowsCurrent browser
  buttons : ¬ page.Stuck browser → page.buttons = page.updateButtons.buttons

section Valid

variable {browser : Browser} {page : Page}

/-! ## The steps -/

theorem Page.Parsed.nodup_edges (h : page.Parsed) : (page.edges.map Edge.key).Nodup :=
  h.edges ▸ nodup_keys_buildEdges page.nodes

theorem Page.Parsed.mem_ids_of_mem_levels (h : page.Parsed) :
    ∀ id ∈ page.levels.flatten, id ∈ page.nodes.ids := by
  intro id hid
  rw [Page.levels, h.edges] at hid
  split_ifs at hid
  · rw [flatten_filterLevels, List.mem_filter] at hid
    exact mem_ids_of_mem_topoLevels hid.1
  · exact mem_ids_of_mem_topoLevels hid

theorem Page.Parsed.exists_buildSteps (h : page.Parsed) (paramValues : ParamValues) :
    ∃ steps, buildSteps page.nodes page.edges page.levels paramValues = some steps ∧
      0 < steps.length := by
  obtain ⟨steps, hsteps, hshows⟩ :=
    showLevels_buildSteps page.edges h.mem_ids_of_mem_levels paramValues
  exact ⟨steps, hsteps, hshows.length ▸ Nat.succ_pos _⟩

theorem Page.Built.exists_step (h : page.Built) : ∃ step, page.step? = some step := by
  have hlt : page.currentStep.toNat < page.steps.length := by
    have hlength := h.lt_length
    have hnonneg := h.nonneg
    omega
  refine ⟨page.steps[page.currentStep.toNat], ?_⟩
  rw [Page.step?, if_neg (not_lt.mpr h.nonneg), List.getElem?_eq_getElem hlt]

/-- The level that the current step executes, which is empty for the initial step. -/
def Page.executing (page : Page) : List NodeId :=
  (([] :: page.levels)[page.currentStep.toNat]?).getD []

/-- The current step is the initial one, or it describes its level. -/
theorem Page.Built.step_cases (h : page.Built) {step : Step} (hstep : page.step? = some step) :
    page.currentStep = 0 ∧ step = initialStep ∨
      page.currentStep ≠ 0 ∧ step.Describes page.nodes page.executing := by
  have hget : page.steps[page.currentStep.toNat]? = some step := by
    rwa [Page.step?, if_neg (not_lt.mpr h.nonneg)] at hstep
  obtain ⟨later, hlater, hdescribes⟩ :=
    describes_buildSteps page.edges h.mem_ids_of_mem_levels page.paramValues
  have hlist : page.steps = initialStep :: later := Option.some.inj (h.steps.symm.trans hlater)
  rw [Page.executing]
  have hnonneg := h.nonneg
  cases hindex : page.currentStep.toNat with
  | zero =>
      rw [hlist, hindex] at hget
      exact Or.inl ⟨by omega, (Option.some.inj hget).symm⟩
  | succ index =>
      rw [hlist, hindex, List.getElem?_cons_succ] at hget
      obtain ⟨hlt, hlaterStep⟩ := List.getElem?_eq_some_iff.mp hget
      obtain ⟨hlength, hall⟩ := List.forall₂_iff_get.mp hdescribes
      have hlevel := hall index (hlength ▸ hlt) hlt
      rw [List.getElem?_cons_succ, List.getElem?_eq_getElem (hlength ▸ hlt), Option.getD_some]
      rw [← hlaterStep]
      exact Or.inr ⟨by omega, hlevel⟩

/-- Texts, timers and fields are no part of what is shown. -/
theorem Page.Valid.frame (h : page.Valid browser) {next : Page} (hbuilt : next.Built)
    (htimed : next.Timed)
    (hframe : next = { page with
      irText := next.irText
      javaText := next.javaText
      searchText := next.searchText
      playing := next.playing
      playTimer := next.playTimer
      timers := next.timers
      nextTimer := next.nextTimer
      paramInputs := next.paramInputs }) : next.Valid browser := by
  rw [hframe] at hbuilt htimed ⊢
  exact ⟨hbuilt, htimed, { h.draws with }, h.nodes, h.shows, h.buttons⟩

/-! ## The common end of the handlers -/

/-- The page after `applyStep`, whether or not it throws. -/
def Page.painted (browser : Browser) (page : Page) (step : Step) : Page :=
  { page with
    drawing :=
      if page.searching then page.drawing
      else if page.Stuck browser then page.paintNodes step page.drawing
      else page.paint step page.drawing }

/-- Painting went no further than the nodes. -/
structure Page.NodesOnly (before after : Page) : Prop where
  edges : after.drawing.edges = before.drawing.edges
  javaLines : after.drawing.javaLines = before.drawing.javaLines
  info : after.drawing.info = before.drawing.info
  buttons : after.buttons = before.buttons

section Painted

variable {step : Step}

theorem Page.painted_of_searching (h : page.searching = true) :
    page.painted browser step = page := by
  rw [Page.painted, if_pos h]

theorem Page.painted_of_stuck (hsearching : page.searching = false) (h : page.Stuck browser) :
    page.painted browser step = { page with drawing := page.paintNodes step page.drawing } := by
  rw [Page.painted, if_neg (by rw [hsearching]; decide), if_pos h]

theorem Page.painted_of_not_stuck (hsearching : page.searching = false)
    (h : ¬ page.Stuck browser) :
    page.painted browser step = { page with drawing := page.paint step page.drawing } := by
  rw [Page.painted, if_neg (by rw [hsearching]; decide), if_neg h]

theorem Page.javaLineCount_painted :
    (page.painted browser step).drawing.javaLineCount = page.drawing.javaLineCount := by
  rw [Page.painted]
  dsimp only
  split_ifs
  · rfl
  · rw [paintNodes_eq]
  · exact javaLineCount_paint page step page.drawing

/-- The nodes and the lines of the dump are painted whether or not painting throws. -/
theorem Page.nodes_painted (h : page.searching = false) :
    (page.painted browser step).drawing.nodes = (page.paint step page.drawing).nodes ∧
      (page.painted browser step).drawing.lines = (page.paint step page.drawing).lines := by
  by_cases hstuck : page.Stuck browser
  · rw [Page.painted_of_stuck h hstuck]
    exact ⟨nodes_paintNodes, lines_paintNodes⟩
  · rw [Page.painted_of_not_stuck h hstuck]
    exact ⟨rfl, rfl⟩

/-- What else there is to paint is left as it was if painting throws. -/
theorem Page.nodesOnly_painted (h : page.searching = false) (hstuck : page.Stuck browser) :
    page.NodesOnly (page.painted browser step) := by
  rw [Page.painted_of_stuck h hstuck, paintNodes_eq]
  exact ⟨rfl, rfl, rfl, rfl⟩

end Painted

/-- What a handler leads to that leaves this page after painting it. -/
def Page.outcome (browser : Browser) (page : Page) : Except Page Page :=
  if page.searching = false ∧ page.Stuck browser then .error page else .ok page

@[simp]
theorem Page.stateLeft_outcome (page : Page) : stateLeft (page.outcome browser) = page := by
  rw [Page.outcome]
  split_ifs <;> rfl

/-- Painting throws exactly at the initial step of a graph with data edges that are drawn. -/
theorem Page.Built.applyStep_eq (h : page.Built) (hdraws : page.Draws browser page.drawing)
    {step : Step} (hstep : page.step? = some step) :
    page.applyStep page.step? = (page.painted browser step).outcome browser := by
  have houtcome : (page.painted browser step).outcome browser =
      if page.searching = false ∧ page.Stuck browser then .error (page.painted browser step)
      else .ok (page.painted browser step) := rfl
  rw [houtcome, hstep]
  cases hsearching : page.searching with
  | true =>
      rw [if_neg fun hboth => Bool.false_ne_true hboth.1.symm,
        Page.painted_of_searching hsearching, Page.applyStep, if_pos hsearching]
  | false =>
      by_cases hstuck : page.Stuck browser
      · rcases h.step_cases hstep with ⟨_, rfl⟩ | ⟨hne, _⟩
        · rw [if_pos ⟨rfl, hstuck⟩, Page.painted_of_stuck hsearching hstuck,
            Page.applyStep_of_array rfl hsearching, hdraws.any_paints h.nodup_edges,
            if_pos hstuck.2]
        · exact absurd hstuck.1 hne
      · rw [if_neg fun hboth => hstuck hboth.2, Page.painted_of_not_stuck hsearching hstuck]
        rcases h.step_cases hstep with ⟨hzero, rfl⟩ | ⟨_, _, _, _, _, _, _, keys, hkeys⟩
        · rw [Page.applyStep_of_array rfl hsearching, hdraws.any_paints h.nodup_edges,
            if_neg fun hdata => hstuck ⟨hzero, hdata⟩]
        · exact Page.applyStep_of_set hkeys hsearching

theorem Page.Draws.painted (h : page.Draws browser page.drawing)
    (hnodup : (page.edges.map Edge.key).Nodup) (step : Step) :
    page.Draws browser (page.painted browser step).drawing := by
  rw [Page.painted]
  dsimp only
  split_ifs
  · exact h
  · exact h.paintNodes hnodup step
  · exact h.paint hnodup step

theorem Page.valid_painted (hbuilt : page.Built) (htimed : page.Timed)
    (hdraws : page.Draws browser page.drawing)
    (hbuttons : ¬ page.Stuck browser → page.buttons = page.updateButtons.buttons) {step : Step}
    (hstep : page.step? = some step) : (page.painted browser step).Valid browser where
  built := { hbuilt with }
  timed := { htimed with }
  draws := { hdraws.painted hbuilt.nodup_edges step with }
  nodes := fun hsearching => by
    have hnot : page.searching = false := hsearching
    obtain ⟨hnodes, hlines⟩ : (page.painted browser step).drawing.nodes = _ ∧
      (page.painted browser step).drawing.lines = _ := Page.nodes_painted hnot
    refine ⟨step, hstep, ?_, ?_⟩
    · show (page.painted browser step).drawing.seen.nodes =
        (page.paint step (page.redraw browser (page.painted browser step).drawing)).seen.nodes
      rw [page.redraw_congr Page.javaLineCount_painted, ← hdraws.seen_paint hbuilt.nodup_edges]
      funext id
      rw [Drawing.nodes_seen, Drawing.nodes_seen, hnodes]
    · show (page.painted browser step).drawing.lines =
        (page.paint step (page.redraw browser (page.painted browser step).drawing)).lines
      rw [page.redraw_congr Page.javaLineCount_painted, hlines]
      exact funext (hdraws.lines_paint step)
  shows := fun hsearching hstuck => by
    have hnot : page.searching = false := hsearching
    have hfree : ¬ page.Stuck browser := hstuck
    refine ⟨step, hstep, ?_⟩
    show (page.painted browser step).drawing.seen =
      (page.paint step (page.redraw browser (page.painted browser step).drawing)).seen
    rw [page.redraw_congr Page.javaLineCount_painted, ← hdraws.seen_paint hbuilt.nodup_edges,
      Page.painted_of_not_stuck hnot hfree]
  buttons := hbuttons

/-- Apply the current step and update the buttons. -/
def Page.refresh (page : Page) : Except Page Page := do
  let painted ← page.applyStep page.step?
  .ok painted.updateButtons

/-- A handler that ends by painting leaves a valid page, in which the drawing and the buttons
are new; if it throws they are new in the nodes only. -/
structure Page.Ends (browser : Browser) (page : Page) (outcome : Except Page Page) (next : Page) :
    Prop where
  outcome : outcome = next.outcome browser
  valid : next.Valid browser
  frame : next = { page with drawing := next.drawing, buttons := next.buttons }
  javaLineCount : next.drawing.javaLineCount = page.drawing.javaLineCount
  throws : next.searching = false → next.Stuck browser → page.NodesOnly next

theorem Page.exists_refresh (hbuilt : page.Built) (htimed : page.Timed)
    (hdraws : page.Draws browser page.drawing) : ∃ next, page.Ends browser page.refresh next := by
  obtain ⟨step, hstep⟩ := hbuilt.exists_step
  rw [Page.refresh, hbuilt.applyStep_eq hdraws hstep]
  by_cases hthrows : page.searching = false ∧ page.Stuck browser
  · have hthrows' : (page.painted browser step).searching = false ∧
        (page.painted browser step).Stuck browser := hthrows
    have hbuttons : ¬ page.Stuck browser → page.buttons = page.updateButtons.buttons :=
      fun hfree => absurd hthrows.2 hfree
    exact ⟨page.painted browser step,
      { outcome := by rw [Page.outcome, if_pos hthrows']; rfl
        valid := Page.valid_painted hbuilt htimed hdraws hbuttons hstep
        frame := rfl
        javaLineCount := Page.javaLineCount_painted
        throws := fun _ _ => Page.nodesOnly_painted hthrows.1 hthrows.2 }⟩
  · have hgoes : ¬ ((page.painted browser step).searching = false ∧
        (page.painted browser step).Stuck browser) := hthrows
    have hupdated : page.updateButtons.Built := { hbuilt with }
    have hdrawn : page.updateButtons.Draws browser page.updateButtons.drawing := { hdraws with }
    exact ⟨(page.painted browser step).updateButtons,
      { outcome := by
          have hgoes' : ¬ ((page.painted browser step).updateButtons.searching = false ∧
            (page.painted browser step).updateButtons.Stuck browser) := hthrows
          rw [Page.outcome, if_neg hgoes, Page.outcome, if_neg hgoes']
          rfl
        valid := Page.valid_painted hupdated { htimed with } hdrawn (fun _ => rfl) hstep
        frame := rfl
        javaLineCount := Page.javaLineCount_painted
        throws := fun hsearching hstuck => absurd ⟨hsearching, hstuck⟩ hthrows }⟩

/-! ## Moving and playing -/

/-- The page at a step, before it is painted. -/
def Page.movedTo (page : Page) (n : ℤ) : Page :=
  { page with
    currentStep := max 0 (min (page.steps.length - 1) n)
    searching := false
    searchText := "" }

theorem Page.Valid.goToStep (h : page.Valid browser) (n : ℤ) :
    ∃ next, (page.movedTo n).Ends browser (page.goToStep n) next := by
  have hnonneg := h.built.nonneg
  have hlength := h.built.lt_length
  have hmoved : (page.movedTo n).Built :=
    { h.built with
      nonneg := le_max_left _ _
      lt_length := by
        show max 0 (min ((page.steps.length : ℤ) - 1) n) < page.steps.length
        omega }
  exact Page.exists_refresh hmoved { h.timed with } { h.draws with }

theorem Page.Valid.togglePlay (h : page.Valid browser) : page.togglePlay.Valid browser := by
  rw [Page.togglePlay]
  by_cases hplaying : page.playing = true
  · rw [if_pos hplaying]
    obtain ⟨timer, htimer⟩ := Option.isSome_iff_exists.mp (h.timed.started hplaying)
    have htimers : (page.timers.filter fun timer => some timer ≠ page.playTimer) = [] := by
      rw [h.timed.timers, if_pos hplaying, htimer]
      simp
    exact h.frame { h.built with } ⟨htimers, fun hfalse => by cases hfalse⟩ rfl
  · rw [if_neg hplaying]
    have htimers : page.timers ++ [page.nextTimer] = [page.nextTimer] := by
      rw [h.timed.timers, if_neg hplaying, List.nil_append]
    exact h.frame { h.built with } ⟨htimers, fun _ => rfl⟩ rfl

/-- The interval never moves to the initial step, so that painting does not throw. -/
theorem Page.Valid.playOn (h : page.Valid browser) :
    ∃ next, page.playOn = .ok next ∧ next.Valid browser ∧ next.nodes = page.nodes ∧
      next.steps = page.steps ∧
      if page.currentStep ≥ page.steps.length - 1 then next = page.togglePlay
      else next.currentStep = page.currentStep + 1 ∧ next.timers = page.timers := by
  rw [Page.playOn]
  split_ifs with hend
  · refine ⟨page.togglePlay, rfl, h.togglePlay, ?_, ?_, rfl⟩
    · rw [Page.togglePlay]
      split_ifs <;> rfl
    · rw [Page.togglePlay]
      split_ifs <;> rfl
  · obtain ⟨next, hends⟩ := h.goToStep (page.currentStep + 1)
    have hcurrent : next.currentStep = page.currentStep + 1 := by
      have hnonneg := h.built.nonneg
      rw [hends.frame]
      show max 0 (min ((page.steps.length : ℤ) - 1) (page.currentStep + 1)) = page.currentStep + 1
      omega
    have hfree : ¬ (next.searching = false ∧ next.Stuck browser) := fun hthrows => by
      have hnonneg := h.built.nonneg
      have hzero := hthrows.2.1
      omega
    refine ⟨next, ?_, hends.valid, ?_, ?_, hcurrent, ?_⟩
    · rw [hends.outcome, Page.outcome, if_neg hfree]
    · rw [hends.frame]; rfl
    · rw [hends.frame]; rfl
    · rw [hends.frame]; rfl

/-! ## Searching -/

theorem Page.Valid.doSearch (h : page.Valid browser) {query : String} (hquery : query ≠ "") :
    ∃ next, page.doSearch browser query = .ok next ∧ next.Valid browser ∧
      next = { page with searching := true, drawing := next.drawing } ∧
      next.drawing = { page.drawing with nodes := next.drawing.nodes } := by
  rw [Page.doSearch, if_neg hquery]
  refine ⟨_, rfl, ?_, rfl, foldl_markNode_eq _ _ _ _⟩
  exact
    { built := { h.built with }
      timed := { h.timed with }
      draws := { h.draws.mark query with }
      nodes := fun hfalse => by cases hfalse
      shows := fun hfalse => by cases hfalse
      buttons := h.buttons }

/-- The empty query paints the current step again. -/
theorem Page.Valid.clearSearch (h : page.Valid browser) :
    ∃ next, ({ page with searching := false } : Page).Ends browser (page.doSearch browser "") next
    := by
  obtain ⟨step, hstep⟩ := h.built.exists_step
  have hcleared : ({ page with searching := false } : Page).step? = some step := hstep
  have hbuilt : ({ page with searching := false } : Page).Built := { h.built with }
  rw [Page.doSearch, if_pos rfl]
  exact ⟨_,
    { outcome := hbuilt.applyStep_eq { h.draws with } hcleared
      valid := Page.valid_painted hbuilt { h.timed with } { h.draws with } h.buttons hcleared
      frame := rfl
      javaLineCount := Page.javaLineCount_painted
      throws := fun _ hstuck => Page.nodesOnly_painted rfl hstuck }⟩

/-! ## Building the steps again -/

theorem Page.Parsed.inputFor_eq_some (h : page.Parsed) {index : Binary64}
    (hindex : index ∈ page.detectedParams.map Param.index) :
    ∃ value, page.inputFor index = some value := by
  rw [← h.fields] at hindex
  obtain ⟨input, hinput, rfl⟩ := List.mem_map.mp hindex
  have hfound : (page.paramInputs.find? fun other => other.index = input.index).isSome :=
    List.find?_isSome.mpr ⟨input, hinput, by simp⟩
  obtain ⟨first, hfirst⟩ := Option.isSome_iff_exists.mp hfound
  exact ⟨first.value, by rw [Page.inputFor, hfirst, Option.map_some]⟩

theorem Page.Parsed.inputFor_eq_none (h : page.Parsed) {index : Binary64}
    (hindex : index ∉ page.detectedParams.map Param.index) : page.inputFor index = none := by
  rw [← h.fields] at hindex
  rw [Page.inputFor, Option.map_eq_none_iff, List.find?_eq_none]
  intro input hinput
  have hne : input.index ≠ index := fun heq => hindex (heq ▸ List.mem_map_of_mem hinput)
  simpa using hne

/-- The values in the fields. -/
def Page.typedValues (page : Page) : ParamValues := fun index =>
  (page.inputFor index).map Value.num

/-- The loop over the parameters leaves exactly the values in the fields. -/
theorem Page.Parsed.foldl_collect (h : page.Parsed) :
    page.detectedParams.foldl page.collect page.paramValues = page.typedValues := by
  have hcollect : ∀ (params : List Param), (∀ param ∈ params, param ∈ page.detectedParams) →
      ∀ values, params.foldl page.collect values = params.foldl
        (fun values param => Function.update values param.index (page.typedValues param.index))
        values := by
    intro params hparams values
    refine List.foldl_ext _ _ _ fun values param hparam => ?_
    obtain ⟨value, hvalue⟩ :=
      h.inputFor_eq_some (List.mem_map_of_mem (hparams param hparam))
    rw [Page.collect, Page.typedValues, hvalue]
    rfl
  rw [hcollect _ (fun _ hparam => hparam), foldl_update_eq_ite Param.index page.typedValues]
  funext index
  split_ifs with hindex
  · rfl
  · rw [h.values index hindex, Page.typedValues, h.inputFor_eq_none hindex, Option.map_none]

/-- The page with the steps for what is in the fields, before it is painted. -/
def Page.rebuilt (page : Page) (steps : List Step) : Page :=
  { page with
    paramValues := page.typedValues
    steps := steps
    currentStep := min page.currentStep (steps.length - 1) }

theorem Page.exists_rebuildSteps (hparsed : page.Parsed) (hnonneg : 0 ≤ page.currentStep)
    (htimed : page.Timed) (hdraws : page.Draws browser page.drawing) :
    ∃ steps next, (page.rebuilt steps).Ends browser page.rebuildSteps next := by
  obtain ⟨steps, hsteps, hpos⟩ := hparsed.exists_buildSteps page.typedValues
  have hrebuilt : (page.rebuilt steps).Built :=
    { hparsed with
      values := fun index hindex => by
        show page.typedValues index = none
        rw [Page.typedValues, hparsed.inputFor_eq_none hindex, Option.map_none]
      steps := hsteps
      nonneg := le_min hnonneg (by omega)
      lt_length := by
        show min page.currentStep ((steps.length : ℤ) - 1) < steps.length
        omega }
  obtain ⟨next, hends⟩ := Page.exists_refresh hrebuilt { htimed with } { hdraws with }
  have hrefresh : page.rebuildSteps = (page.rebuilt steps).refresh := by
    rw [Page.rebuildSteps, hparsed.foldl_collect]
    show ((buildSteps page.nodes page.edges page.levels page.typedValues).elim _ _ >>=
      fun steps => _) = _
    rw [hsteps]
    rfl
  exact ⟨steps, next, hrefresh ▸ hends⟩

/-- The page with the number of a field taken over. -/
def Page.takeOver (page : Page) (input : ParamInput) : Page :=
  { page with
    paramValues := Function.update page.paramValues input.index (some (.num input.value)) }

theorem Page.Valid.changeParam (h : page.Valid browser) {position : ℕ}
    (hlt : position < page.paramInputs.length) :
    ∃ steps next, ((page.takeOver page.paramInputs[position]).rebuilt steps).Ends browser
      (page.changeParam position) next := by
  have hindex : page.paramInputs[position].index ∈ page.detectedParams.map Param.index :=
    h.built.fields ▸ List.mem_map_of_mem (List.getElem_mem hlt)
  have hparsed : (page.takeOver page.paramInputs[position]).Parsed :=
    { h.built.toParsed with
      values := fun index houtside => by
        have hne : index ≠ page.paramInputs[position].index :=
          fun heq => houtside (heq ▸ hindex)
        exact (Function.update_of_ne hne _ _).trans (h.built.values index houtside) }
  rw [Page.changeParam, List.getElem?_eq_getElem hlt]
  exact Page.exists_rebuildSteps hparsed h.built.nonneg { h.timed with } { h.draws with }

theorem Page.Valid.toggleHappyPath (h : page.Valid browser) :
    ∃ steps next, (({ page with happyPath := !page.happyPath } : Page).rebuilt steps).Ends browser
      ({ page with happyPath := !page.happyPath } : Page).rebuildSteps next := by
  have hparsed : ({ page with happyPath := !page.happyPath } : Page).Parsed :=
    { h.built.toParsed with }
  exact Page.exists_rebuildSteps hparsed h.built.nonneg { h.timed with } { h.draws with }

/-! ## Reading the dump -/

theorem defaultValues_eq_none {params : List Param} {index : Binary64}
    (h : index ∉ params.map Param.index) : defaultValues params index = none := by
  have hkeys : params.zipIdx.map (fun entry => entry.1.index) = params.map Param.index := by
    conv_rhs => rw [← List.zipIdx_map_fst 0 params, List.map_map]
    rfl
  exact (actsAt_update (fun entry : Param × ℕ => entry.1.index) fun entry =>
    some (Value.num (defaultValue entry.2))).foldl_of_notMem (hkeys ▸ h) fun _ => none

/-- What `visualize` takes from the text of the dump. -/
def Page.read (page : Page) : Page :=
  let nodes := parseIR page.irText
  let edges := buildEdges nodes
  let detectedParams := detectParams nodes
  { page with
    nodes, edges, detectedParams
    exceptionNodes := classifyExceptionNodes nodes edges
    paramValues := defaultValues detectedParams
    paramInputs := detectedParams.map (paramInput (defaultValues detectedParams))
    currentStep := 0 }

theorem Page.parsed_read (page : Page) : page.read.Parsed where
  edges := rfl
  exceptionNodes := rfl
  detectedParams := rfl
  fields := by
    show List.map ParamInput.index (List.map _ _) = _
    rw [List.map_map]
    rfl
  values := fun _ hindex => defaultValues_eq_none hindex

/-- The graph of the dump with its steps, before it is painted. -/
def Page.redrawn (browser : Browser) (page : Page) (steps : List Step) : Page :=
  { page.read with steps := steps, drawing := page.read.render browser }

/-- Whatever was drawn before, reading the dump leaves a valid page. -/
theorem Page.Timed.exists_visualize (h : page.Timed) :
    ∃ steps next, (page.redrawn browser steps).Ends browser (page.visualize browser) next := by
  obtain ⟨steps, hsteps, hpos⟩ := page.parsed_read.exists_buildSteps page.read.paramValues
  have hbuilt : (page.redrawn browser steps).Built :=
    { page.parsed_read with
      steps := hsteps
      nonneg := le_refl _
      lt_length := Int.natCast_pos.mpr hpos }
  have hdraws : page.read.Draws browser (page.read.render browser) :=
    Page.draws_render page.parsed_read.nodup_edges
  obtain ⟨next, hends⟩ := Page.exists_refresh hbuilt { h with } { hdraws with }
  have hrefresh : page.visualize browser = (page.redrawn browser steps).refresh := by
    show ((buildSteps page.read.nodes page.read.edges page.read.levels
      page.read.paramValues).elim _ _ >>= fun steps => _) = _
    rw [hsteps]
    rfl
  exact ⟨steps, next, hrefresh ▸ hends⟩

/-! ## Events -/

theorem Page.Valid.typeParam (h : page.Valid browser) (position : ℕ) (value : Binary64) :
    ({ page with
      paramInputs := page.paramInputs.modify position fun input => { input with value } } :
      Page).Valid browser := by
  have hfields : (page.paramInputs.modify position fun input => { input with value }).map
      ParamInput.index = page.paramInputs.map ParamInput.index := by
    refine List.ext_getElem? fun i => ?_
    rw [List.getElem?_map, List.getElem?_modify, List.getElem?_map, Option.map_eq_map,
      Option.map_map]
    refine congrFun (congrArg Option.map (funext fun input => ?_)) _
    by_cases hi : position = i
    · rw [Function.comp_apply, if_pos hi]
    · rw [Function.comp_apply, if_neg hi]
  have hbuilt : ({ page with
      paramInputs := page.paramInputs.modify position fun input => { input with value } } :
      Page).Built :=
    { h.built with fields := hfields.trans h.built.fields }
  exact h.frame hbuilt { h.timed with } rfl

/-- The event makes the page paint its current step. -/
def Event.paints (page : Page) : Event → Bool
  | .visualize | .first | .prev | .next | .last | .toggleHappyPath => true
  | .tick timer => timer ∈ page.timers && page.currentStep < page.steps.length - 1
  | .changeParam position => position < page.paramInputs.length
  | .search query => query = ""
  | .editIR _ | .editJava _ | .play | .typeParam _ _ => false

/-- The page whose drawing and buttons a handler starts from: `visualize` draws the graph
before it paints. -/
def Page.drawn (browser : Browser) (page : Page) : Event → Page
  | .visualize => { page with drawing := page.read.render browser }
  | _ => page

/-- What the handler of an event does. -/
structure Page.Handles (browser : Browser) (page : Page) (event : Event) (next : Page) : Prop where
  handle : page.handle browser event =
    if event.paints page then next.outcome browser else .ok next
  valid : next.Valid browser
  throws : event.paints page = true → next.searching = false → next.Stuck browser →
    (page.drawn browser event).NodesOnly next

/-- A handler that ends by painting. -/
theorem Page.Ends.handles {before next : Page} {event : Event}
    (h : before.Ends browser (page.handle browser event) next) (hpaints : event.paints page = true)
    (hdrawing : before.drawing = (page.drawn browser event).drawing)
    (hbuttons : before.buttons = (page.drawn browser event).buttons) :
    page.Handles browser event next where
  handle := by rw [if_pos hpaints, h.outcome]
  valid := h.valid
  throws := fun _ hsearching hstuck => by
    obtain ⟨hedges, hjava, hinfo, hsame⟩ := h.throws hsearching hstuck
    rw [hdrawing] at hedges hjava hinfo
    rw [hbuttons] at hsame
    exact ⟨hedges, hjava, hinfo, hsame⟩

/-- A handler that does not paint. -/
theorem Page.handles_of_not_paints {next : Page} {event : Event}
    (hhandle : page.handle browser event = .ok next) (hvalid : next.Valid browser)
    (hpaints : event.paints page = false) : page.Handles browser event next where
  handle := by rw [hpaints, hhandle, if_neg Bool.false_ne_true]
  valid := hvalid
  throws := fun htrue => absurd htrue (by rw [hpaints]; decide)

theorem Page.Valid.tick (h : page.Valid browser) (timer : ℕ) :
    ∃ next, page.handle browser (.tick timer) = .ok next ∧ next.Valid browser ∧
      ((Event.tick timer).paints page = true → ¬ next.Stuck browser) := by
  rw [Page.handle]
  split_ifs with htimer
  · obtain ⟨next, hnext, hvalid, _, _, hmoved⟩ := h.playOn
    refine ⟨next, hnext, hvalid, fun hpaints hstuck => ?_⟩
    have hlt := of_decide_eq_true (Bool.and_eq_true_iff.mp hpaints).2
    rw [if_neg (not_le.mpr hlt)] at hmoved
    have hnonneg := h.built.nonneg
    have hzero := hstuck.1
    omega
  · refine ⟨page, rfl, h, fun hpaints => absurd (Bool.and_eq_true_iff.mp hpaints).1 ?_⟩
    simpa using htimer

theorem Page.Valid.searched (h : page.Valid browser) (query : String) :
    ({ page with searchText := query } : Page).Valid browser :=
  h.frame { h.built with } { h.timed with } rfl

/-- Each event leaves a valid page. -/
theorem Page.Valid.exists_handles (h : page.Valid browser) (event : Event) :
    ∃ next, page.Handles browser event next := by
  cases event with
  | editIR text =>
      exact ⟨_, Page.handles_of_not_paints rfl (h.frame { h.built with } { h.timed with } rfl) rfl⟩
  | editJava text =>
      exact ⟨_, Page.handles_of_not_paints rfl (h.frame { h.built with } { h.timed with } rfl) rfl⟩
  | visualize =>
      obtain ⟨_, next, hends⟩ := h.timed.exists_visualize
      exact ⟨next, Page.Ends.handles hends rfl rfl rfl⟩
  | first =>
      obtain ⟨next, hends⟩ := h.goToStep 0
      exact ⟨next, Page.Ends.handles hends rfl rfl rfl⟩
  | prev =>
      obtain ⟨next, hends⟩ := h.goToStep (page.currentStep - 1)
      exact ⟨next, Page.Ends.handles hends rfl rfl rfl⟩
  | next =>
      obtain ⟨next, hends⟩ := h.goToStep (page.currentStep + 1)
      exact ⟨next, Page.Ends.handles hends rfl rfl rfl⟩
  | last =>
      obtain ⟨next, hends⟩ := h.goToStep (page.steps.length - 1)
      exact ⟨next, Page.Ends.handles hends rfl rfl rfl⟩
  | play => exact ⟨_, Page.handles_of_not_paints rfl h.togglePlay rfl⟩
  | tick timer =>
      obtain ⟨next, hnext, hvalid, hfree⟩ := h.tick timer
      refine ⟨next, ?_, hvalid, fun hpaints _ hstuck => absurd hstuck (hfree hpaints)⟩
      rw [hnext]
      split_ifs with hpaints
      · rw [Page.outcome, if_neg fun hthrows => hfree hpaints hthrows.2]
      · rfl
  | typeParam position value =>
      exact ⟨_, Page.handles_of_not_paints rfl (h.typeParam position value) rfl⟩
  | changeParam position =>
      by_cases hlt : position < page.paramInputs.length
      · obtain ⟨_, next, hends⟩ := h.changeParam hlt
        exact ⟨next, Page.Ends.handles hends (decide_eq_true hlt) rfl rfl⟩
      · have hnone : page.paramInputs[position]? = none :=
          List.getElem?_eq_none_iff.mpr (not_lt.mp hlt)
        refine ⟨page, Page.handles_of_not_paints ?_ h (decide_eq_false hlt)⟩
        rw [Page.handle, Page.changeParam, hnone]
  | search query =>
      by_cases hquery : query = ""
      · subst hquery
        obtain ⟨next, hends⟩ := (h.searched "").clearSearch
        exact ⟨next, Page.Ends.handles hends rfl rfl rfl⟩
      · obtain ⟨next, hnext, hvalid, _⟩ := (h.searched query).doSearch hquery
        exact ⟨next, Page.handles_of_not_paints hnext hvalid (decide_eq_false hquery)⟩
  | toggleHappyPath =>
      obtain ⟨_, next, hends⟩ := h.toggleHappyPath
      exact ⟨next, Page.Ends.handles hends rfl rfl rfl⟩

theorem Page.Handles.stateLeft_eq {event : Event} {next : Page}
    (h : page.Handles browser event next) : stateLeft (page.handle browser event) = next := by
  rw [h.handle]
  split_ifs
  · exact next.stateLeft_outcome
  · rfl

/-- A handler throws exactly if it paints the initial step of a graph with data edges that are
drawn. -/
theorem Page.Handles.eq_error_iff {event : Event} {next : Page}
    (h : page.Handles browser event next) :
    page.handle browser event = .error next ↔
      event.paints page = true ∧ next.searching = false ∧ next.Stuck browser := by
  rw [h.handle]
  constructor
  · intro hthrows
    split_ifs at hthrows with hpaints
    rw [Page.outcome] at hthrows
    split_ifs at hthrows with hstuck
    exact ⟨hpaints, hstuck⟩
  · rintro ⟨hpaints, hstuck⟩
    rw [if_pos hpaints, Page.outcome, if_pos hstuck]

end Valid

end Colata.Viewer
