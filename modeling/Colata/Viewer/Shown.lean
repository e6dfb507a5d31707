/-
# What the page shows

At any moment of a run the page, unless it shows a search, displays a state of the execution
of its graph: the level that is executed, the nodes that have been, the values computed so
far and the data that flowed. Nothing else of the run can be seen. Where painting throws this
is so of the nodes and the lines of the dump, while edges and caption stay as they were.
-/

import Colata.Viewer.Runs

namespace Colata.Viewer

open Colata.IR Colata.Math Colata.JavaScript

/-! ## The state of the execution -/

/-- The nodes of the levels before the one that the current step executes. -/
def Page.executed (page : Page) : List NodeId :=
  (([] :: page.levels).take page.currentStep.toNat).flatten

/-- The values that the levels up to the current one compute. -/
def Page.values (page : Page) : Values :=
  Dataflow.run (evaluate page.nodes page.paramValues) Dataflow.emptyEnv
    (page.levels.take page.currentStep.toNat).flatten

/-- The box hides the node. -/
def Page.hides (page : Page) (id : NodeId) : Bool :=
  page.happyPath && decide (id ∈ page.exceptionNodes)

/-! ## How it looks -/

def Page.status (page : Page) (id : NodeId) : NodeStatus where
  isExc := page.hides id
  isA := !page.hides id && decide (id ∈ page.executing)
  isD := !page.hides id && decide (id ∈ page.executed)

def Page.nodeLook (page : Page) (id : NodeId) : NodeElement where
  rect := [(page.status id).cls]
  labels := (page.status id).label
  value :=
    match page.values id with
    | some value =>
        ⟨value.text, true, some (if (page.status id).isA then .yellow else .green)⟩
    | none => ⟨"", false, none⟩

def Page.edgeLook (page : Page) (edge : Edge) : EdgeElement :=
  if edge.structural then ⟨[.structural], .none⟩
  else if page.hides edge.fromId || page.hides edge.toId then ⟨[.exception], .none⟩
  else if edge.toId ∈ page.executing then ⟨[.active], .active⟩
  else if edge.toId ∈ page.executed then ⟨[.done], .done⟩
  else ⟨[.dim], .data⟩

/-- The nodes and the lines of the dump display the state of the execution. -/
structure Page.ShowsStatus (browser : Browser) (page : Page) : Prop where
  node : ∀ node ∈ page.nodes.nodes, page.drawing.seen.nodes node.id =
    if (browser.layoutGraph page.nodes page.edges).placed node.id then
      some (page.nodeLook node.id)
    else none
  line : ∀ node ∈ page.nodes.nodes, page.drawing.lines node.id =
    some (page.status node.id).line

/-- The whole page displays the state of the execution. -/
structure Page.ShowsExecution (browser : Browser) (page : Page) : Prop extends
    Page.ShowsStatus browser page where
  edge : ∀ edge ∈ page.edges, page.drawing.edges edge.key =
    if (browser.layoutGraph page.nodes page.edges).draws edge then some (page.edgeLook edge)
    else none
  javaLine : ∀ number, number ∈ page.drawing.javaLines ↔
    number.isTruthy = true ∧ page.drawing.hasJavaLine number = true ∧
      ∃ node ∈ page.nodes.nodes, node.id ∈ page.executing ∧ node.javaLine = some number
  info : page.drawing.info =
      some ⟨0, page.levels.length, initialStep.name, initialStep.desc⟩ ∧ page.currentStep = 0 ∨
    ∃ present : List Node, present.map Node.id = page.executing ∧
      (∀ node ∈ present, node ∈ page.nodes.nodes) ∧
      page.drawing.info = some ⟨page.currentStep, page.levels.length, levelName present,
        levelDesc page.values present⟩

theorem NodeElement.seen_apply_fresh (status : NodeStatus) (value : Option Value) :
    (NodeElement.fresh.apply status value).seen =
      { rect := [status.cls]
        labels := status.label
        value :=
          match value with
          | some v => ⟨v.text, true, some (if status.isA then .yellow else .green)⟩
          | none => ⟨"", false, none⟩ } := by
  have hlabels : status.label.foldl addTo [] = status.label := by
    rw [NodeStatus.label]
    split_ifs <;> rfl
  have hrect : addTo [] status.cls = [status.cls] := rfl
  simp only [NodeElement.seen, NodeElement.apply, removeAll_node, removeAll_label, hlabels, hrect]
  cases value with
  | none => rfl
  | some v => rfl

section Shown

variable {browser : Browser} {page : Page}

/-! ## The current step -/

/-- What the current step holds. -/
structure Page.Holds (page : Page) (step : Step) : Prop where
  shows : step.Shows page.edges page.executed page.executing
  values : step.values = page.values
  texts : page.currentStep = 0 ∧ step = initialStep ∨
    page.currentStep ≠ 0 ∧ step.Describes page.nodes page.executing
  length : page.steps.length = page.levels.length + 1

theorem Page.Built.holds (h : page.Built) {step : Step} (hstep : page.step? = some step) :
    page.Holds step := by
  have hget : page.steps[page.currentStep.toNat]? = some step := by
    rwa [Page.step?, if_neg (not_lt.mpr h.nonneg)] at hstep
  obtain ⟨shown, hshown, hshows⟩ :=
    showLevels_buildSteps page.edges h.mem_ids_of_mem_levels page.paramValues
  obtain ⟨valued, hvalued, hvalues⟩ :=
    values_buildSteps page.edges h.mem_ids_of_mem_levels page.paramValues
  obtain rfl : page.steps = shown := Option.some.inj (h.steps.symm.trans hshown)
  obtain rfl : page.steps = valued := Option.some.inj (h.steps.symm.trans hvalued)
  obtain ⟨active, hactive, hstepShows⟩ := hshows.shown _ step hget
  have hexecuting : page.executing = active := by rw [Page.executing, hactive]; rfl
  exact ⟨hexecuting ▸ hstepShows, values_of_getElem? hvalues hget, h.step_cases hstep,
    hshows.length⟩

theorem nodeStatus_eq {step : Step} (h : page.Holds step) (id : NodeId) :
    nodeStatus page.happyPath page.exceptionNodes step id = page.status id := by
  have hdone := h.shows.completedNodes id
  simp only [nodeStatus, Page.status, Page.hides, h.shows.activeNodes, hdone]

theorem changeEdge_fresh {step : Step} (h : page.Holds step) {edge : Edge}
    (hedge : edge ∈ page.edges) (hdata : edge.structural = false) :
    changeEdge page.happyPath page.exceptionNodes step edge (.fresh edge) = page.edgeLook edge := by
  have hkey : IsDataKey page.edges edge.key := ⟨edge, hedge, hdata, rfl⟩
  have hactive : edge.key ∈ step.activeEdges ↔ edge.toId ∈ page.executing :=
    (h.shows.activeEdges edge.key).trans (and_iff_right hkey)
  have hdone : edge.key ∈ step.completedEdges ↔ edge.toId ∈ page.executed :=
    (h.shows.completedEdges edge.key).trans (and_iff_right hkey)
  have hhides : (page.happyPath && (decide (edge.fromId ∈ page.exceptionNodes) ||
      decide (edge.toId ∈ page.exceptionNodes))) =
      (page.hides edge.fromId || page.hides edge.toId) :=
    Bool.and_or_distrib_left _ _ _
  rw [changeEdge, hhides, EdgeElement.apply, EdgeElement.fresh, hdata]
  simp only [hactive, hdone, decide_eq_true_eq, Page.edgeLook, hdata, Bool.false_eq_true, if_false]
  rw [EdgeElement.removeAll_of_data (by decide)]
  rfl

theorem Page.Holds.mem_javaLines {step : Step} (h : page.Holds step) {number : Binary64} :
    number ∈ step.javaLines.getD [] ↔ number.isTruthy = true ∧
      ∃ node ∈ page.nodes.nodes, node.id ∈ page.executing ∧ node.javaLine = some number := by
  rcases h.texts with ⟨hcurrent, rfl⟩ | ⟨_, present, hids, hmem, _, _, hlines, _⟩
  · have hexecuting : page.executing = [] := by rw [Page.executing, hcurrent]; rfl
    rw [hexecuting]
    simp [initialStep]
  · rw [hlines, Option.getD_some, List.mem_filter, List.mem_filterMap, and_comm, ← hids]
    refine and_congr_right fun _ => ⟨?_, ?_⟩
    · rintro ⟨node, hnode, hline⟩
      exact ⟨node, hmem node hnode, List.mem_map_of_mem hnode, hline⟩
    · rintro ⟨node, hnode, hid, hline⟩
      obtain ⟨other, hother, heq⟩ := List.mem_map.mp hid
      obtain rfl := NodeTable.eq_of_mem_of_id_eq (hmem other hother) hnode heq
      exact ⟨other, hother, hline⟩

/-- What the nodes and the lines of a valid page display. -/
theorem Page.Valid.showsStatus (h : page.Valid browser) (hsearching : page.searching = false) :
    page.ShowsStatus browser := by
  obtain ⟨step, hstep, hnodes, hlines⟩ := h.nodes hsearching
  have hholds := h.built.holds hstep
  refine ⟨fun node hnode => ?_, fun node hnode => ?_⟩
  · rw [hnodes, Drawing.nodes_seen, nodes_paint_of_mem (NodeTable.mem_ids.mpr ⟨node, hnode, rfl⟩),
      nodeStatus_eq hholds, hholds.values]
    show Option.map _ (Option.map _ ((page.render browser).nodes node.id)) = _
    rw [nodes_render_of_mem hnode]
    split_ifs
    · rw [Option.map_some, Option.map_some, NodeElement.seen_apply_fresh]
      rfl
    · rfl
  · rw [hlines, lines_paint_of_mem (NodeTable.mem_ids.mpr ⟨node, hnode, rfl⟩), nodeStatus_eq hholds]
    show Option.map _ ((page.render browser).lines node.id) = _
    rw [lines_render_of_mem hnode]
    rfl

/-- The display of a valid page whose painting does not throw. -/
theorem Page.Valid.showsExecution (h : page.Valid browser) (hsearching : page.searching = false)
    (hfree : ¬ page.Stuck browser) : page.ShowsExecution browser := by
  obtain ⟨step, hstep, hseen⟩ := h.shows hsearching hfree
  have hholds := h.built.holds hstep
  have hnodup := h.built.nodup_edges
  obtain ⟨_, hedges, _, hjava, hinfo⟩ := Drawing.eq_of_seen_eq hseen
  refine ⟨h.showsStatus hsearching, fun edge hedge => ?_, fun number => ?_, ?_⟩
  · rw [hedges, edges_paint_of_mem hnodup hedge]
    show (if _ then Option.map _ ((page.render browser).edges edge.key)
      else (page.render browser).edges edge.key) = _
    rw [edges_render_of_mem hnodup hedge]
    cases hstructural : edge.structural with
    | true =>
        rw [Page.edgeLook, EdgeElement.fresh, hstructural]
        rfl
    | false =>
        rw [← changeEdge_fresh hholds hedge hstructural, Bool.not_false, if_pos rfl]
        split_ifs
        · rfl
        · rfl
  · rw [hjava, javaLines_paint, mem_foldl_addTo, List.mem_filter, hholds.mem_javaLines,
      or_iff_right List.not_mem_nil, and_right_comm, and_assoc]
    rfl
  · have hlast : (page.steps.length : ℤ) - 1 = page.levels.length := by
      rw [hholds.length]
      omega
    rw [hinfo, info_paint, hlast]
    rcases hholds.texts with ⟨hcurrent, rfl⟩ | ⟨_, present, hids, hmem, hname, hdesc, _⟩
    · rw [hcurrent]
      exact Or.inl ⟨rfl, rfl⟩
    · rw [hname, hdesc, hholds.values]
      exact Or.inr ⟨present, hids, hmem, rfl⟩

end Shown

/-- After every run the page displays the state of the execution, unless it shows a search. At
the initial step of a graph with data edges that are drawn this is so of the nodes and the
lines of the dump. -/
theorem run_showsExecution (browser : Browser) (irText javaText : String) (happyPath : Bool)
    (events : List Event) :
    let page := run browser irText javaText happyPath events
    (page.searching = false → page.ShowsStatus browser) ∧
      (page.searching = false → ¬ page.Stuck browser → page.ShowsExecution browser) := by
  intro page
  have hvalid : page.Valid browser := valid_run browser irText javaText happyPath events
  exact ⟨hvalid.showsStatus, hvalid.showsExecution⟩

/-! ## No trace of what was shown before -/

/-- What the page shows depends on this data alone. -/
structure Page.SameState (first second : Page) : Prop where
  nodes : first.nodes = second.nodes
  happyPath : first.happyPath = second.happyPath
  paramValues : first.paramValues = second.paramValues
  currentStep : first.currentStep = second.currentStep
  javaLineCount : first.drawing.javaLineCount = second.drawing.javaLineCount

section SameState

variable {browser : Browser} {first second : Page}

theorem Page.SameState.edges_eq (h : first.SameState second) (hfirst : first.Built)
    (hsecond : second.Built) : first.edges = second.edges := by
  rw [hfirst.edges, hsecond.edges, h.nodes]

theorem Page.SameState.stuck_iff (h : first.SameState second) (hfirst : first.Built)
    (hsecond : second.Built) : first.Stuck browser ↔ second.Stuck browser := by
  rw [Page.Stuck, Page.Stuck, Page.drawsData, Page.drawsData, h.nodes, h.currentStep,
    h.edges_eq hfirst hsecond]

/-- Such pages paint the same step in the same way. -/
theorem Page.SameState.paint_redraw_eq (h : first.SameState second) (hfirst : first.Built)
    (hsecond : second.Built) :
    first.step? = second.step? ∧ ∀ step, first.paint step (first.redraw browser first.drawing) =
      second.paint step (second.redraw browser second.drawing) := by
  have hedges := h.edges_eq hfirst hsecond
  have hexceptions : first.exceptionNodes = second.exceptionNodes := by
    rw [hfirst.exceptionNodes, hsecond.exceptionNodes, h.nodes, hedges]
  have hlevels : first.levels = second.levels := by
    rw [Page.levels, Page.levels, h.nodes, hedges, h.happyPath, hexceptions]
  have hsteps : first.steps = second.steps := by
    have hbuild := hfirst.steps
    rw [h.nodes, hedges, hlevels, h.paramValues, hsecond.steps] at hbuild
    exact (Option.some.inj hbuild).symm
  refine ⟨by rw [Page.step?, Page.step?, h.currentStep, hsteps], fun step => ?_⟩
  simp only [Page.paint, Page.paintNodes, Page.redraw, Page.render, h.nodes, hedges, h.happyPath,
    hexceptions, h.currentStep, hsteps, h.javaLineCount]

theorem Page.SameState.nodes_seen_eq (h : first.SameState second) (hfirst : first.Valid browser)
    (hsecond : second.Valid browser) (hshown : first.searching = false)
    (hshown' : second.searching = false) :
    first.drawing.seen.nodes = second.drawing.seen.nodes ∧
      first.drawing.lines = second.drawing.lines := by
  obtain ⟨hsame, hpaint⟩ := h.paint_redraw_eq hfirst.built hsecond.built
  obtain ⟨step, hstep, hnodes, hlines⟩ := hfirst.nodes hshown
  obtain ⟨step', hstep', hnodes', hlines'⟩ := hsecond.nodes hshown'
  obtain rfl : step = step' := Option.some.inj (hstep.symm.trans (hsame.trans hstep'))
  rw [hnodes, hnodes', hlines, hlines', hpaint]
  exact ⟨rfl, rfl⟩

theorem Page.SameState.seen_eq (h : first.SameState second) (hfirst : first.Valid browser)
    (hsecond : second.Valid browser) (hshown : first.searching = false)
    (hshown' : second.searching = false) (hfree : ¬ first.Stuck browser) :
    first.drawing.seen = second.drawing.seen := by
  obtain ⟨hsame, hpaint⟩ := h.paint_redraw_eq hfirst.built hsecond.built
  obtain ⟨step, hstep, hseen⟩ := hfirst.shows hshown hfree
  obtain ⟨step', hstep', hseen'⟩ := hsecond.shows hshown' fun hstuck =>
    hfree ((h.stuck_iff hfirst.built hsecond.built).mpr hstuck)
  obtain rfl : step = step' := Option.some.inj (hstep.symm.trans (hsame.trans hstep'))
  rw [hseen, hseen', hpaint]

end SameState

/-- Two runs that reach the same graph, parameters, box and step show the same, whatever they
showed before. At the initial step of a graph with data edges that are drawn this is so of the
nodes and the lines of the dump. -/
theorem run_seen_eq (browser : Browser) (irText javaText irText' javaText' : String)
    (happyPath happyPath' : Bool) (events events' : List Event) :
    let first := run browser irText javaText happyPath events
    let second := run browser irText' javaText' happyPath' events'
    (first.searching = false → second.searching = false → first.SameState second →
      first.drawing.seen.nodes = second.drawing.seen.nodes ∧
        first.drawing.lines = second.drawing.lines) ∧
      (first.searching = false → second.searching = false → first.SameState second →
        ¬ first.Stuck browser → first.drawing.seen = second.drawing.seen) := by
  intro first second
  have hfirst : first.Valid browser := valid_run browser irText javaText happyPath events
  have hsecond : second.Valid browser := valid_run browser irText' javaText' happyPath' events'
  exact ⟨fun hshown hshown' hstate => hstate.nodes_seen_eq hfirst hsecond hshown hshown',
    fun hshown hshown' hstate => hstate.seen_eq hfirst hsecond hshown hshown'⟩

end Colata.Viewer
