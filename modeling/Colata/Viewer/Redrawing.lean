/-
# Painting over and drawing anew

Between two drawings of the graph the handlers change what is drawn in place. Which
elements there are then stays as `renderGraph` made it, and structural edges keep their
look. Where these elements are drawn, a painted step looks as on the graph drawn anew.
-/

import Colata.Viewer.Painting

namespace Colata.Viewer

open Colata.IR Colata.Math

/-! ## What is drawn -/

section Render

variable {browser : Browser} {page : Page}

theorem nodes_render_of_mem {node : Node} (h : node ∈ page.nodes.nodes) :
    (page.render browser).nodes node.id =
      if (browser.layoutGraph page.nodes page.edges).placed node.id then some .fresh else none :=
  ((actsAt_update Node.id fun _ => some NodeElement.fresh).ite
    fun node => (browser.layoutGraph page.nodes page.edges).placed node.id).foldl_of_mem
    page.nodes.nodup h fun _ => none

theorem nodes_render_of_notMem {id : NodeId} (h : id ∉ page.nodes.ids) :
    (page.render browser).nodes id = none :=
  ((actsAt_update Node.id fun _ => some NodeElement.fresh).ite
    fun node => (browser.layoutGraph page.nodes page.edges).placed node.id).foldl_of_notMem
    h fun _ => none

theorem lines_render_of_mem {node : Node} (h : node ∈ page.nodes.nodes) :
    (page.render browser).lines node.id = some .dimmed :=
  (actsAt_update Node.id fun _ => some LineClass.dimmed).foldl_of_mem page.nodes.nodup h
    fun _ => none

theorem lines_render_of_notMem {id : NodeId} (h : id ∉ page.nodes.ids) :
    (page.render browser).lines id = none :=
  (actsAt_update Node.id fun _ => some LineClass.dimmed).foldl_of_notMem h fun _ => none

/-- Whether there is a path for the edge: it has points or both of its ends are placed. -/
def Layout.draws (layout : Layout) (edge : Edge) : Bool :=
  layout.routed edge.key || (layout.placed edge.fromId && layout.placed edge.toId)

theorem edges_render_of_mem (hnodup : (page.edges.map Edge.key).Nodup) {edge : Edge}
    (h : edge ∈ page.edges) :
    (page.render browser).edges edge.key =
      if (browser.layoutGraph page.nodes page.edges).draws edge then some (.fresh edge)
      else none :=
  ((actsAt_update Edge.key fun edge => some (EdgeElement.fresh edge)).ite
    (browser.layoutGraph page.nodes page.edges).draws).foldl_of_mem hnodup h fun _ => none

theorem edges_render_of_notMem {key : EdgeKey} (h : key ∉ page.edges.map Edge.key) :
    (page.render browser).edges key = none :=
  ((actsAt_update Edge.key fun edge => some (EdgeElement.fresh edge)).ite
    (browser.layoutGraph page.nodes page.edges).draws).foldl_of_notMem h fun _ => none

end Render

/-- Whether there is a path for some data edge. -/
def Page.drawsData (browser : Browser) (page : Page) : Bool :=
  page.edges.any fun edge =>
    !edge.structural && (browser.layoutGraph page.nodes page.edges).draws edge

/-- At the initial step of such a graph the page cannot be painted. -/
def Page.Stuck (browser : Browser) (page : Page) : Prop :=
  page.currentStep = 0 ∧ page.drawsData browser = true

instance (browser : Browser) (page : Page) : Decidable (page.Stuck browser) :=
  inferInstanceAs (Decidable (_ ∧ _))

/-- The elements of the drawing are those of the graph. -/
structure Page.Draws (browser : Browser) (page : Page) (drawing : Drawing) : Prop where
  node : ∀ id, (drawing.nodes id).isSome = ((page.render browser).nodes id).isSome
  line : ∀ id, (drawing.lines id).isSome = ((page.render browser).lines id).isSome
  edge : ∀ key, (drawing.edges key).isSome = ((page.render browser).edges key).isSome
  structural : ∀ edge ∈ page.edges, edge.structural = true →
    drawing.edges edge.key = (page.render browser).edges edge.key
  data : ∀ edge ∈ page.edges, edge.structural = false →
    ∀ element, drawing.edges edge.key = some element → .structural ∉ element.classes

section Draws

variable {browser : Browser} {page : Page} {drawing : Drawing}

theorem Page.draws_render (hnodup : (page.edges.map Edge.key).Nodup) :
    page.Draws browser (page.render browser) where
  node := fun _ => rfl
  line := fun _ => rfl
  edge := fun _ => rfl
  structural := fun _ _ _ => rfl
  data := fun edge hedge hdata element helement => by
    rw [edges_render_of_mem hnodup hedge] at helement
    split_ifs at helement
    rw [← Option.some.inj helement, EdgeElement.fresh, hdata]
    decide

/-- Painting makes no elements and removes none. -/
theorem Page.Draws.paint (h : page.Draws browser drawing)
    (hnodup : (page.edges.map Edge.key).Nodup) (step : Step) :
    page.Draws browser (page.paint step drawing) where
  node := fun id => by
    rw [← h.node id]
    by_cases hid : id ∈ page.nodes.ids
    · rw [nodes_paint_of_mem hid, Option.isSome_map]
    · rw [nodes_paint_of_notMem hid]
  line := fun id => by
    rw [← h.line id]
    by_cases hid : id ∈ page.nodes.ids
    · rw [lines_paint_of_mem hid, Option.isSome_map]
    · rw [lines_paint_of_notMem hid]
  edge := fun key => by
    rw [← h.edge key]
    by_cases hkey : key ∈ page.edges.map Edge.key
    · obtain ⟨edge, hedge, rfl⟩ := List.mem_map.mp hkey
      rw [edges_paint_of_mem hnodup hedge]
      split_ifs
      · rw [Option.isSome_map]
      · rfl
    · rw [edges_paint_of_notMem hkey]
  structural := fun edge hedge hstructural => by
    rw [← h.structural edge hedge hstructural, edges_paint_of_mem hnodup hedge, hstructural]
    rfl
  data := fun edge hedge hdata element helement => by
    rw [edges_paint_of_mem hnodup hedge, hdata] at helement
    obtain ⟨before, hbefore, rfl⟩ := Option.map_eq_some_iff.mp helement
    exact EdgeElement.structural_notMem_apply (h.data edge hedge hdata before hbefore) _ _ _

theorem Page.Draws.paintNodes (h : page.Draws browser drawing)
    (hnodup : (page.edges.map Edge.key).Nodup) (step : Step) :
    page.Draws browser (page.paintNodes step drawing) := by
  have hpaint := h.paint hnodup step
  rw [paintNodes_eq]
  exact { h with node := hpaint.node, line := hpaint.line }

/-- The paths that are painted are those of the data edges that are drawn. -/
theorem Page.Draws.any_paints (h : page.Draws browser drawing)
    (hnodup : (page.edges.map Edge.key).Nodup) :
    page.edges.any drawing.paints = page.drawsData browser := by
  rw [Page.drawsData, Bool.eq_iff_iff, List.any_eq_true, List.any_eq_true]
  refine exists_congr fun edge => and_congr_right fun hedge => ?_
  rw [Drawing.paints, h.edge edge.key, edges_render_of_mem hnodup hedge]
  split_ifs with hdraws
  · rw [hdraws, Option.isSome_some]
  · rw [Bool.not_eq_true] at hdraws
    rw [hdraws, Option.isSome_none]

theorem foldl_markNode_eq (browser : Browser) (query : String) (nodes : List Node)
    (drawing : Drawing) :
    nodes.foldl (Drawing.markNode browser query) drawing =
      { drawing with
        nodes := (nodes.foldl (Drawing.markNode browser query) drawing).nodes } := by
  induction nodes generalizing drawing with
  | nil => rfl
  | cons node nodes ih => exact ih (drawing.markNode browser query node)

theorem isSome_nodes_foldl_markNode (browser : Browser) (query : String) (nodes : List Node)
    (drawing : Drawing) (id : NodeId) :
    ((nodes.foldl (Drawing.markNode browser query) drawing).nodes id).isSome =
      (drawing.nodes id).isSome := by
  induction nodes generalizing drawing with
  | nil => rfl
  | cons node nodes ih =>
      rw [List.foldl_cons, ih]
      exact isSome_modifyAt drawing.nodes node.id _ id

/-- Marking the nodes that a search finds makes no elements and removes none. -/
theorem Page.Draws.mark (h : page.Draws browser drawing) (query : String) :
    page.Draws browser (page.nodes.nodes.foldl (Drawing.markNode browser query) drawing) := by
  rw [foldl_markNode_eq]
  exact { h with node := fun id =>
    (isSome_nodes_foldl_markNode browser query page.nodes.nodes drawing id).trans (h.node id) }

/-! ## Painting over -/

theorem map_eq_map_of_isSome_eq {α β : Type} {first second : Option α} {f : α → β}
    (h : first.isSome = second.isSome)
    (heq : ∀ a ∈ first, ∀ b ∈ second, f a = f b) : first.map f = second.map f := by
  cases first with
  | none =>
      cases second with
      | none => rfl
      | some b => cases h
  | some a =>
      cases second with
      | none => cases h
      | some b => exact congrArg some (heq a rfl b rfl)

theorem eq_of_isSome_eq_of_eq_none {α : Type} {first second : Option α}
    (h : first.isSome = second.isSome) (hnone : second = none) : first = second := by
  rw [hnone, Option.isSome_none, Option.isSome_eq_false_iff, Option.isNone_iff_eq_none] at h
  rw [h, hnone]

/-- The graph drawn anew beside the lines of Java source that are there. -/
def Page.redraw (browser : Browser) (page : Page) (drawing : Drawing) : Drawing :=
  { page.render browser with
    javaLineCount := drawing.javaLineCount
    info := none }

theorem Page.redraw_congr (page : Page) {first second : Drawing}
    (h : first.javaLineCount = second.javaLineCount) :
    page.redraw browser first = page.redraw browser second := by
  rw [Page.redraw, Page.redraw, h]

theorem Page.Draws.nodes_seen_paint (h : page.Draws browser drawing) (step : Step) (id : NodeId) :
    (page.paint step drawing).seen.nodes id =
      (page.paint step (page.redraw browser drawing)).seen.nodes id := by
  rw [Drawing.nodes_seen, Drawing.nodes_seen]
  by_cases hid : id ∈ page.nodes.ids
  · rw [nodes_paint_of_mem hid, nodes_paint_of_mem hid, Option.map_map, Option.map_map]
    exact map_eq_map_of_isSome_eq (h.node id) fun first _ second _ =>
      NodeElement.seen_apply _ _ first second
  · rw [nodes_paint_of_notMem hid, nodes_paint_of_notMem hid]
    exact congrArg _ (eq_of_isSome_eq_of_eq_none (h.node id) (nodes_render_of_notMem hid))

theorem Page.Draws.lines_paint (h : page.Draws browser drawing) (step : Step) (id : NodeId) :
    (page.paint step drawing).lines id =
      (page.paint step (page.redraw browser drawing)).lines id := by
  by_cases hid : id ∈ page.nodes.ids
  · rw [lines_paint_of_mem hid, lines_paint_of_mem hid]
    exact map_eq_map_of_isSome_eq (h.line id) fun _ _ _ _ => rfl
  · rw [lines_paint_of_notMem hid, lines_paint_of_notMem hid]
    have hnone : (page.render browser).lines id = none := lines_render_of_notMem hid
    exact eq_of_isSome_eq_of_eq_none (h.line id) hnone

theorem Page.Draws.edges_paint (h : page.Draws browser drawing)
    (hnodup : (page.edges.map Edge.key).Nodup) (step : Step) (key : EdgeKey) :
    (page.paint step drawing).edges key =
      (page.paint step (page.redraw browser drawing)).edges key := by
  by_cases hkey : key ∈ page.edges.map Edge.key
  · obtain ⟨edge, hedge, rfl⟩ := List.mem_map.mp hkey
    rw [edges_paint_of_mem hnodup hedge, edges_paint_of_mem hnodup hedge]
    cases hstructural : edge.structural with
    | true => exact h.structural edge hedge hstructural
    | false =>
        exact map_eq_map_of_isSome_eq (h.edge edge.key) fun first hfirst second hsecond =>
          EdgeElement.apply_eq_apply (h.data edge hedge hstructural first hfirst)
            ((Page.draws_render hnodup).data edge hedge hstructural second hsecond) _ _ _
  · rw [edges_paint_of_notMem hkey, edges_paint_of_notMem hkey]
    exact eq_of_isSome_eq_of_eq_none (h.edge key) (edges_render_of_notMem hkey)

/-- What is seen after the painting of a step does not depend on what was shown before. -/
theorem Page.Draws.seen_paint (h : page.Draws browser drawing)
    (hnodup : (page.edges.map Edge.key).Nodup) (step : Step) :
    (page.paint step drawing).seen = (page.paint step (page.redraw browser drawing)).seen := by
  have hnodes := funext (h.nodes_seen_paint step)
  have hlines := funext (h.lines_paint step)
  have hedges := funext (h.edges_paint hnodup step)
  have hcount : (page.paint step drawing).javaLineCount =
      (page.paint step (page.redraw browser drawing)).javaLineCount := by
    rw [javaLineCount_paint, javaLineCount_paint]
    rfl
  have hjava : (page.paint step drawing).javaLines =
      (page.paint step (page.redraw browser drawing)).javaLines := by
    rw [javaLines_paint, javaLines_paint]
    rfl
  rw [Drawing.seen, Drawing.seen, Drawing.mk.injEq]
  exact ⟨hnodes, hlines, hedges, hcount, hjava, rfl⟩

end Draws

end Colata.Viewer
