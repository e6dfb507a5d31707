/-
# Painting a step

`applyStep` changes the elements that are there. Whatever they looked like before, after it
the page looks as if it were drawn anew and then painted: painting leaves no trace of the
steps and searches that were shown earlier. Only the initial step is another matter, as its
active edges are an array: `applyStep` throws at the first data edge that is drawn, when the
nodes are painted and nothing else.
-/

import Colata.Viewer.Page

namespace Colata.Viewer

open Colata.IR Colata.Math

/-! ## What can be seen -/

/-- A text that is not displayed cannot be seen. -/
def ValueElement.seen (element : ValueElement) : ValueElement :=
  if element.displayed then element else ⟨"", false, none⟩

def NodeElement.seen (element : NodeElement) : NodeElement :=
  { element with value := element.value.seen }

def Drawing.seen (drawing : Drawing) : Drawing :=
  { drawing with nodes := fun id => (drawing.nodes id).map NodeElement.seen }

theorem Drawing.nodes_seen (drawing : Drawing) (id : NodeId) :
    drawing.seen.nodes id = (drawing.nodes id).map NodeElement.seen := rfl

theorem Drawing.eq_of_seen_eq {first second : Drawing} (h : first.seen = second.seen) :
    first.lines = second.lines ∧ first.edges = second.edges ∧
      first.javaLineCount = second.javaLineCount ∧ first.javaLines = second.javaLines ∧
      first.info = second.info := by
  rw [Drawing.seen, Drawing.seen, Drawing.mk.injEq] at h
  exact h.2

theorem ValueElement.seen_apply (isA : Bool) (value : Option Value)
    (first second : ValueElement) : (first.apply isA value).seen = (second.apply isA value).seen := by
  cases value with
  | none => rfl
  | some v => rfl

theorem removeAll_node (classes : List NodeClass) :
    removeAll [.active, .done, .dim, .exception, .search, .searchDim] classes = [] := by
  rw [removeAll, List.filter_eq_nil_iff]
  intro c _
  cases c <;> decide

theorem removeAll_label (classes : List LabelClass) :
    removeAll [.active, .dim, .exception] classes = [] := by
  rw [removeAll, List.filter_eq_nil_iff]
  intro c _
  cases c <;> decide

/-- What is seen of a painted node does not depend on what it was painted over. -/
theorem NodeElement.seen_apply (status : NodeStatus) (value : Option Value)
    (first second : NodeElement) :
    (first.apply status value).seen = (second.apply status value).seen := by
  simp only [NodeElement.seen, NodeElement.apply, removeAll_node, removeAll_label,
    ValueElement.seen_apply status.isA value first.value second.value]

theorem EdgeElement.removeAll_of_data {classes : List EdgeClass} (h : .structural ∉ classes) :
    removeAll [.active, .done, .dim, .exception, .data] classes = [] := by
  rw [removeAll, List.filter_eq_nil_iff]
  intro c hc
  cases c with
  | structural => exact absurd hc h
  | data | active | done | dim | exception => decide

/-- The path of a data edge never gets the class of a structural one. -/
theorem EdgeElement.structural_notMem_apply {element : EdgeElement}
    (h : .structural ∉ element.classes) (isExcEdge isA isD : Bool) :
    .structural ∉ (element.apply isExcEdge isA isD).classes := by
  simp only [EdgeElement.apply, removeAll_of_data h]
  split_ifs <;> decide

/-- What a painted data edge is does not depend on what it was painted over. -/
theorem EdgeElement.apply_eq_apply {first second : EdgeElement}
    (hfirst : .structural ∉ first.classes) (hsecond : .structural ∉ second.classes)
    (isExcEdge isA isD : Bool) :
    first.apply isExcEdge isA isD = second.apply isExcEdge isA isD := by
  simp only [EdgeElement.apply, removeAll_of_data hfirst, removeAll_of_data hsecond]

/-! ## The loops of a painting -/

section Loops

variable (happyOnly : Bool) (exceptionNodes : List NodeId) (step : Step) (drawing : Drawing)

theorem nodes_foldl_applyNode (ids : List NodeId) :
    (ids.foldl (Drawing.applyNode happyOnly exceptionNodes step) drawing).nodes =
      ids.foldl (fun elements id => modifyAt elements id
        (.apply (nodeStatus happyOnly exceptionNodes step id) (step.values id))) drawing.nodes :=
  (List.foldl_hom Drawing.nodes fun _ _ => rfl).symm

theorem lines_foldl_applyNode (ids : List NodeId) :
    (ids.foldl (Drawing.applyNode happyOnly exceptionNodes step) drawing).lines =
      ids.foldl (fun lines id => modifyAt lines id
        fun _ => (nodeStatus happyOnly exceptionNodes step id).line) drawing.lines :=
  (List.foldl_hom Drawing.lines fun _ _ => rfl).symm

/-- The loop over the nodes leaves all other elements as they are. -/
theorem foldl_applyNode_eq (ids : List NodeId) :
    ids.foldl (Drawing.applyNode happyOnly exceptionNodes step) drawing =
      { drawing with
        nodes := (ids.foldl (Drawing.applyNode happyOnly exceptionNodes step) drawing).nodes
        lines := (ids.foldl (Drawing.applyNode happyOnly exceptionNodes step) drawing).lines } := by
  induction ids generalizing drawing with
  | nil => rfl
  | cons id ids ih => exact ih (drawing.applyNode happyOnly exceptionNodes step id)

/-- What a turn of the loop over the edges makes of the path of a data edge. -/
def changeEdge (edge : Edge) : EdgeElement → EdgeElement :=
  .apply (happyOnly && (decide (edge.fromId ∈ exceptionNodes) || decide (edge.toId ∈ exceptionNodes)))
    (decide (edge.key ∈ step.activeEdges)) (decide (edge.key ∈ step.completedEdges))

/-- A turn of the loop over the edges that does not throw. -/
def Drawing.paintEdge (edge : Edge) : Drawing :=
  if edge.structural then drawing
  else { drawing with
    edges := modifyAt drawing.edges edge.key (changeEdge happyOnly exceptionNodes step edge) }

theorem edges_foldl_paintEdge (edges : List Edge) :
    (edges.foldl (Drawing.paintEdge happyOnly exceptionNodes step) drawing).edges =
      edges.foldl (fun elements edge => if !edge.structural then
        modifyAt elements edge.key (changeEdge happyOnly exceptionNodes step edge) else elements)
        drawing.edges := by
  refine (List.foldl_hom Drawing.edges fun other edge => ?_).symm
  rw [Drawing.paintEdge]
  cases edge.structural with
  | true => rfl
  | false => rfl

/-- The loop over the edges leaves all other elements as they are. -/
theorem foldl_paintEdge_eq (edges : List Edge) :
    edges.foldl (Drawing.paintEdge happyOnly exceptionNodes step) drawing =
      { drawing with
        edges := (edges.foldl (Drawing.paintEdge happyOnly exceptionNodes step) drawing).edges } := by
  induction edges generalizing drawing with
  | nil => rfl
  | cons edge edges ih =>
      rw [List.foldl_cons, ih]
      rw [Drawing.paintEdge]
      cases edge.structural with
      | true => rfl
      | false => rfl

/-- There is a path for the edge, and it is painted. -/
def Drawing.paints (edge : Edge) : Bool := !edge.structural && (drawing.edges edge.key).isSome

/-- A turn over an edge that has no path or is structural changes nothing. -/
theorem Drawing.paintEdge_of_not_paints {edge : Edge} (h : drawing.paints edge = false) :
    drawing.paintEdge happyOnly exceptionNodes step edge = drawing := by
  rw [Drawing.paintEdge]
  cases hstructural : edge.structural with
  | true => rfl
  | false =>
      rw [Drawing.paints, hstructural, Bool.not_false, Bool.true_and, Option.isSome_eq_false_iff,
        Option.isNone_iff_eq_none] at h
      have hsame : modifyAt drawing.edges edge.key (changeEdge happyOnly exceptionNodes step edge) =
          drawing.edges := by
        rw [modifyAt, h, Option.map_none, ← h, Function.update_eq_self]
      rw [if_neg Bool.false_ne_true, hsame]

/-- A turn throws over a path that is painted if the active edges have no method `has`. -/
theorem Drawing.applyEdge_eq (edge : Edge) :
    drawing.applyEdge happyOnly exceptionNodes step edge =
      if drawing.paints edge = true ∧ step.activeEdges.has edge.key = none then .error drawing
      else .ok (drawing.paintEdge happyOnly exceptionNodes step edge) := by
  cases hpaints : drawing.paints edge with
  | false =>
      rw [if_neg fun h => Bool.false_ne_true h.1, drawing.paintEdge_of_not_paints _ _ _ hpaints,
        Drawing.applyEdge]
      cases hpath : drawing.edges edge.key with
      | none => rfl
      | some element =>
          rw [Drawing.paints, hpath, Option.isSome_some, Bool.and_true, Bool.not_eq_false'] at hpaints
          rw [hpaints]
          rfl
  | true =>
      obtain ⟨hdata, hpath⟩ := Bool.and_eq_true_iff.mp hpaints
      obtain ⟨element, helement⟩ := Option.isSome_iff_exists.mp hpath
      have hstructural : edge.structural = false := by simpa using hdata
      rw [Drawing.applyEdge, Drawing.paintEdge, helement, hstructural, changeEdge]
      cases hkeys : step.activeEdges with
      | array keys => rfl
      | set keys => rfl

variable {step}

/-- If the active edges are a set no turn throws. -/
theorem foldlM_applyEdge_of_set {keys : List EdgeKey} (h : step.activeEdges = .set keys)
    (edges : List Edge) :
    edges.foldlM (Drawing.applyEdge happyOnly exceptionNodes step) drawing =
      .ok (edges.foldl (Drawing.paintEdge happyOnly exceptionNodes step) drawing) := by
  induction edges generalizing drawing with
  | nil => rfl
  | cons edge edges ih =>
      have hnot : ¬ (drawing.paints edge = true ∧ step.activeEdges.has edge.key = none) := by
        rw [h]
        exact fun hboth => Option.some_ne_none _ hboth.2
      rw [List.foldlM_cons, Drawing.applyEdge_eq, if_neg hnot, List.foldl_cons]
      exact ih _

/-- If they are an array, the first path that is painted makes the loop throw, and the turns
before it change nothing. -/
theorem foldlM_applyEdge_of_array {keys : List EdgeKey} (h : step.activeEdges = .array keys)
    (edges : List Edge) :
    edges.foldlM (Drawing.applyEdge happyOnly exceptionNodes step) drawing =
      if edges.any drawing.paints then .error drawing
      else .ok (edges.foldl (Drawing.paintEdge happyOnly exceptionNodes step) drawing) := by
  induction edges with
  | nil => rfl
  | cons edge edges ih =>
      rw [List.foldlM_cons, Drawing.applyEdge_eq, h, List.any_cons, List.foldl_cons]
      cases hpaints : drawing.paints edge with
      | true => rfl
      | false =>
          rw [if_neg fun hboth => Bool.false_ne_true hboth.1, Bool.false_or,
            drawing.paintEdge_of_not_paints _ _ _ hpaints]
          exact ih

end Loops

/-! ## What is painted -/

section Paint

variable (page : Page) (step : Step) (drawing : Drawing)

/-- What the loop over the nodes makes of the elements. -/
def Page.paintNodes : Drawing :=
  page.nodes.ids.foldl (Drawing.applyNode page.happyPath page.exceptionNodes step) drawing

/-- What `applyStep` makes of the elements if it does not throw. -/
def Page.paint : Drawing :=
  let painted := page.edges.foldl
    (Drawing.paintEdge page.happyPath page.exceptionNodes step) (page.paintNodes step drawing)
  { painted with
    javaLines := ((step.javaLines.getD []).filter painted.hasJavaLine).foldl addTo []
    info := some ⟨page.currentStep, page.steps.length - 1, step.name, step.desc⟩ }

theorem nodes_paint :
    (page.paint step drawing).nodes = page.nodes.ids.foldl (fun elements id => modifyAt elements id
      (.apply (nodeStatus page.happyPath page.exceptionNodes step id) (step.values id)))
      drawing.nodes := by
  rw [Page.paint]
  dsimp only
  rw [foldl_paintEdge_eq]
  exact nodes_foldl_applyNode _ _ _ _ _

theorem lines_paint :
    (page.paint step drawing).lines = page.nodes.ids.foldl (fun lines id => modifyAt lines id
      fun _ => (nodeStatus page.happyPath page.exceptionNodes step id).line) drawing.lines := by
  rw [Page.paint]
  dsimp only
  rw [foldl_paintEdge_eq]
  exact lines_foldl_applyNode _ _ _ _ _

theorem edges_paint :
    (page.paint step drawing).edges = page.edges.foldl (fun elements edge => if !edge.structural then
        modifyAt elements edge.key (changeEdge page.happyPath page.exceptionNodes step edge)
        else elements) drawing.edges := by
  rw [Page.paint]
  dsimp only
  rw [edges_foldl_paintEdge, Page.paintNodes, foldl_applyNode_eq]

theorem javaLineCount_paint :
    (page.paint step drawing).javaLineCount = drawing.javaLineCount := by
  rw [Page.paint]
  dsimp only
  rw [foldl_paintEdge_eq, Page.paintNodes, foldl_applyNode_eq]

theorem javaLines_paint :
    (page.paint step drawing).javaLines =
      ((step.javaLines.getD []).filter drawing.hasJavaLine).foldl addTo [] := by
  rw [Page.paint]
  dsimp only
  rw [foldl_paintEdge_eq, Page.paintNodes, foldl_applyNode_eq]
  rfl

theorem info_paint :
    (page.paint step drawing).info =
      some ⟨page.currentStep, page.steps.length - 1, step.name, step.desc⟩ := rfl

variable {page step drawing}

/-! ## What a throw leaves out -/

theorem nodes_paintNodes :
    (page.paintNodes step drawing).nodes = (page.paint step drawing).nodes := by
  rw [nodes_paint, Page.paintNodes, nodes_foldl_applyNode]

theorem lines_paintNodes :
    (page.paintNodes step drawing).lines = (page.paint step drawing).lines := by
  rw [lines_paint, Page.paintNodes, lines_foldl_applyNode]

theorem paintNodes_eq :
    page.paintNodes step drawing =
      { drawing with
        nodes := (page.paint step drawing).nodes
        lines := (page.paint step drawing).lines } := by
  rw [← nodes_paintNodes, ← lines_paintNodes, Page.paintNodes]
  exact foldl_applyNode_eq _ _ _ _ _

theorem Page.applyStep_of_set {keys : List EdgeKey} (h : step.activeEdges = .set keys)
    (hsearching : page.searching = false) :
    page.applyStep (some step) = .ok { page with drawing := page.paint step page.drawing } := by
  rw [Page.applyStep, if_neg (by rw [hsearching]; decide)]
  dsimp only
  rw [foldlM_applyEdge_of_set _ _ _ h]
  rfl

theorem Page.applyStep_of_array {keys : List EdgeKey} (h : step.activeEdges = .array keys)
    (hsearching : page.searching = false) :
    page.applyStep (some step) =
      if page.edges.any page.drawing.paints then
        .error { page with drawing := page.paintNodes step page.drawing }
      else .ok { page with drawing := page.paint step page.drawing } := by
  have hpaints : (page.nodes.ids.foldl (Drawing.applyNode page.happyPath page.exceptionNodes step)
      page.drawing).paints = page.drawing.paints := by
    rw [foldl_applyNode_eq]
    rfl
  rw [Page.applyStep, if_neg (by rw [hsearching]; decide)]
  dsimp only
  rw [foldlM_applyEdge_of_array _ _ _ h, hpaints]
  split_ifs <;> rfl

/-! ## What is painted of one element -/

theorem nodes_paint_of_mem {id : NodeId} (hid : id ∈ page.nodes.ids) :
    (page.paint step drawing).nodes id = (drawing.nodes id).map
      (.apply (nodeStatus page.happyPath page.exceptionNodes step id) (step.values id)) := by
  rw [nodes_paint]
  exact (actsAt_modifyAt (fun id => id) _).foldl_of_mem
    ((List.map_id _).symm ▸ page.nodes.nodup_ids) hid _

theorem nodes_paint_of_notMem {id : NodeId} (hid : id ∉ page.nodes.ids) :
    (page.paint step drawing).nodes id = drawing.nodes id := by
  rw [nodes_paint]
  exact (actsAt_modifyAt (fun id => id) _).foldl_of_notMem
    (by rwa [List.map_id']) _

theorem lines_paint_of_mem {id : NodeId} (hid : id ∈ page.nodes.ids) :
    (page.paint step drawing).lines id = (drawing.lines id).map
      fun _ => (nodeStatus page.happyPath page.exceptionNodes step id).line := by
  rw [lines_paint]
  exact (actsAt_modifyAt (fun id => id) fun id _ =>
    (nodeStatus page.happyPath page.exceptionNodes step id).line).foldl_of_mem
    ((List.map_id _).symm ▸ page.nodes.nodup_ids) hid _

theorem lines_paint_of_notMem {id : NodeId} (hid : id ∉ page.nodes.ids) :
    (page.paint step drawing).lines id = drawing.lines id := by
  rw [lines_paint]
  exact (actsAt_modifyAt (fun id => id) fun id _ =>
    (nodeStatus page.happyPath page.exceptionNodes step id).line).foldl_of_notMem
    (by rwa [List.map_id']) _

theorem edges_paint_of_mem (hnodup : (page.edges.map Edge.key).Nodup) {edge : Edge}
    (hedge : edge ∈ page.edges) :
    (page.paint step drawing).edges edge.key =
      if !edge.structural then (drawing.edges edge.key).map
        (changeEdge page.happyPath page.exceptionNodes step edge)
      else drawing.edges edge.key := by
  rw [edges_paint]
  exact ((actsAt_modifyAt Edge.key _).ite _).foldl_of_mem hnodup hedge _

theorem edges_paint_of_notMem {key : EdgeKey} (hkey : key ∉ page.edges.map Edge.key) :
    (page.paint step drawing).edges key = drawing.edges key := by
  rw [edges_paint]
  exact ((actsAt_modifyAt Edge.key _).ite _).foldl_of_notMem hkey _

end Paint

end Colata.Viewer
