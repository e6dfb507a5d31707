/-
# The viewer page

`index.html` shows one step of the execution at a time. Its script keeps the parsed graph,
the steps and the current one in variables and paints them into elements of the page,
which a search paints over. The layout of the graph is not computed here: it decides
which elements there are, and their places are left out together with zooming.

A handler that throws leaves the page as it is at that moment, and the page goes on with the
next event.
-/

import Colata.IR.Exceptions
import Colata.IR.Params
import Colata.Math.Elements
import Colata.Math.Machine

namespace Colata.Viewer

open Colata.IR Colata.Math Colata.JavaScript

/-! ## The elements of the page -/

/-- The classes of the rectangle of a node. -/
inductive NodeClass
  | active
  | done
  | dim
  | exception
  | search
  | searchDim
  deriving DecidableEq

/-- The classes of the labels of a node. -/
inductive LabelClass
  | active
  | dim
  | exception
  deriving DecidableEq

/-- The classes of the path of an edge. -/
inductive EdgeClass
  | data
  | structural
  | active
  | done
  | dim
  | exception
  deriving DecidableEq

/-- The class of a line of the dump beside `ir-line`. -/
inductive LineClass
  | active
  | completed
  | dimmed
  deriving DecidableEq

/-- The arrow head that `marker-end` names. -/
inductive Marker
  | none
  | data
  | active
  | done
  deriving DecidableEq

inductive Fill
  | yellow
  | green
  deriving DecidableEq

/-- The text that shows the value of a node. -/
structure ValueElement where
  textContent : String
  displayed : Bool
  fill : Option Fill
  deriving DecidableEq

/-- What is drawn for a node. The labels for its type, its id and its sublabel are always
treated alike, so that their classes are the same. -/
structure NodeElement where
  rect : List NodeClass
  labels : List LabelClass
  value : ValueElement
  deriving DecidableEq

structure EdgeElement where
  classes : List EdgeClass
  marker : Marker
  deriving DecidableEq

/-- `Step number/last: name` and the description below. -/
structure StepInfo where
  number : ℤ
  last : ℤ
  name : String
  desc : String
  deriving DecidableEq

/-- The elements that the script paints, by the attributes with which it finds them. -/
structure Drawing where
  nodes : NodeId → Option NodeElement
  lines : NodeId → Option LineClass
  edges : EdgeKey → Option EdgeElement
  /-- How many lines of Java source there are. -/
  javaLineCount : ℕ
  /-- The lines of Java source that are active. -/
  javaLines : List Binary64
  info : Option StepInfo

def Drawing.empty : Drawing where
  nodes := fun _ => none
  lines := fun _ => none
  edges := fun _ => none
  javaLineCount := 0
  javaLines := []
  info := none

/-- `classList.remove(...)`. -/
def removeAll {α : Type} [DecidableEq α] (classes : List α) (classList : List α) : List α :=
  classList.filter (· ∉ classes)

/-! ## The page -/

/-- The library that lays the graph out: which nodes get a position and which edges get
points. -/
structure Layout where
  placed : NodeId → Bool
  routed : EdgeKey → Bool

/-- What the page uses of the browser and of the layout library. -/
structure Browser where
  layoutGraph : NodeTable → List Edge → Layout
  toLowerCase : String → String

/-- The field for the value of a parameter; its content counts as a number. -/
structure ParamInput where
  index : Binary64
  value : Binary64
  deriving DecidableEq

structure Buttons where
  firstDisabled : Bool
  prevDisabled : Bool
  nextDisabled : Bool
  lastDisabled : Bool
  deriving DecidableEq

structure Page where
  irText : String
  javaText : String
  /-- The box "Happy path only". -/
  happyPath : Bool
  searchText : String
  paramInputs : List ParamInput
  nodes : NodeTable
  edges : List Edge
  steps : List Step
  currentStep : ℤ
  detectedParams : List Param
  paramValues : ParamValues
  exceptionNodes : List NodeId
  searching : Bool
  playing : Bool
  playTimer : Option ℕ
  /-- The intervals that run, by their handles. -/
  timers : List ℕ
  /-- The handle that `setInterval` returns next. -/
  nextTimer : ℕ
  drawing : Drawing
  buttons : Buttons

/-- The page before its script draws anything. -/
def Page.blank (irText javaText : String) (happyPath : Bool) : Page where
  irText := irText
  javaText := javaText
  happyPath := happyPath
  searchText := ""
  paramInputs := []
  nodes := .empty
  edges := []
  steps := []
  currentStep := 0
  detectedParams := []
  paramValues := fun _ => none
  exceptionNodes := []
  searching := false
  playing := false
  playTimer := none
  timers := []
  nextTimer := 1
  drawing := .empty
  buttons := ⟨false, false, false, false⟩

/-! ## Painting a step -/

/-- What `applyStep` decides about a node. -/
structure NodeStatus where
  isExc : Bool
  isA : Bool
  isD : Bool
  deriving DecidableEq

def nodeStatus (happyOnly : Bool) (exceptionNodes : List NodeId) (step : Step) (id : NodeId) :
    NodeStatus :=
  let isExc := happyOnly && decide (id ∈ exceptionNodes)
  { isExc
    isA := !isExc && decide (id ∈ step.activeNodes)
    isD := !isExc && decide (id ∈ step.completedNodes) }

def NodeStatus.cls (status : NodeStatus) : NodeClass :=
  if status.isExc then .exception
  else if status.isA then .active
  else if status.isD then .done
  else .dim

/-- The classes that a label gets. -/
def NodeStatus.label (status : NodeStatus) : List LabelClass :=
  if status.isExc then [.exception]
  else if status.isA then [.active]
  else if !status.isD then [.dim]
  else []

def NodeStatus.line (status : NodeStatus) : LineClass :=
  if status.isA then .active else if status.isD then .completed else .dimmed

def ValueElement.apply (isA : Bool) (value : Option Value) (element : ValueElement) :
    ValueElement :=
  match value with
  | some v =>
      { textContent := v.text, displayed := true, fill := some (if isA then .yellow else .green) }
  | none => { element with displayed := false }

def NodeElement.apply (status : NodeStatus) (value : Option Value) (element : NodeElement) :
    NodeElement where
  rect := addTo
    (removeAll [.active, .done, .dim, .exception, .search, .searchDim] element.rect) status.cls
  labels := status.label.foldl addTo (removeAll [.active, .dim, .exception] element.labels)
  value := element.value.apply status.isA value

/-- One turn of the loop over the nodes. -/
def Drawing.applyNode (happyOnly : Bool) (exceptionNodes : List NodeId) (step : Step)
    (drawing : Drawing) (id : NodeId) : Drawing :=
  let status := nodeStatus happyOnly exceptionNodes step id
  { drawing with
    nodes := modifyAt drawing.nodes id (.apply status (step.values id))
    lines := modifyAt drawing.lines id fun _ => status.line }

/-- What `applyStep` makes of the path of a data edge. -/
def EdgeElement.apply (isExcEdge isA isD : Bool) (element : EdgeElement) : EdgeElement :=
  let classes := removeAll [.active, .done, .dim, .exception, .data] element.classes
  if isExcEdge then ⟨addTo classes .exception, .none⟩
  else if isA then ⟨addTo classes .active, .active⟩
  else if isD then ⟨addTo classes .done, .done⟩
  else ⟨addTo classes .dim, .data⟩

/-- One turn of the loop over the edges, which throws if `activeEdges` is not a `Set`. -/
def Drawing.applyEdge (happyOnly : Bool) (exceptionNodes : List NodeId) (step : Step)
    (drawing : Drawing) (edge : Edge) : Except Drawing Drawing :=
  match drawing.edges edge.key with
  | none => .ok drawing
  | some _ =>
      if edge.structural then .ok drawing
      else
        let isExcEdge := happyOnly &&
          (decide (edge.fromId ∈ exceptionNodes) || decide (edge.toId ∈ exceptionNodes))
        match step.activeEdges.has edge.key with
        | none => .error drawing
        | some isA => .ok { drawing with
            edges := modifyAt drawing.edges edge.key
              (.apply isExcEdge isA (decide (edge.key ∈ step.completedEdges))) }

/-- Whether there is a line of Java source with this number. -/
def Drawing.hasJavaLine (drawing : Drawing) (number : Binary64) : Bool :=
  (List.range drawing.javaLineCount).any fun i => Binary64.ofNat (i + 1) = number

/-- `applyStep` also throws if there is no step. -/
def Page.applyStep (page : Page) (step : Option Step) : Except Page Page :=
  if page.searching then .ok page
  else
    match step with
    | none => .error page
    | some step =>
        let painted := page.nodes.ids.foldl
          (Drawing.applyNode page.happyPath page.exceptionNodes step) page.drawing
        match page.edges.foldlM
            (Drawing.applyEdge page.happyPath page.exceptionNodes step) painted with
        | .error painted => .error { page with drawing := painted }
        | .ok painted => .ok { page with
            drawing := { painted with
              javaLines := ((step.javaLines.getD []).filter painted.hasJavaLine).foldl addTo []
              info := some ⟨page.currentStep, page.steps.length - 1, step.name, step.desc⟩ } }

/-- `_steps[_currentStep]`. -/
def Page.step? (page : Page) : Option Step :=
  if page.currentStep < 0 then none else page.steps[page.currentStep.toNat]?

def Page.updateButtons (page : Page) : Page :=
  let atStart := decide (page.currentStep = 0)
  let atEnd := decide (page.currentStep = page.steps.length - 1)
  { page with buttons := ⟨atStart, atStart, atEnd, atEnd⟩ }

/-! ## Moving through the steps -/

def Page.goToStep (page : Page) (n : ℤ) : Except Page Page := do
  let moved :=
    { page with
      currentStep := max 0 (min (page.steps.length - 1) n)
      searching := false
      searchText := "" }
  let painted ← moved.applyStep moved.step?
  .ok painted.updateButtons

def Page.togglePlay (page : Page) : Page :=
  if page.playing then
    { page with
      timers := page.timers.filter fun timer => some timer ≠ page.playTimer
      playing := false }
  else
    { page with
      playing := true
      timers := page.timers ++ [page.nextTimer]
      playTimer := some page.nextTimer
      nextTimer := page.nextTimer + 1 }

/-- The function that the interval calls. -/
def Page.playOn (page : Page) : Except Page Page :=
  if page.currentStep ≥ page.steps.length - 1 then .ok page.togglePlay
  else page.goToStep (page.currentStep + 1)

/-! ## Searching -/

/-- `text.includes(part)`. -/
def includes (text part : String) : Bool := decide (part.toList <:+: text.toList)

def matchesQuery (browser : Browser) (query : String) (node : Node) : Bool :=
  let q := browser.toLowerCase query
  idText node.id = query || includes (browser.toLowerCase node.type) q ||
    (node.sublabel ≠ "" && includes (browser.toLowerCase node.sublabel) q) ||
    (node.extra ≠ "" && includes (browser.toLowerCase node.extra) q)

/-- What a search makes of what is drawn for a node. -/
def NodeElement.mark (found : Bool) (element : NodeElement) : NodeElement :=
  let labels := removeAll [.active, .dim] element.labels
  { element with
    rect := addTo (removeAll [.active, .done, .dim, .search, .searchDim] element.rect)
      (if found then .search else .searchDim)
    labels := if found then labels else addTo labels .dim }

/-- One turn of the loop over the nodes. -/
def Drawing.markNode (browser : Browser) (query : String) (drawing : Drawing) (node : Node) :
    Drawing :=
  { drawing with
    nodes := modifyAt drawing.nodes node.id (.mark (matchesQuery browser query node)) }

def Page.doSearch (browser : Browser) (page : Page) (query : String) : Except Page Page :=
  if query = "" then
    let cleared := { page with searching := false }
    cleared.applyStep cleared.step?
  else
    .ok { page with
      searching := true
      drawing := page.nodes.nodes.foldl (Drawing.markNode browser query) page.drawing }

/-! ## Building the steps -/

/-- The levels that the steps run over. -/
def Page.levels (page : Page) : List (List NodeId) :=
  let levels := topoLevels page.nodes page.edges
  if page.happyPath && !page.exceptionNodes.isEmpty then filterLevels levels page.exceptionNodes
  else levels

/-- The number in the first field for an index. -/
def Page.inputFor (page : Page) (index : Binary64) : Option Binary64 :=
  (page.paramInputs.find? fun input => input.index = index).map ParamInput.value

/-- Take the value of a parameter over from its field. -/
def Page.collect (page : Page) (values : ParamValues) (param : Param) : ParamValues :=
  match page.inputFor param.index with
  | some value => Function.update values param.index (some (.num value))
  | none => values

def Page.rebuildSteps (page : Page) : Except Page Page := do
  let collected := { page with
    paramValues := page.detectedParams.foldl page.collect page.paramValues }
  let steps ← (buildSteps collected.nodes collected.edges collected.levels
    collected.paramValues).elim (.error collected) .ok
  let rebuilt := { collected with
    steps
    currentStep := min page.currentStep (steps.length - 1) }
  let painted ← rebuilt.applyStep rebuilt.step?
  .ok painted.updateButtons

/-! ## Drawing the graph -/

/-- What `renderGraph` draws for a node. -/
def NodeElement.fresh : NodeElement := ⟨[], [], ⟨"", false, none⟩⟩

/-- What `renderGraph` draws for an edge. -/
def EdgeElement.fresh (edge : Edge) : EdgeElement :=
  if edge.structural then ⟨[.structural], .none⟩ else ⟨[.data], .data⟩

/-- One turn of the loop over the edges. -/
def renderEdge (layout : Layout) (elements : EdgeKey → Option EdgeElement) (edge : Edge) :
    EdgeKey → Option EdgeElement :=
  if layout.routed edge.key || (layout.placed edge.fromId && layout.placed edge.toId) then
    Function.update elements edge.key (some (.fresh edge))
  else elements

/-- One turn of the loop over the nodes. -/
def renderNode (layout : Layout) (elements : NodeId → Option NodeElement) (node : Node) :
    NodeId → Option NodeElement :=
  if layout.placed node.id then Function.update elements node.id (some .fresh) else elements

/-- The lines of Java source, of which there are none if the text is blank. -/
def countJavaLines (javaText : String) : ℕ :=
  let src := trim javaText.toList
  if src = [] then 0 else (src.splitOn '\n').length

/-- `renderGraph`, `renderIRSource` and `renderJavaSource`; the information on the step
stays. -/
def Page.render (browser : Browser) (page : Page) : Drawing :=
  let layout := browser.layoutGraph page.nodes page.edges
  { nodes := page.nodes.nodes.foldl (renderNode layout) fun _ => none
    lines := page.nodes.nodes.foldl
      (fun lines node => Function.update lines node.id (some .dimmed)) fun _ => none
    edges := page.edges.foldl (renderEdge layout) fun _ => none
    javaLineCount := countJavaLines page.javaText
    javaLines := []
    info := page.drawing.info }

/-- The value of parameter number `i` of the list. -/
def defaultValue (i : ℕ) : Binary64 := Binary64.ofNat ((i + 1) * 42)

def defaultValues (params : List Param) : ParamValues :=
  params.zipIdx.foldl
    (fun values entry => Function.update values entry.1.index (some (.num (defaultValue entry.2))))
    fun _ => none

/-- The field that `renderParamsUI` makes for a parameter. -/
def paramInput (values : ParamValues) (param : Param) : ParamInput where
  index := param.index
  value :=
    match values param.index with
    | some (.num value) => value
    | _ => param.index * 42 + 42

def Page.visualize (browser : Browser) (page : Page) : Except Page Page := do
  let nodes := parseIR page.irText
  let edges := buildEdges nodes
  let detectedParams := detectParams nodes
  let parsed := { page with
    nodes, edges, detectedParams
    exceptionNodes := classifyExceptionNodes nodes edges
    paramValues := defaultValues detectedParams }
  let steps ← (buildSteps nodes edges parsed.levels parsed.paramValues).elim (.error parsed) .ok
  let built := { parsed with steps, currentStep := 0 }
  let drawn := { built with
    drawing := built.render browser
    paramInputs := detectedParams.map (paramInput built.paramValues) }
  let painted ← drawn.applyStep steps[0]?
  .ok painted.updateButtons

/-! ## Events -/

inductive Event
  /-- The text of the dump is edited. -/
  | editIR (text : String)
  | editJava (text : String)
  /-- The button or Ctrl+Enter. -/
  | visualize
  /-- The buttons and keys that move through the steps. -/
  | first
  | prev
  | next
  | last
  | play
  /-- An interval fires. -/
  | tick (timer : ℕ)
  /-- The number in the field at a position is edited. -/
  | typeParam (position : ℕ) (value : Binary64)
  /-- The field is left, or Enter is pressed in it. -/
  | changeParam (position : ℕ)
  | search (query : String)
  | toggleHappyPath

/-- The handler of a changed field, for the parameter it was made for. -/
def Page.changeParam (page : Page) (position : ℕ) : Except Page Page :=
  match page.paramInputs[position]? with
  | some input =>
      { page with
        paramValues :=
          Function.update page.paramValues input.index (some (.num input.value)) }.rebuildSteps
  | none => .ok page

def Page.handle (browser : Browser) (page : Page) : Event → Except Page Page
  | .editIR text => .ok { page with irText := text }
  | .editJava text => .ok { page with javaText := text }
  | .visualize => page.visualize browser
  | .first => page.goToStep 0
  | .prev => page.goToStep (page.currentStep - 1)
  | .next => page.goToStep (page.currentStep + 1)
  | .last => page.goToStep (page.steps.length - 1)
  | .play => .ok page.togglePlay
  | .tick timer => if timer ∈ page.timers then page.playOn else .ok page
  | .typeParam position value => .ok { page with
      paramInputs := page.paramInputs.modify position fun input => { input with value } }
  | .changeParam position => page.changeParam position
  | .search query => { page with searchText := query }.doSearch browser query
  | .toggleHappyPath => { page with happyPath := !page.happyPath }.rebuildSteps

/-- Load the page, which draws the dump in its text area, and handle events. -/
def run (browser : Browser) (irText javaText : String) (happyPath : Bool) (events : List Event) :
    Page :=
  runFrom (Page.handle browser)
    (stateLeft ((Page.blank irText javaText happyPath).visualize browser)) events

end Colata.Viewer
