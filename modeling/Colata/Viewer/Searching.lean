/-
# Searching the graph

A search marks the nodes that it finds and fades the others, while the values stay. Its marks
are painted over the current step, and they leave no trace: after any number of searches the
empty query brings back what was seen before the first.
-/

import Colata.Viewer.Shown

namespace Colata.Viewer

open Colata.IR Colata.Math

/-! ## The marks -/

theorem nodes_foldl_markNode (browser : Browser) (query : String) (nodes : List Node)
    (drawing : Drawing) :
    (nodes.foldl (Drawing.markNode browser query) drawing).nodes =
      nodes.foldl (fun elements node => modifyAt elements node.id
        (.mark (matchesQuery browser query node))) drawing.nodes :=
  (List.foldl_hom Drawing.nodes fun _ _ => rfl).symm

/-- What a search shows of a node: whether it is found, and nothing of the step but the value
that the step has computed. -/
structure NodeElement.Marked (found : Bool) (before after : NodeElement) : Prop where
  search : .search ∈ after.rect ↔ found = true
  searchDim : .searchDim ∈ after.rect ↔ found = false
  rect : ∀ cls ∈ after.rect, cls ∈ [.search, .searchDim, .exception]
  labels : .dim ∈ after.labels ↔ found = false
  value : after.value = before.value

theorem NodeElement.marked_mark (found : Bool) (element : NodeElement) :
    Marked found element (element.mark found) := by
  have hold : ∀ cls, cls ∈ removeAll [.active, .done, .dim, .search, .searchDim] element.rect →
      cls = .exception := by
    intro cls hcls
    have hnot := of_decide_eq_true (List.mem_filter.mp hcls).2
    cases cls with
    | exception => rfl
    | active | done | dim | search | searchDim => exact absurd (by decide) hnot
  have hlabels : LabelClass.dim ∉ removeAll [.active, .dim] element.labels := fun hmem =>
    absurd (by decide) (of_decide_eq_true (List.mem_filter.mp hmem).2)
  have hrect : ∀ cls, cls ∈ (element.mark found).rect ↔
      cls ∈ removeAll [.active, .done, .dim, .search, .searchDim] element.rect ∨
        cls = if found then .search else .searchDim := fun cls => mem_addTo
  refine ⟨?_, ?_, fun cls hcls => ?_, ?_, rfl⟩
  · rw [hrect, or_iff_right fun hmem => by cases hold _ hmem]
    cases found with
    | true => decide
    | false => decide
  · rw [hrect, or_iff_right fun hmem => by cases hold _ hmem]
    cases found with
    | true => decide
    | false => decide
  · rcases (hrect cls).mp hcls with hmem | rfl
    · rw [hold cls hmem]
      decide
    · cases found with
      | true => decide
      | false => decide
  · cases found with
    | true => exact iff_of_false hlabels (by decide)
    | false => exact iff_of_true (mem_addTo.mpr (Or.inr rfl)) rfl

/-! ## The handler of the search field -/

theorem Page.SameState.refl (page : Page) : page.SameState page := ⟨rfl, rfl, rfl, rfl, rfl⟩

theorem Page.SameState.trans {first second third : Page} (h : first.SameState second)
    (h' : second.SameState third) : first.SameState third :=
  ⟨h.nodes.trans h'.nodes, h.happyPath.trans h'.happyPath, h.paramValues.trans h'.paramValues,
    h.currentStep.trans h'.currentStep, h.javaLineCount.trans h'.javaLineCount⟩

theorem Page.NodesOnly.trans {first second third : Page} (h : first.NodesOnly second)
    (h' : second.NodesOnly third) : first.NodesOnly third :=
  ⟨h'.edges.trans h.edges, h'.javaLines.trans h.javaLines, h'.info.trans h.info,
    h'.buttons.trans h.buttons⟩

/-- What a search leaves of the page it was typed into. -/
structure Page.Searched (browser : Browser) (before after : Page) : Prop where
  valid : after.Valid browser
  state : after.SameState before
  nodesOnly : before.Stuck browser → before.NodesOnly after

section Searched

variable {browser : Browser} {page : Page}

theorem Page.Valid.handle_search (h : page.Valid browser) (query : String) :
    page.Searched browser (stateLeft (page.handle browser (.search query))) ∧
      (stateLeft (page.handle browser (.search query))).searching = decide (query ≠ "") := by
  rw [Page.handle]
  by_cases hquery : query = ""
  · subst hquery
    obtain ⟨next, hends⟩ := (h.searched "").clearSearch
    rw [hends.outcome, Page.stateLeft_outcome]
    have hsearching : next.searching = false := by rw [hends.frame]
    have hstate : next.SameState page :=
      ⟨by rw [hends.frame], by rw [hends.frame], by rw [hends.frame], by rw [hends.frame],
        hends.javaLineCount⟩
    refine ⟨⟨hends.valid, hstate, fun hstuck => ?_⟩, hsearching⟩
    obtain ⟨hedges, hjava, hinfo, hbuttons⟩ :=
      hends.throws hsearching ((hstate.stuck_iff hends.valid.built h.built).mpr hstuck)
    exact ⟨hedges, hjava, hinfo, hbuttons⟩
  · obtain ⟨next, hnext, hvalid, hframe, hdrawing⟩ := (h.searched query).doSearch hquery
    rw [hnext, stateLeft_ok]
    have hstate : next.SameState page :=
      ⟨by rw [hframe], by rw [hframe], by rw [hframe], by rw [hframe], by rw [hdrawing]⟩
    have honly : page.NodesOnly next :=
      ⟨by rw [hdrawing], by rw [hdrawing], by rw [hdrawing], by rw [hframe]⟩
    exact ⟨⟨hvalid, hstate, fun _ => honly⟩, by rw [hframe]; simp [hquery]⟩

theorem Page.Searched.trans {first second third : Page} (hvalid : first.Valid browser)
    (h : first.Searched browser second) (h' : second.Searched browser third) :
    first.Searched browser third where
  valid := h'.valid
  state := h'.state.trans h.state
  nodesOnly := fun hstuck => (h.nodesOnly hstuck).trans
    (h'.nodesOnly ((h.state.stuck_iff h.valid.built hvalid.built).mpr hstuck))

theorem Page.Valid.runFrom_search (h : page.Valid browser) (queries : List String) :
    page.Searched browser (runFrom (Page.handle browser) page (queries.map .search)) := by
  induction queries generalizing page with
  | nil => exact ⟨h, .refl page, fun _ => ⟨rfl, rfl, rfl, rfl⟩⟩
  | cons query queries ih =>
      obtain ⟨hsearched, _⟩ := h.handle_search query
      rw [List.map_cons, runFrom_cons]
      exact hsearched.trans h (ih hsearched.valid)

/-- Leaving the search shows again what was seen before it, also if painting throws: then
what the searches have painted over is painted, and the rest is as it was. -/
theorem Page.Searched.seen_eq {before after : Page} (hbefore : before.Valid browser)
    (h : before.Searched browser after) (hshown : before.searching = false)
    (hcleared : after.searching = false) : after.drawing.seen = before.drawing.seen := by
  by_cases hstuck : before.Stuck browser
  · obtain ⟨hnodes, hlines⟩ := h.state.nodes_seen_eq h.valid hbefore hcleared hshown
    obtain ⟨hedges, hjava, hinfo, _⟩ := h.nodesOnly hstuck
    rw [Drawing.seen, Drawing.seen, Drawing.mk.injEq]
    exact ⟨hnodes, hlines, hedges, h.state.javaLineCount, hjava, hinfo⟩
  · exact h.state.seen_eq h.valid hbefore hcleared hshown fun hthrows =>
      hstuck ((h.state.stuck_iff h.valid.built hbefore.built).mp hthrows)

end Searched

/-- After any searches the empty query brings back the page as it was before them. -/
theorem run_search_restores (browser : Browser) (irText javaText : String) (happyPath : Bool)
    (events : List Event) (queries : List String) :
    let before := run browser irText javaText happyPath events
    let after := run browser irText javaText happyPath
      (events ++ (queries.map .search ++ [.search ""]))
    after.searching = false ∧ after.SameState before ∧
      (before.searching = false → after.drawing.seen = before.drawing.seen) := by
  intro before after
  have hvalid : before.Valid browser := valid_run browser irText javaText happyPath events
  have hsearched := hvalid.runFrom_search queries
  obtain ⟨hlast, hcleared⟩ := hsearched.valid.handle_search ""
  have hafter : after = stateLeft ((runFrom (Page.handle browser) before
      (queries.map .search)).handle browser (.search "")) := by
    show run browser irText javaText happyPath (events ++ _) = _
    rw [run_append, runFrom_append]
    rfl
  rw [hafter]
  have hall := hsearched.trans hvalid hlast
  exact ⟨hcleared, hall.state, fun hshown => hall.seen_eq hvalid hshown hcleared⟩

end Colata.Viewer
