/-
# The value of a return

Three index spaces meet in the value of a `Return` node: `parseIR` counts slots when it
meets `returns`, the value list has one entry for each slot, and without the keyword the
index is counted among the inputs that are not placeholders. They agree for some input
lists only, and for the others there is a dump in which the wrong value is shown. And
where a loop leads to the printed input, that may be evaluated after the `Return`, whose
value then lacks it.
-/

import Colata.IR.StepValues
import Colata.IR.LevelOrder
import Colata.IR.Dump

namespace Colata.IR

open Colata.Math Colata.JavaScript

/-! ## The printed inputs -/

/-- The tokens of the input list that the node was read from. -/
def Node.inputTokens (node : Node) : List (List Char) :=
  match Regex.matchStart linePattern node.line.toList with
  | some found => splitSpaces (trim ((found.captured 3).getD []))
  | none => []

/-- The slot of a token: a placeholder, an id, or none for any other token. -/
def slotOf (token : List Char) : Option (Option NodeId) :=
  if token = "_".toList then some none
  else if isNumeral token then some (some (toNumber token))
  else none

def slots (tokens : List (List Char)) : List (Option NodeId) := tokens.filterMap slotOf

/-- The slots behind the first `returns`. -/
def slotsAfterReturns (tokens : List (List Char)) : List (Option NodeId) :=
  slots (tokens.dropWhile (· ≠ "returns".toList))

/-- The input that is the returned one: the one printed right after `returns`, and without
the keyword the last one that is not a placeholder. -/
def printedInput (tokens : List (List Char)) : Option (Option NodeId) :=
  if tokens.contains "returns".toList then (slotsAfterReturns tokens).head?
  else (slots tokens).reduceOption.getLast?.map some

/-- The slot with the number that the last id has among the ids. -/
def lastIdSlot (tokens : List (List Char)) : Option NodeId :=
  (slots tokens)[(slots tokens).reduceOption.length - 1]?.join

/-! ## The scan -/

theorem slots_cons (token : List Char) (tokens : List (List Char)) :
    slots (token :: tokens) = (slotOf token).toList ++ slots tokens := by
  rw [slots, List.filterMap_cons]
  cases slotOf token <;> rfl

theorem slotOf_returns : slotOf "returns".toList = none := by decide

theorem step_returns (scan : InputScan) :
    scan.step "returns".toList = { scan with afterReturns := true } := if_pos rfl

/-- What one turn does with another token depends on its slot. -/
theorem step_of_ne (scan : InputScan) {token : List Char} (h : token ≠ "returns".toList) :
    scan.step token =
      match slotOf token with
      | none => scan
      | some none => { scan with inputs := scan.inputs ++ [none] }
      | some (some id) =>
          { scan with
            returnValIdx :=
              if scan.afterReturns ∧ scan.returnValIdx < 0 then scan.inputs.length
              else scan.returnValIdx
            inputs := scan.inputs ++ [some id] } := by
  rw [InputScan.step, if_neg h, slotOf]
  split_ifs <;> rfl

theorem inputs_step (scan : InputScan) (token : List Char) :
    (scan.step token).inputs = scan.inputs ++ (slotOf token).toList := by
  by_cases hreturns : token = "returns".toList
  · rw [hreturns, step_returns, slotOf_returns, Option.toList_none, List.append_nil]
  · rw [step_of_ne scan hreturns]
    match slotOf token with
    | none => exact (List.append_nil _).symm
    | some none => rfl
    | some (some id) => rfl

theorem inputs_foldl (scan : InputScan) (tokens : List (List Char)) :
    (tokens.foldl InputScan.step scan).inputs = scan.inputs ++ slots tokens := by
  induction tokens generalizing scan with
  | nil => exact (List.append_nil _).symm
  | cons token tokens ih =>
    rw [List.foldl_cons, ih, inputs_step, slots_cons, List.append_assoc]

section Index

variable (scan : InputScan) {tokens : List (List Char)}

/-- Before the keyword no index is taken. -/
theorem foldl_of_notMem (h : "returns".toList ∉ tokens) (hscan : scan.afterReturns = false) :
    (tokens.foldl InputScan.step scan).afterReturns = false ∧
      (tokens.foldl InputScan.step scan).returnValIdx = scan.returnValIdx := by
  induction tokens generalizing scan with
  | nil => exact ⟨hscan, rfl⟩
  | cons token tokens ih =>
    rw [List.mem_cons, not_or] at h
    have hstep : (scan.step token).afterReturns = false ∧
        (scan.step token).returnValIdx = scan.returnValIdx := by
      rw [step_of_ne scan (Ne.symm h.1)]
      match slotOf token with
      | none => exact ⟨hscan, rfl⟩
      | some none => exact ⟨hscan, rfl⟩
      | some (some id) => exact ⟨hscan, by simp [hscan]⟩
    rw [List.foldl_cons, ← hstep.2]
    exact ih (scan.step token) h.2 hstep.1

/-- An index that is taken stays. -/
theorem foldl_of_nonneg (h : 0 ≤ scan.returnValIdx) :
    (tokens.foldl InputScan.step scan).returnValIdx = scan.returnValIdx := by
  induction tokens generalizing scan with
  | nil => rfl
  | cons token tokens ih =>
    have hstep : (scan.step token).returnValIdx = scan.returnValIdx := by
      by_cases hreturns : token = "returns".toList
      · rw [hreturns, step_returns]
      · rw [step_of_ne scan hreturns]
        match slotOf token with
        | none => rfl
        | some none => rfl
        | some (some id) => exact if_neg fun hnegative => absurd h hnegative.2.not_ge
    rw [List.foldl_cons, ih (scan.step token) (hstep ▸ h), hstep]

/-- Behind the keyword the index of the first id is taken. -/
theorem foldl_of_afterReturns (hscan : scan.afterReturns = true)
    (hindex : scan.returnValIdx = -1) :
    (tokens.foldl InputScan.step scan).returnValIdx =
      match (slots tokens).findIdx? Option.isSome with
      | some index => ((scan.inputs.length + index : ℕ) : ℤ)
      | none => -1 := by
  induction tokens generalizing scan with
  | nil => exact hindex
  | cons token tokens ih =>
    rw [List.foldl_cons, slots_cons]
    by_cases hreturns : token = "returns".toList
    · rw [hreturns, step_returns, slotOf_returns]
      exact ih { scan with afterReturns := true } rfl hindex
    · rw [step_of_ne scan hreturns]
      match slotOf token with
      | none => exact ih scan hscan hindex
      | some none =>
        refine (ih { scan with inputs := scan.inputs ++ [none] } hscan hindex).trans ?_
        rw [Option.toList_some, List.singleton_append, List.findIdx?_cons]
        cases (slots tokens).findIdx? Option.isSome with
        | none => rfl
        | some index => simp [Nat.add_assoc, Nat.add_comm 1]
      | some (some id) =>
        dsimp only
        rw [hindex, if_pos ⟨hscan, by decide⟩, foldl_of_nonneg _ (Int.natCast_nonneg _)]
        rfl

end Index

/-- The index that the scan takes is that of the first id behind the keyword. -/
theorem returnValIdx_scanInputs (tokens : List (List Char)) :
    (scanInputs tokens).returnValIdx =
      match (slotsAfterReturns tokens).findIdx? Option.isSome with
      | some index =>
          (((slots (tokens.takeWhile (· ≠ "returns".toList))).length + index : ℕ) : ℤ)
      | none => -1 := by
  have hsplit := List.takeWhile_append_dropWhile (p := (· ≠ "returns".toList)) (l := tokens)
  have hfront : "returns".toList ∉ tokens.takeWhile (· ≠ "returns".toList) := fun hmem =>
    absurd (List.mem_takeWhile_imp hmem) (by decide)
  obtain ⟨hafter, hindex⟩ := foldl_of_notMem .initial hfront rfl
  have hinputs := inputs_foldl .initial (tokens.takeWhile (· ≠ "returns".toList))
  rw [slotsAfterReturns, scanInputs]
  conv_lhs => rw [← hsplit, List.foldl_append]
  cases hback : tokens.dropWhile (· ≠ "returns".toList) with
  | nil => exact hindex
  | cons keyword back =>
    have hkeyword : keyword = "returns".toList := by
      have hhead := List.head?_dropWhile_not (· ≠ "returns".toList) tokens
      rw [hback] at hhead
      exact Decidable.not_not.mp (of_decide_eq_false hhead)
    rw [hkeyword, List.foldl_cons, step_returns, slots_cons, slotOf_returns]
    generalize (tokens.takeWhile (· ≠ "returns".toList)).foldl InputScan.step .initial = scan at *
    refine (foldl_of_afterReturns { scan with afterReturns := true } rfl hindex).trans ?_
    dsimp only
    rw [hinputs]
    rfl

/-! ## The slot that is read -/

/-- The slot that the value is taken from: that of the first id behind the keyword, and
without such an id the slot with the number of the last id. -/
def readSlot (tokens : List (List Char)) : Option NodeId :=
  ((slotsAfterReturns tokens).findSome? id).or (lastIdSlot tokens)

/-- The text of a `Return` node for a value. -/
def retValue : Option Value → Value
  | some rv => .str ("ret " ++ rv.text)
  | none => .str "ret ?"

theorem getElem?_of_findIdx? {list : List (Option NodeId)} {index : ℕ}
    (h : list.findIdx? Option.isSome = some index) :
    ∃ source, list[index]? = some (some source) ∧ list.findSome? id = some source := by
  induction list generalizing index with
  | nil => cases h
  | cons slot list ih =>
    rw [List.findIdx?_cons] at h
    cases slot with
    | some source =>
      obtain rfl : 0 = index := by simpa using h
      exact ⟨source, rfl, rfl⟩
    | none =>
      obtain ⟨rest, hrest, rfl⟩ : ∃ rest, list.findIdx? Option.isSome = some rest ∧
          rest + 1 = index := by simpa using h
      exact ih hrest

theorem valueAt_natCast (inputs : List (Option NodeId)) (values : Values) (index : ℕ) :
    valueAt (inputs.map (inputValue values)) index = inputValue values (inputs[index]?.join) := by
  rw [valueAt, if_neg (by omega), Int.toNat_natCast, List.getElem?_map]
  cases inputs[index]? with
  | none => rfl
  | some slot => rfl

theorem valueAt_lastIdSlot (tokens : List (List Char)) (values : Values) :
    valueAt ((slots tokens).map (inputValue values)) ((slots tokens).reduceOption.length - 1) =
      inputValue values (lastIdSlot tokens) := by
  rw [lastIdSlot]
  cases hcount : (slots tokens).reduceOption.length with
  | zero =>
    -- Without an id the index is negative, and slot 0 is a placeholder if there is one.
    have hfirst : (slots tokens)[0 - 1]?.join = none := by
      cases hget : (slots tokens)[0 - 1]? with
      | none => rfl
      | some slot =>
        cases slot with
        | none => rfl
        | some source =>
          have hmem := List.reduceOption_mem_iff.mpr (List.mem_of_getElem? hget)
          rw [List.length_eq_zero_iff.mp hcount] at hmem
          cases hmem
    rw [hfirst]
    rfl
  | succ count =>
    have hcast : ((count + 1 : ℕ) : ℤ) - 1 = (count : ℤ) := by omega
    rw [hcast, valueAt_natCast, Nat.add_sub_cancel]

/-- A node whose inputs were read from these tokens shows the value of the slot above. -/
theorem returnText_eq {node : Node} {tokens : List (List Char)}
    (hinputs : node.inputs = (scanInputs tokens).inputs)
    (hindex : node.returnValIdx = (scanInputs tokens).returnValIdx) (values : Values) :
    returnText node (node.inputs.map (inputValue values)) =
      retValue (inputValue values (readSlot tokens)) := by
  have hslots : node.inputs = slots tokens := hinputs.trans (inputs_foldl .initial tokens)
  have hsplit : slots tokens = slots (tokens.takeWhile (· ≠ "returns".toList)) ++
      slotsAfterReturns tokens := by
    rw [slotsAfterReturns, slots, slots, slots, ← List.filterMap_append,
      List.takeWhile_append_dropWhile]
  have hvalue : ∀ ri : ℤ, valueAt (node.inputs.map (inputValue values)) ri =
      inputValue values (readSlot tokens) →
      (match valueAt (node.inputs.map (inputValue values)) ri with
        | some rv => Value.str ("ret " ++ rv.text)
        | none => .str "ret ?") = retValue (inputValue values (readSlot tokens)) := by
    intro ri heq
    rw [heq]
    cases inputValue values (readSlot tokens) <;> rfl
  apply hvalue
  rw [hindex, returnValIdx_scanInputs, readSlot]
  cases hfound : (slotsAfterReturns tokens).findIdx? Option.isSome with
  | some index =>
    obtain ⟨source, hsource, hfirst⟩ := getElem?_of_findIdx? hfound
    dsimp only
    rw [if_pos (Int.natCast_nonneg _), valueAt_natCast, hslots, hsplit,
      List.getElem?_append_right (Nat.le_add_right _ _), Nat.add_sub_cancel_left, hsource, hfirst]
    rfl
  | none =>
    have hnone : (slotsAfterReturns tokens).findSome? id = none := by
      rw [List.findSome?_eq_none_iff]
      intro slot hslot
      simpa using List.findIdx?_eq_none_iff.mp hfound slot hslot
    have hids : node.inputIds = (slots tokens).reduceOption := by rw [Node.inputIds, hslots]
    dsimp only
    rw [hnone, Option.none_or, if_neg (by decide), hids, hslots]
    exact valueAt_lastIdSlot tokens values

/-! ## Input lists that are read right -/

/-- The own id counts as a placeholder: while a node is evaluated it has no value. -/
def seen (own : NodeId) (slot : Option NodeId) : Option NodeId := slot.filter (· ≠ own)

/-- The slots of the input list, printed and read, agree: a placeholder right behind
`returns` is not followed by an id, and where no id follows the keyword the slot with the
number of the last id holds what is meant. Nothing is asked of a node that prints itself. -/
structure SlotsAgree (own : NodeId) (tokens : List (List Char)) : Prop where
  placeholder : (slotsAfterReturns tokens).head? = some none →
    ∀ source, (slotsAfterReturns tokens).findSome? id = some source → source = own
  noId : (slotsAfterReturns tokens).head? = some none →
    (slotsAfterReturns tokens).findSome? id = none → seen own (lastIdSlot tokens) = none
  noReturns : "returns".toList ∉ tokens → ∀ last, (slots tokens).reduceOption.getLast? = some last →
    last ≠ own → lastIdSlot tokens = some last

theorem slotsAfterReturns_of_notMem {tokens : List (List Char)} (h : "returns".toList ∉ tokens) :
    slotsAfterReturns tokens = [] := by
  have hnil : tokens.dropWhile (· ≠ "returns".toList) = [] := by
    rw [List.dropWhile_eq_nil_iff]
    intro token htoken
    exact decide_eq_true fun heq => h (heq ▸ htoken)
  rw [slotsAfterReturns, hnil]
  rfl

theorem seen_some_eq_none_iff {own source : NodeId} :
    seen own (some source) = none ↔ source = own := by
  simp [seen]

theorem seen_eq_some_iff {own source : NodeId} {slot : Option NodeId} :
    seen own slot = some source ↔ slot = some source ∧ source ≠ own := by
  simp [seen, Option.filter_eq_some_iff]

/-- Another printed input than the node itself is the one that is read. -/
theorem slotsAgree_iff {own : NodeId} {tokens : List (List Char)} :
    SlotsAgree own tokens ↔ ∀ slot, printedInput tokens = some slot → slot ≠ some own →
      seen own (readSlot tokens) = slot := by
  by_cases hreturns : "returns".toList ∈ tokens
  · have hprinted : printedInput tokens = (slotsAfterReturns tokens).head? :=
      if_pos (List.contains_iff_mem.mpr hreturns)
    rw [hprinted, readSlot]
    constructor
    · intro hagree slot hslot hne
      cases slot with
      | some source =>
        obtain ⟨rest, hrest⟩ := List.head?_eq_some_iff.mp hslot
        rw [hrest]
        exact seen_eq_some_iff.mpr ⟨rfl, fun heq => hne (heq ▸ rfl)⟩
      | none =>
        cases hfound : (slotsAfterReturns tokens).findSome? id with
        | some source =>
          exact seen_some_eq_none_iff.mpr (hagree.placeholder hslot source hfound)
        | none => exact hagree.noId hslot hfound
    · intro hall
      refine ⟨fun hslot source hfound => ?_, fun hslot hfound => ?_, fun hnot => ?_⟩
      · have hseen := hall none hslot nofun
        rw [hfound] at hseen
        exact seen_some_eq_none_iff.mp hseen
      · have hseen := hall none hslot nofun
        rw [hfound] at hseen
        exact hseen
      · exact absurd hreturns hnot
  · have hprinted : printedInput tokens = (slots tokens).reduceOption.getLast?.map some :=
      if_neg (mt List.contains_iff_mem.mp hreturns)
    have hnil := slotsAfterReturns_of_notMem hreturns
    rw [hprinted, readSlot, hnil]
    constructor
    · intro hagree slot hslot hne
      obtain ⟨last, hlast, rfl⟩ := Option.map_eq_some_iff.mp hslot
      have hother : last ≠ own := fun heq => hne (heq ▸ rfl)
      exact seen_eq_some_iff.mpr ⟨hagree.noReturns hreturns last hlast hother, hother⟩
    · intro hall
      refine ⟨fun hslot => ?_, fun hslot => ?_, fun _ last hlast hne => ?_⟩
      · rw [hnil] at hslot
        cases hslot
      · rw [hnil] at hslot
        cases hslot
      · have hseen := hall (some last) (by rw [hlast]; rfl) fun heq => hne (Option.some.inj heq)
        exact (seen_eq_some_iff.mp hseen).1

theorem exists_token_of_mem_slots {tokens : List (List Char)} {source : NodeId}
    (h : some source ∈ slots tokens) :
    ∃ token, isNumeral token = true ∧ toNumber token = source := by
  obtain ⟨token, _, htoken⟩ := List.mem_filterMap.mp h
  unfold slotOf at htoken
  split_ifs at htoken with hplaceholder hnumeral
  · cases Option.some.inj htoken
  · exact ⟨token, hnumeral, Option.some.inj (Option.some.inj htoken)⟩

theorem slotsAfterReturns_subset (tokens : List (List Char)) :
    slotsAfterReturns tokens ⊆ slots tokens := by
  intro slot hslot
  obtain ⟨token, htoken, hslot⟩ := List.mem_filterMap.mp hslot
  exact List.mem_filterMap.mpr ⟨token, List.dropWhile_subset _ htoken, hslot⟩

theorem mem_slots_of_readSlot {tokens : List (List Char)} {source : NodeId}
    (h : readSlot tokens = some source) : some source ∈ slots tokens := by
  rcases Option.or_eq_some_iff.mp h with hfirst | ⟨_, hlast⟩
  · obtain ⟨slot, hslot, heq⟩ := List.exists_of_findSome?_eq_some hfirst
    obtain rfl : slot = some source := heq
    exact slotsAfterReturns_subset tokens hslot
  · exact List.mem_of_getElem? (Option.join_eq_some_iff.mp hlast)

theorem mem_slots_of_printedInput {tokens : List (List Char)} {source : NodeId}
    (h : printedInput tokens = some (some source)) : some source ∈ slots tokens := by
  unfold printedInput at h
  split_ifs at h
  · exact slotsAfterReturns_subset tokens (List.mem_of_head? h)
  · obtain ⟨last, hlast, heq⟩ := Option.map_eq_some_iff.mp h
    obtain rfl : last = source := Option.some.inj heq
    exact List.reduceOption_mem_iff.mp (List.mem_of_getLast? hlast)

/-! ## Parsed nodes -/

/-- A node is read from a line of the dump. -/
theorem exists_line_of_mem_foldl_addLine {lines : List (List Char)} {table : NodeTable}
    {node : Node} (h : node ∈ (lines.foldl addLine table).nodes) :
    node ∈ table.nodes ∨ ∃ rawLine ∈ lines, parseLine (trim rawLine) = some node := by
  induction lines generalizing table with
  | nil => exact .inl h
  | cons rawLine lines ih =>
    rcases ih h with hmem | ⟨other, hother, hread⟩
    · rw [addLine] at hmem
      cases hread : parseLine (trim rawLine) with
      | none =>
        rw [hread] at hmem
        exact .inl hmem
      | some read =>
        rw [hread] at hmem
        rcases NodeTable.mem_insert.mp hmem with rfl | ⟨hold, _⟩
        · exact .inr ⟨rawLine, List.mem_cons_self, hread⟩
        · exact .inl hold
    · exact .inr ⟨other, List.mem_cons_of_mem _ hother, hread⟩

/-- The line of a node can be read again. -/
structure Node.IsRead (node : Node) : Prop where
  parsed : parseLine node.line.toList = some node
  trimmed : trim node.line.toList = node.line.toList
  newline : '\n' ∉ node.line.toList

theorem trim_trim {text : List Char} (hne : trim text ≠ []) : trim (trim text) = trim text := by
  obtain ⟨before, after, _, _, _, hhead, hlast⟩ := exists_margins text
  have hstart : ∀ c ∈ (trim text).head?, isSpace c = false := by
    intro c hc
    obtain ⟨rest, hrest⟩ := List.head?_eq_some_iff.mp hc
    exact hhead c (by rw [hrest]; rfl)
  have hcore := trim_margins (List.forall_mem_nil _) (List.forall_mem_nil _) hstart hlast hne
  rwa [List.nil_append, List.append_nil] at hcore

theorem isRead_of_mem_parseIR {text : String} {node : Node} (h : node ∈ (parseIR text).nodes) :
    node.IsRead := by
  rcases exists_line_of_mem_foldl_addLine h with hmem | ⟨rawLine, hline, hread⟩
  · cases hmem
  · have hnode : node.line.toList = trim rawLine := by
      obtain ⟨found, _, rfl⟩ := Option.map_eq_some_iff.mp hread
      exact String.toList_ofList
    have hne : trim rawLine ≠ [] := by
      intro hnil
      have hempty : parseLine [] = none := by decide
      rw [hnil, hempty] at hread
      cases hread
    refine ⟨hnode ▸ hread, hnode ▸ trim_trim hne, ?_⟩
    rw [hnode]
    intro hmem
    have hdrop := (List.rdropWhile_prefix isSpace (rawLine.dropWhile isSpace)).subset hmem
    exact notMem_of_mem_splitOn hline (List.dropWhile_subset isSpace hdrop)

theorem Node.IsRead.scan {node : Node} (h : node.IsRead) :
    node.inputs = (scanInputs node.inputTokens).inputs ∧
      node.returnValIdx = (scanInputs node.inputTokens).returnValIdx := by
  obtain ⟨found, hfound, hnode⟩ := Option.map_eq_some_iff.mp h.parsed
  have htokens : node.inputTokens = splitSpaces (trim ((found.captured 3).getD [])) := by
    rw [Node.inputTokens, hfound]
  rw [htokens, ← hnode]
  exact ⟨rfl, rfl⟩

theorem Node.IsRead.mem_inputIds {node : Node} (h : node.IsRead) {source : NodeId} :
    source ∈ node.inputIds ↔ some source ∈ slots node.inputTokens := by
  rw [Node.mem_inputIds, h.scan.1]
  exact Eq.to_iff (congrArg _ (inputs_foldl .initial node.inputTokens))

/-! ## The shown value -/

/-- The values that the evaluation of a node finds. -/
def valuesBefore (nodes : NodeTable) (paramValues : ParamValues) (id : NodeId) : Values :=
  Dataflow.run (evaluate nodes paramValues) Dataflow.emptyEnv
    ((topoLevels nodes (buildEdges nodes)).flatten.takeWhile (· ≠ id))

/-- The values after the evaluation of all nodes. -/
def valuesAfter (nodes : NodeTable) (paramValues : ParamValues) : Values :=
  Dataflow.run (evaluate nodes paramValues) Dataflow.emptyEnv
    (topoLevels nodes (buildEdges nodes)).flatten

/-- The values of the last step. -/
def lastValues (nodes : NodeTable) (paramValues : ParamValues) : Option Values :=
  (buildSteps nodes (buildEdges nodes) (topoLevels nodes (buildEdges nodes)) paramValues).bind
    fun steps => steps.getLast?.map Step.values

/-- The last step for a dump shows, for this `Return` node, the value of its printed input. -/
def ShowsReturned (text : String) (paramValues : ParamValues) (node : Node) : Prop :=
  ∃ values, lastValues (parseIR text) paramValues = some values ∧
    ∀ slot, printedInput node.inputTokens = some slot →
      values node.id = some (retValue (inputValue values slot))

/-- The printed input, if it has a line, is another node, and no loop leads to it or it is
enumerated before the `Return`. -/
def Settled (nodes : NodeTable) (node : Node) : Prop :=
  ∀ source, printedInput node.inputTokens = some (some source) → source ∈ nodes.ids →
    source ≠ node.id ∧
      (¬ BelowCycle nodes.DataEdge source ∨ source ∈ nodes.ids.takeWhile (· ≠ node.id))

section Run

variable {nodes : NodeTable} {paramValues : ParamValues} {node : Node}

theorem valuesBefore_self (nodes : NodeTable) (paramValues : ParamValues) (id : NodeId) :
    valuesBefore nodes paramValues id id = none := by
  refine Dataflow.run_of_not_mem Dataflow.emptyEnv fun hmem => ?_
  simpa using List.mem_takeWhile_imp hmem

theorem inputValue_seen (slot : Option NodeId) (id : NodeId) :
    inputValue (valuesBefore nodes paramValues id) (seen id slot) =
      inputValue (valuesBefore nodes paramValues id) slot := by
  cases slot with
  | none => rfl
  | some source =>
    by_cases hsource : source = id
    · have hseen : seen id (some source) = none := seen_some_eq_none_iff.mpr hsource
      rw [hseen, hsource]
      exact (valuesBefore_self nodes paramValues id).symm
    · have hseen : seen id (some source) = some source := if_pos (decide_eq_true hsource)
      rw [hseen]

/-- The order of evaluation around a node. -/
theorem exists_order (hnode : node ∈ nodes.nodes) :
    ∃ rest, (topoLevels nodes (buildEdges nodes)).flatten =
      (topoLevels nodes (buildEdges nodes)).flatten.takeWhile (· ≠ node.id) ++ node.id :: rest ∧
        node.id ∉ rest := by
  have hperm := topoLevels_perm nodes
  generalize (topoLevels nodes (buildEdges nodes)).flatten = order at hperm ⊢
  have hmem : node.id ∈ order := hperm.mem_iff.mpr (List.mem_map_of_mem hnode)
  have hnodup : order.Nodup := hperm.nodup_iff.mpr nodes.nodup_ids
  obtain ⟨before, rest, rfl⟩ := List.append_of_mem hmem
  obtain ⟨_, hcons, hdisjoint⟩ := List.nodup_append.mp hnodup
  have hbefore : ∀ id ∈ before, (decide (id ≠ node.id)) = true := fun id hid =>
    decide_eq_true (hdisjoint id hid node.id List.mem_cons_self)
  refine ⟨rest, ?_, (List.nodup_cons.mp hcons).1⟩
  rw [List.takeWhile_append_of_pos hbefore, List.takeWhile_cons_of_neg (by simp), List.append_nil]

theorem lastValues_eq (nodes : NodeTable) (paramValues : ParamValues) :
    lastValues nodes paramValues = some (valuesAfter nodes paramValues) := by
  obtain ⟨steps, last, hsteps, hlast, hvalues⟩ := getLast?_buildSteps (buildEdges nodes)
    (fun _ => mem_ids_of_mem_topoLevels) paramValues
  rw [lastValues, hsteps, Option.bind_some, hlast, Option.map_some, hvalues, valuesAfter]

/-- What is evaluated before a node keeps the value that the node finds. -/
theorem valuesBefore_of_mem {source id : NodeId}
    (h : source ∈ (topoLevels nodes (buildEdges nodes)).flatten.takeWhile (· ≠ id)) :
    valuesBefore nodes paramValues id source = valuesAfter nodes paramValues source := by
  have hsplit := List.takeWhile_append_dropWhile (p := (· ≠ id))
    (l := (topoLevels nodes (buildEdges nodes)).flatten)
  have hnodup : (topoLevels nodes (buildEdges nodes)).flatten.Nodup :=
    (topoLevels_perm nodes).nodup_iff.mpr nodes.nodup_ids
  rw [← hsplit] at hnodup
  have hrest := List.disjoint_of_nodup_append hnodup h
  rw [valuesAfter, ← hsplit, Dataflow.run_append, Dataflow.run_of_not_mem _ hrest, valuesBefore]

/-- A `Return` node gets the value of the slot that is read. -/
theorem valuesAfter_return (paramValues : ParamValues) (hnode : node ∈ nodes.nodes)
    (hread : node.IsRead) (htype : node.type = "Return") :
    valuesAfter nodes paramValues node.id =
      some (retValue (inputValue (valuesBefore nodes paramValues node.id)
        (readSlot node.inputTokens))) := by
  obtain ⟨rest, horder, hrest⟩ := exists_order hnode
  obtain ⟨hinputs, hindex⟩ := hread.scan
  have hcompute : ∀ values : List (Option Value),
      computeValue node values paramValues = some (returnText node values) := by
    intro values
    rw [computeValue, htype]
    rfl
  rw [valuesAfter, horder, Dataflow.run_append, Dataflow.run_cons, Dataflow.run_of_not_mem _ hrest]
  have hself : Dataflow.step (evaluate nodes paramValues)
        (valuesBefore nodes paramValues node.id) node.id node.id =
      evaluate nodes paramValues node.id (valuesBefore nodes paramValues node.id) :=
    Dataflow.step_self (valuesBefore_self nodes paramValues node.id)
  refine hself.trans ?_
  rw [evaluate_of_mem hnode, hcompute, returnText_eq hinputs hindex]

/-- Another present node that is printed as the input leads to the `Return`. -/
theorem dataEdge_of_printedInput (hnode : node ∈ nodes.nodes) (hread : node.IsRead)
    (htype : node.type = "Return") {source : NodeId}
    (hprinted : printedInput node.inputTokens = some (some source)) (hne : source ≠ node.id)
    (hsource : source ∈ nodes.ids) : nodes.DataEdge source node.id := by
  have hreads : nodes.Reads source node.id := ⟨node, hnode, rfl, by rw [htype]; decide,
    hread.mem_inputIds.mpr (mem_slots_of_printedInput hprinted)⟩
  exact hreads.dataEdge hne hsource

/-- A settled input has its value when the `Return` is evaluated. -/
theorem inputValue_of_settled (hsettled : Settled nodes node) (hnode : node ∈ nodes.nodes)
    (hread : node.IsRead) (htype : node.type = "Return") {slot : Option NodeId}
    (hslot : printedInput node.inputTokens = some slot) :
    inputValue (valuesBefore nodes paramValues node.id) slot =
      inputValue (valuesAfter nodes paramValues) slot := by
  cases slot with
  | none => rfl
  | some source =>
    by_cases hsource : source ∈ nodes.ids
    · obtain ⟨hne, hbefore⟩ := hsettled source hslot hsource
      have hedge := dataEdge_of_printedInput hnode hread htype hslot hne hsource
      exact valuesBefore_of_mem ((mem_takeWhile_topoLevels_iff hedge).mpr hbefore)
    · have hnot : source ∉ (topoLevels nodes (buildEdges nodes)).flatten :=
        fun hmem => hsource (mem_ids_of_mem_topoLevels hmem)
      have hbefore : valuesBefore nodes paramValues node.id source = none :=
        Dataflow.run_of_not_mem _ fun hmem => hnot ((List.takeWhile_prefix _).subset hmem)
      have hafter : valuesAfter nodes paramValues source = none :=
        Dataflow.run_of_not_mem _ hnot
      exact hbefore.trans hafter.symm

/-- An input that is not settled has no value when the `Return` is evaluated. -/
theorem inputValue_of_not_settled (hsettled : ¬ Settled nodes node) (hnode : node ∈ nodes.nodes)
    (hread : node.IsRead) (htype : node.type = "Return") {source : NodeId}
    (hprinted : printedInput node.inputTokens = some (some source)) :
    inputValue (valuesBefore nodes paramValues node.id) (some source) = none := by
  by_cases hself : source = node.id
  · rw [hself]
    exact valuesBefore_self nodes paramValues node.id
  · refine Dataflow.run_of_not_mem _ fun hmem => hsettled fun other hother hsource => ?_
    obtain rfl : source = other := Option.some.inj (Option.some.inj (hprinted.symm.trans hother))
    have hedge := dataEdge_of_printedInput hnode hread htype hprinted hself hsource
    exact ⟨hself, (mem_takeWhile_topoLevels_iff hedge).mp hmem⟩

/-- The last step is right when the printed input has at the end the value that was read. -/
theorem showsReturned_iff_retValue_eq {text : String} (hnode : node ∈ (parseIR text).nodes)
    (htype : node.type = "Return") :
    ShowsReturned text paramValues node ↔ ∀ slot, printedInput node.inputTokens = some slot →
      retValue (inputValue (valuesBefore (parseIR text) paramValues node.id)
          (readSlot node.inputTokens)) =
        retValue (inputValue (valuesAfter (parseIR text) paramValues) slot) := by
  have hvalue := valuesAfter_return paramValues hnode (isRead_of_mem_parseIR hnode) htype
  rw [ShowsReturned, lastValues_eq]
  simp [hvalue]

end Run

/-! ## A dump that tells the slots apart -/

theorem isBlank_nil : ∀ c ∈ ([] : List Char), isBlank c = true := List.forall_mem_nil _

/-- A line that gives a node the value `done`. -/
def sourceLine (number : List Char) (h : isNumeral number = true) : NodeLine where
  indent := []
  number := number
  gap := [' ']
  type := "Root".toList
  space := [' ']
  operands := " _ ".toList
  outputs := [' ']
  rest := []
  ending := []
  indent_blank := isBlank_nil
  number_numeral := h
  gap_blank := ⟨by decide, List.all_eq_true.mp (by decide)⟩
  type_word := ⟨by decide, List.all_eq_true.mp (by decide)⟩
  space_blank := ⟨by decide, List.all_eq_true.mp (by decide)⟩
  operands_blank := ⟨' ', rfl, by decide⟩
  operands_clean := List.all_iff_forall_prop.mp (by decide)
  outputs_clean := List.all_iff_forall_prop.mp (by decide)
  rest_clean := List.forall_mem_nil _
  ending_blank := isBlank_nil

section Source

variable {node : Node}

/-- The node with one of its inputs, and no other node. -/
theorem exists_sourceDump (hread : node.IsRead) {number : List Char}
    (hnumber : isNumeral number = true) (hne : toNumber number ≠ node.id) :
    ∃ text source, source.id = toNumber number ∧ source.type = "Root" ∧ source.inputIds = [] ∧
      ∀ other, other ∈ (parseIR text).nodes ↔ other = source ∨ other = node := by
  obtain ⟨source, hparsed, hsource⟩ := (sourceLine number hnumber).exists_readAs
  have hid : source.id = toNumber number := hsource.id
  refine ⟨String.ofList (['\n'].intercalate [node.line.toList, (sourceLine number hnumber).text]),
    source, hid, hsource.type, ?_, fun other => ?_⟩
  · rw [hsource.inputIds, NodeLine.separateIds]
    have hnone : numerals isSpace " _ ".toList = [] := by decide
    exact congrArg (List.map toNumber) hnone
  · have hlines : ∀ line ∈ [node.line.toList, (sourceLine number hnumber).text], '\n' ∉ line := by
      simp only [List.mem_cons, List.not_mem_nil, or_false]
      rintro line (rfl | rfl)
      · exact hread.newline
      · exact NodeLine.newline_notMem_text _
    have hfirst : addLine .empty node.line.toList = NodeTable.empty.insert node := by
      rw [addLine, hread.trimmed, hread.parsed]
    have hsecond : ∀ table, addLine table (sourceLine number hnumber).text =
        table.insert source := fun table => by rw [addLine, hparsed]
    rw [parseIR, String.toList_ofList, List.splitOn_intercalate '\n' hlines (by simp),
      List.foldl_cons, List.foldl_cons, List.foldl_nil, hfirst, hsecond, NodeTable.mem_insert,
      NodeTable.mem_insert]
    refine or_congr_right ⟨?_, ?_⟩
    · rintro ⟨rfl | ⟨hnot, _⟩, _⟩
      · rfl
      · cases hnot
    · rintro rfl
      exact ⟨.inl rfl, fun heq => hne (hid ▸ heq.symm)⟩

/-- A dump of a node and another one without inputs has no cycle. -/
theorem acyclic_of_mem_iff {nodes : NodeTable} {source : Node} (hinputs : source.inputIds = [])
    (hnodes : ∀ other, other ∈ nodes.nodes ↔ other = source ∨ other = node) :
    Acyclic nodes.DataEdge := by
  apply acyclic_of_rank fun id => if id = node.id then 1 else 0
  rintro fromId toId ⟨⟨hfromTo, _, target, htarget, rfl, hinput⟩, _⟩
  rcases (hnodes target).mp htarget with rfl | rfl
  · rw [hinputs] at hinput
    cases hinput
  · simp [hfromTo]

/-- In such a dump no loop leads to an input, and the `Return` node finds the value `done`
on that input only. -/
theorem exists_dump_of_mem_inputIds (hread : node.IsRead) (htype : node.type = "Return")
    {number : List Char} (hnumber : isNumeral number = true) (hne : toNumber number ≠ node.id)
    (hmem : toNumber number ∈ node.inputIds) :
    ∃ text, node ∈ (parseIR text).nodes ∧
      (∀ id, ¬ BelowCycle (parseIR text).DataEdge id) ∧ ∀ paramValues other,
        valuesBefore (parseIR text) paramValues node.id other =
          if other = toNumber number then some (.str "done") else none := by
  obtain ⟨text, source, hid, hroot, hinputs, hnodes⟩ := exists_sourceDump hread hnumber hne
  have hnode : node ∈ (parseIR text).nodes := (hnodes node).mpr (.inr rfl)
  have hsource : source ∈ (parseIR text).nodes := (hnodes source).mpr (.inl rfl)
  have hfree : ∀ id, ¬ BelowCycle (parseIR text).DataEdge id := fun _ ⟨start, hcycle, _⟩ =>
    acyclic_of_mem_iff hinputs hnodes start hcycle
  refine ⟨text, hnode, hfree, fun paramValues other => ?_⟩
  have hreads : (parseIR text).Reads source.id node.id :=
    ⟨node, hnode, rfl, by rw [htype]; decide, hid ▸ hmem⟩
  have hedge := hreads.dataEdge (hid ▸ hne) (List.mem_map_of_mem hsource)
  have hbefore := (mem_takeWhile_topoLevels_iff hedge).mpr (.inl (hfree source.id))
  split_ifs with hother
  · rw [hother, ← hid]
    apply Dataflow.run_eq_some_of_forall _ hbefore
    intro values
    rw [evaluate_of_mem hsource, computeValue, hroot]
    rfl
  · by_cases hself : other = node.id
    · rw [hself]
      exact valuesBefore_self _ _ _
    · refine Dataflow.run_of_not_mem _ fun hin => ?_
      have hids := (topoLevels_perm (parseIR text)).mem_iff.mp
        ((List.takeWhile_prefix _).subset hin)
      obtain ⟨found, hfound, rfl⟩ := NodeTable.mem_ids.mp hids
      rcases (hnodes found).mp hfound with rfl | rfl
      · exact hother hid
      · exact hself rfl

end Source

/-! ## Which returns are shown right -/

section Return

variable {node : Node} (hread : node.IsRead) (htype : node.type = "Return")

include hread htype in
/-- Slots with the same value in all dumps without loops hold the same id. -/
theorem seen_eq_some_of_forall {first second : Option NodeId}
    (hall : ∀ text paramValues, node ∈ (parseIR text).nodes →
      (∀ id, ¬ BelowCycle (parseIR text).DataEdge id) →
        retValue (inputValue (valuesBefore (parseIR text) paramValues node.id) first) =
          retValue (inputValue (valuesBefore (parseIR text) paramValues node.id) second))
    (hslot : ∀ source, first = some source → some source ∈ slots node.inputTokens)
    {source : NodeId} (hfirst : seen node.id first = some source) :
    seen node.id second = some source := by
  obtain ⟨rfl, hne⟩ := seen_eq_some_iff.mp hfirst
  obtain ⟨number, hnumber, rfl⟩ := exists_token_of_mem_slots (hslot source rfl)
  have hmem : toNumber number ∈ node.inputIds := hread.mem_inputIds.mpr (hslot _ rfl)
  obtain ⟨text, hnode, hfree, hvalues⟩ :=
    exists_dump_of_mem_inputIds hread htype hnumber hne hmem
  have hsame := hall text (fun _ => none) hnode hfree
  by_contra hsecond
  have hnone : inputValue (valuesBefore (parseIR text) (fun _ => none) node.id) second = none := by
    rw [← inputValue_seen]
    cases hseen : seen node.id second with
    | none => rfl
    | some other =>
      refine (hvalues _ other).trans (if_neg fun heq => hsecond ?_)
      rw [hseen, heq]
  have hdone : inputValue (valuesBefore (parseIR text) (fun _ => none) node.id)
      (some (toNumber number)) = some (.str "done") := (hvalues _ _).trans (if_pos rfl)
  rw [hnone, hdone] at hsame
  exact absurd hsame (by decide)

/-- Where no loop leads to an input, another node than the `Return` itself is settled. -/
theorem settled_of_forall_not_belowCycle {nodes : NodeTable}
    (hfree : ∀ id, ¬ BelowCycle nodes.DataEdge id)
    (hne : printedInput node.inputTokens ≠ some (some node.id)) : Settled nodes node :=
  fun source hsource _ => ⟨fun heq => hne (heq ▸ hsource), .inl (hfree source)⟩

/-- A settled input is never the `Return` itself. -/
theorem Settled.ne_self {nodes : NodeTable} (h : Settled nodes node) (hnode : node ∈ nodes.nodes)
    {slot : Option NodeId} (hslot : printedInput node.inputTokens = some slot) :
    slot ≠ some node.id := by
  rintro rfl
  exact (h node.id hslot (List.mem_map_of_mem hnode)).1 rfl

include hread htype in
/-- Slots that agree are right wherever the input is settled, and only such slots are. -/
theorem forall_settled_showsReturned_iff :
    (∀ text paramValues, node ∈ (parseIR text).nodes → Settled (parseIR text) node →
        ShowsReturned text paramValues node) ↔ SlotsAgree node.id node.inputTokens := by
  rw [slotsAgree_iff]
  constructor
  · intro hshows slot hslot hne
    have hall : ∀ text paramValues, node ∈ (parseIR text).nodes →
        (∀ id, ¬ BelowCycle (parseIR text).DataEdge id) →
          retValue (inputValue (valuesBefore (parseIR text) paramValues node.id)
              (readSlot node.inputTokens)) =
            retValue (inputValue (valuesBefore (parseIR text) paramValues node.id) slot) := by
      intro text paramValues hmem hfree
      have hsettled := settled_of_forall_not_belowCycle hfree
        fun heq => hne (Option.some.inj (hslot.symm.trans heq))
      have hshown := (showsReturned_iff_retValue_eq hmem htype).mp
        (hshows text paramValues hmem hsettled) slot hslot
      rw [hshown, inputValue_of_settled hsettled hmem hread htype hslot]
    have hseen : seen node.id slot = slot := by
      cases slot with
      | none => rfl
      | some source => exact seen_eq_some_iff.mpr ⟨rfl, fun heq => hne (heq ▸ rfl)⟩
    rw [← hseen]
    apply Option.ext
    intro source
    constructor
    · exact seen_eq_some_of_forall hread htype hall fun _ => mem_slots_of_readSlot
    · refine seen_eq_some_of_forall hread htype
        (fun text paramValues hmem hfree => (hall text paramValues hmem hfree).symm) ?_
      rintro other rfl
      exact mem_slots_of_printedInput hslot
  · intro hagree text paramValues hmem hsettled
    refine (showsReturned_iff_retValue_eq hmem htype).mpr fun slot hslot => ?_
    rw [← inputValue_seen, hagree slot hslot (hsettled.ne_self hmem hslot),
      inputValue_of_settled hsettled hmem hread htype hslot]

end Return

/-- No value is spelled by itself behind `ret `. -/
theorem retValue_ne_self (value : Option Value) :
    retValue value ≠ retValue (some (retValue value)) := by
  have hlong : ∀ text : String, text ≠ "ret " ++ text := by
    intro text heq
    have hlength := congrArg String.length heq
    rw [String.length_append] at hlength
    have hprefix : "ret ".length = 4 := rfl
    omega
  cases value with
  | none => exact fun heq => hlong _ (Value.str.inj heq)
  | some rv => exact fun heq => hlong _ (Value.str.inj heq)

/-- Slots that agree show an input that is not settled as missing, which is right exactly for
another node than the `Return` itself that shows nothing but `?` at the end. -/
theorem showsReturned_iff_of_not_settled {text : String} {paramValues : ParamValues} {node : Node}
    (hnode : node ∈ (parseIR text).nodes) (htype : node.type = "Return")
    (hagree : SlotsAgree node.id node.inputTokens) (hsettled : ¬ Settled (parseIR text) node)
    {source : NodeId} (hprinted : printedInput node.inputTokens = some (some source)) :
    ShowsReturned text paramValues node ↔ source ≠ node.id ∧
      ∃ values, lastValues (parseIR text) paramValues = some values ∧
        retValue (values source) = retValue none := by
  have hread := isRead_of_mem_parseIR hnode
  rw [showsReturned_iff_retValue_eq hnode htype, lastValues_eq]
  by_cases hself : source = node.id
  · have hvalue := valuesAfter_return paramValues hnode hread htype
    refine iff_of_false (fun hall => ?_) fun h => h.1 hself
    have hsame := hall _ hprinted
    rw [hself, inputValue, inputValue, Option.bind_some, hvalue] at hsame
    exact retValue_ne_self _ hsame
  · have hslot := slotsAgree_iff.mp hagree _ hprinted fun heq => hself (Option.some.inj heq)
    have hmissing : inputValue (valuesBefore (parseIR text) paramValues node.id)
        (readSlot node.inputTokens) = none := by
      rw [(seen_eq_some_iff.mp hslot).1]
      exact inputValue_of_not_settled hsettled hnode hread htype hprinted
    rw [hmissing, hprinted]
    simp [hself, inputValue, eq_comm]

/-- The input list of a `Return` node decides whether its value is right in all dumps where
the printed input is settled. In the other dumps a list that is right there loses the value
of the input. -/
theorem showsReturned_iff {dump : String} {node : Node} (hnode : node ∈ (parseIR dump).nodes)
    (htype : node.type = "Return") :
    ((∀ text paramValues, node ∈ (parseIR text).nodes → Settled (parseIR text) node →
        ShowsReturned text paramValues node) ↔ SlotsAgree node.id node.inputTokens) ∧
      (SlotsAgree node.id node.inputTokens → ∀ text paramValues source,
        node ∈ (parseIR text).nodes → ¬ Settled (parseIR text) node →
          printedInput node.inputTokens = some (some source) →
            (ShowsReturned text paramValues node ↔ source ≠ node.id ∧
              ∃ values, lastValues (parseIR text) paramValues = some values ∧
                retValue (values source) = retValue none)) :=
  ⟨forall_settled_showsReturned_iff (isRead_of_mem_parseIR hnode) htype,
    fun hagree _ _ _ hmem hsettled hprinted =>
      showsReturned_iff_of_not_settled hmem htype hagree hsettled hprinted⟩

/-- A `Return` of a node on a loop, which is enumerated behind it. -/
def loopDump : String :=
  "4 ConI === 0 [[ 8 9 ]] #int:7\n5 Return === returns 8 [[ 0 ]]\n" ++
    "8 Phi === 4 9 [[ 5 9 ]]\n9 AddI === 8 4 [[ 8 ]]"

/-- There the `Return` shows `ret ?`, although its input shows `7`. -/
theorem showsReturned_iff_loopDump :
    ∃ node ∈ (parseIR loopDump).nodes, node.type = "Return" ∧
      ¬ ShowsReturned loopDump (fun _ => none) node ∧
      ((∀ text paramValues, node ∈ (parseIR text).nodes → Settled (parseIR text) node →
          ShowsReturned text paramValues node) ↔ SlotsAgree node.id node.inputTokens) ∧
        (SlotsAgree node.id node.inputTokens → ∀ text paramValues source,
          node ∈ (parseIR text).nodes → ¬ Settled (parseIR text) node →
            printedInput node.inputTokens = some (some source) →
              (ShowsReturned text paramValues node ↔ source ≠ node.id ∧
                ∃ values, lastValues (parseIR text) paramValues = some values ∧
                  retValue (values source) = retValue none)) := by
  have hreturn : ∃ node ∈ (parseIR loopDump).nodes, node.type = "Return" ∧ node.id = 5 ∧
      readSlot node.inputTokens = some 8 ∧ printedInput node.inputTokens = some (some 8) ∧
      (lastValues (parseIR loopDump) fun _ => none).map (· 8) = some (some (.num 7)) ∧
      (parseIR loopDump).DataEdge 8 9 ∧ (parseIR loopDump).DataEdge 9 8 ∧
      (8 : NodeId) ∉ (parseIR loopDump).ids.takeWhile (· ≠ 5) := by decide +kernel
  obtain ⟨node, hnode, htype, hid, hslot, hprinted, hvalue, hleave, henter, hbehind⟩ := hreturn
  have hmain := showsReturned_iff hnode htype
  have hagree : SlotsAgree node.id node.inputTokens := by
    refine slotsAgree_iff.mpr fun slot hprinted' hne => ?_
    obtain rfl : some 8 = slot := Option.some.inj (hprinted.symm.trans hprinted')
    exact seen_eq_some_iff.mpr ⟨hslot, fun heq => hne (congrArg some heq)⟩
  have hsettled : ¬ Settled (parseIR loopDump) node := by
    intro hsettled
    obtain ⟨_, hfree | hbefore⟩ := hsettled 8 hprinted hleave.1.mem_ids.1
    · exact hfree ⟨8, (Relation.TransGen.single hleave).tail henter, .refl⟩
    · rw [hid] at hbefore
      exact hbehind hbefore
  refine ⟨node, hnode, htype, fun hshows => ?_, hmain⟩
  obtain ⟨_, values, hvalues, hmissing⟩ :=
    (hmain.2 hagree loopDump _ 8 hnode hsettled hprinted).mp hshows
  rw [hvalues] at hvalue
  have hseven : values 8 = some (.num 7) := Option.some.inj hvalue
  rw [hseven] at hmissing
  exact absurd hmissing (by decide +kernel)

/-- A `Return` without the keyword, whose only id stands behind a placeholder. -/
def placeholderDump : String := "5 ConI === 0 [[ 6 ]] #int:7\n6 Return === _ 5 [[ 0 ]]"

/-- The `Return` shows `ret ?` instead of the constant. -/
theorem not_forall_showsReturned :
    ¬ ∀ (text : String) (paramValues : ParamValues), ∀ node ∈ (parseIR text).nodes,
      node.type = "Return" → ShowsReturned text paramValues node := by
  intro hclaim
  have hreturn : ∃ node ∈ (parseIR placeholderDump).nodes, node.type = "Return" ∧
      printedInput node.inputTokens = some (some 5) ∧
      (lastValues (parseIR placeholderDump) fun _ => none).map (fun values =>
        (values 5, values node.id)) = some (some (.num 7), some (.str "ret ?")) := by
    decide +kernel
  obtain ⟨node, hnode, htype, hprinted, hvalues⟩ := hreturn
  obtain ⟨values, hlast, hshown⟩ := hclaim placeholderDump (fun _ => none) node hnode htype
  rw [hlast] at hvalues
  obtain ⟨hseven, hmissing⟩ := Prod.mk.inj (Option.some.inj hvalues)
  have hright := hshown _ hprinted
  rw [hmissing, inputValue, Option.bind_some, hseven] at hright
  exact absurd hright (by decide +kernel)

end Colata.IR
