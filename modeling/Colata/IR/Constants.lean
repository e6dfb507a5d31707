/-
# Constants by name

Four functions recognise the types of constant nodes by the start of their names:
`nodeColorClass`, `computeValue`, `isStructural` and the sublabel of `parseIR`. The
last three test for `Con`, which is also how the conversions start; the first one
tests for `Conv` before.
-/

import Colata.IR.Value

namespace Colata.IR

open Colata.Math Colata.JavaScript

inductive ColorClass
  | frame
  | ret
  | proj
  | arith
  | cmp
  | const
  | mem
  | call
  | control
  | default
  deriving DecidableEq

/-- A chain of tests `type === name`. -/
def isOneOf (type : String) (names : List String) : Bool :=
  names.any fun name => type = name

/-- A chain of tests `type.startsWith(start)`. -/
def startsWithAny (type : String) (starts : List String) : Bool :=
  starts.any fun start => startsWith type start

/-- The starts of the names of arithmetic nodes. -/
def arithmeticStarts : List String :=
  ["Add", "Sub", "Mul", "Div", "Mod", "Neg", "LShift", "RShift", "URShift", "And", "Or", "Xor",
    "Abs", "Conv", "Sqrt", "Min", "Max"]

def controlNames : List String :=
  ["If", "IfTrue", "IfFalse", "Region", "Loop", "CountedLoop", "CountedLoopEnd", "Jump", "Halt",
    "SafePoint", "NeverBranch", "RangeCheck", "Catch", "CatchProj"]

def nodeColorClass (type : String) : ColorClass :=
  if isOneOf type ["Root", "Start"] then .frame
  else if isOneOf type ["Return", "Rethrow"] then .ret
  else if isOneOf type ["Parm", "Proj", "Phi", "PhiD"] ||
      startsWithAny type ["Cast", "CheckCast"] then .proj
  else if startsWithAny type arithmeticStarts then .arith
  else if startsWith type "Cmp" || type = "Bool" then .cmp
  else if startsWith type "Con" then .const
  else if startsWithAny type ["Load", "Store", "MemBar"] then .mem
  else if startsWithAny type ["Call", "Allocate"] then .call
  else if isOneOf type controlNames then .control
  else .default

/-! ## Names that start alike -/

/-- Neither text is a start of the other. -/
def apart (first second : String) : Bool :=
  !startsWith first second && !startsWith second first

theorem startsWith_iff {text start : String} :
    startsWith text start = true ↔ start.toList <+: text.toList :=
  List.isPrefixOf_iff_prefix

theorem startsWith_self (text : String) : startsWith text text = true :=
  startsWith_iff.mpr (List.prefix_refl _)

/-- A text does not start in two ways that are apart. -/
theorem startsWith_eq_false_of_apart {text first second : String}
    (h : startsWith text first = true) (hapart : apart first second = true) :
    startsWith text second = false := by
  by_contra hsecond
  have hother := startsWith_iff.mp (Bool.eq_true_of_not_eq_false hsecond)
  simp only [apart, Bool.and_eq_true, Bool.not_eq_true'] at hapart
  rcases List.prefix_or_prefix_of_prefix (startsWith_iff.mp h) hother with hpre | hpre
  · rw [startsWith_iff.mpr hpre] at hapart
    cases hapart.2
  · rw [startsWith_iff.mpr hpre] at hapart
    cases hapart.1

theorem ne_of_startsWith_of_apart {text first second : String}
    (h : startsWith text first = true) (hapart : apart first second = true) : text ≠ second := by
  intro heq
  have hfalse := startsWith_eq_false_of_apart h hapart
  rw [← heq, startsWith_self] at hfalse
  cases hfalse

theorem isOneOf_eq_false_of_apart {type start : String} (h : startsWith type start = true)
    (names : List String) (hapart : names.all (apart start) = true) :
    isOneOf type names = false := by
  rw [isOneOf, List.any_eq_false]
  intro name hname
  have hne := ne_of_startsWith_of_apart h (List.all_eq_true.mp hapart name hname)
  simpa using hne

theorem startsWithAny_eq_false_of_apart {type start : String} (h : startsWith type start = true)
    (starts : List String) (hapart : starts.all (apart start) = true) :
    startsWithAny type starts = false := by
  rw [startsWithAny, List.any_eq_false]
  intro other hother
  rw [startsWith_eq_false_of_apart h (List.all_eq_true.mp hapart other hother)]
  exact Bool.false_ne_true

/-- A name that starts with `Con` is arithmetic only as a conversion. -/
theorem startsWithAny_arithmeticStarts {type : String} (h : startsWith type "Con" = true) :
    startsWithAny type arithmeticStarts = startsWith type "Conv" := by
  have hbefore := startsWithAny_eq_false_of_apart h (arithmeticStarts.take 13) (by decide)
  have hafter := startsWithAny_eq_false_of_apart h (arithmeticStarts.drop 14) (by decide)
  have hsplit : arithmeticStarts =
      arithmeticStarts.take 13 ++ "Conv" :: arithmeticStarts.drop 14 := by decide
  unfold startsWithAny at hbefore hafter ⊢
  rw [hsplit, List.any_append, List.any_cons, hbefore, hafter, Bool.or_false, Bool.false_or]

theorem nodeColorClass_eq_const_iff (type : String) :
    nodeColorClass type = .const ↔
      startsWith type "Con" = true ∧ startsWith type "Conv" = false := by
  unfold nodeColorClass
  constructor
  · intro h
    split_ifs at h with _ _ _ harith _ hcon
    rw [← startsWithAny_arithmeticStarts hcon]
    exact ⟨hcon, Bool.eq_false_of_not_eq_true harith⟩
  · intro h
    obtain ⟨hcon, hconv⟩ := h
    rw [isOneOf_eq_false_of_apart hcon _ (by decide), isOneOf_eq_false_of_apart hcon _ (by decide),
      isOneOf_eq_false_of_apart hcon _ (by decide),
      startsWithAny_eq_false_of_apart hcon _ (by decide), startsWithAny_arithmeticStarts hcon,
      hconv, startsWith_eq_false_of_apart hcon (by decide), hcon]
    have hbool : type ≠ "Bool" := ne_of_startsWith_of_apart hcon (by decide)
    simp [hbool]

/-! ## The other three places -/

/-- `computeValue` reads nodes of this type from the dump text, whatever their inputs. -/
def ReadsDumpText (t : String) : Prop :=
  ∀ (node : Node) (dataInputValues : List (Option Value)) (paramValues : ParamValues),
    node.type = t → computeValue node dataInputValues paramValues = some (constantValue node)

/-- `isStructural` takes the edges from `Root` to nodes of this type out of the ordering. -/
def RootEdgeIsStructural (t : String) : Prop :=
  ∀ (nodes : NodeTable) (source target : Node), source ∈ nodes.nodes → target ∈ nodes.nodes →
    source.type = "Root" → target.type = t → isStructural source.id target.id nodes = true

/-- `parseIR` gives nodes of this type the sublabel of a constant. -/
def HasConstantSublabel (t : String) : Prop :=
  ∀ extra : List Char, sublabelOf t extra = constantSublabel extra

/-- A node whose dump text spells the number `1`. -/
private def probe (t : String) : Node := { plainNode 0 t [] with extra := "#1" }

private theorem constantValue_probe (t : String) : constantValue (probe t) = .num 1 := by
  have hfound : (Regex.search constantNumberPattern "#1".toList).bind (·.captured 1) =
      some "1".toList := by decide
  have hone : toNumber "1".toList = 1 := by decide +kernel
  unfold constantValue
  rw [show (probe t).extra = "#1" from rfl, hfound]
  exact congrArg Value.num hone

private theorem parmValue_probe (t : String) : parmValue (probe t) (fun _ => none) = .str "?" := by
  have hfound : (Regex.matchStart parmIndexPattern "#1".toList).bind (·.captured 1) = none := by
    decide
  have hstarts : ["Control", "I_O", "Memory", "FramePtr", "ReturnAdr"].all
      (fun start => !startsWith "#1" start) = true := by decide
  unfold parmValue
  rw [show (probe t).extra = "#1" from rfl, hfound]
  simp only [List.all_cons, List.all_nil, Bool.and_true, Bool.and_eq_true,
    Bool.not_eq_true'] at hstarts
  obtain ⟨hcontrol, hio, hmemory, hframe, hreturn⟩ := hstarts
  rw [hcontrol, hio, hmemory, hframe, hreturn]
  rfl

theorem readsDumpText_iff (t : String) : ReadsDumpText t ↔ startsWith t "Con" = true := by
  constructor
  · intro h
    have hone := h (probe t) [] (fun _ => none) rfl
    rw [constantValue_probe] at hone
    by_contra hcon
    -- Off the constants no branch gives the number `1` of the text.
    have htype : (probe t).type = t := rfl
    obtain ⟨text, hreturn⟩ := returnText_eq_str (probe t) []
    simp only [computeValue, htype, parmValue_probe, hreturn, numbers, numericValue,
      List.filterMap_nil] at hone
    split_ifs at hone <;> cases hone
  · intro hcon node dataInputValues paramValues htype
    have hstart : t ≠ "Start" := ne_of_startsWith_of_apart hcon (by decide)
    have hroot : t ≠ "Root" := ne_of_startsWith_of_apart hcon (by decide)
    have hparm : t ≠ "Parm" := ne_of_startsWith_of_apart hcon (by decide)
    simp [computeValue, htype, hstart, hroot, hparm, hcon]

theorem rootEdgeIsStructural_iff (t : String) :
    RootEdgeIsStructural t ↔ startsWith t "Con" = true ∨ t = "Start" := by
  have htypes : structuralTypes "Root" t = true ↔ startsWith t "Con" = true ∨ t = "Start" := by
    unfold structuralTypes
    by_cases hstart : t = "Start"
    · simp [hstart]
    · by_cases hcon : startsWith t "Con" = true <;> simp [hstart, hcon]
  rw [← htypes]
  constructor
  · intro h
    have hnodup : ([plainNode 0 "Root" [], plainNode 1 t [some 0]].map Node.id).Nodup := by
      show ([0, 1] : List NodeId).Nodup
      decide +kernel
    have htable := h ⟨_, hnodup⟩ (plainNode 0 "Root" []) (plainNode 1 t [some 0])
      List.mem_cons_self (List.mem_cons_of_mem _ List.mem_cons_self) rfl rfl
    have hne : (0 : NodeId) ≠ 1 := by decide +kernel
    simpa [isStructural, plainNode, NodeTable.get?, hne] using htable
  · intro h nodes source target hsource htarget hroot htype
    rw [← hroot, ← htype] at h
    simp only [isStructural, NodeTable.get?_of_mem hsource, NodeTable.get?_of_mem htarget, h,
      ite_self]

theorem hasConstantSublabel_iff (t : String) :
    HasConstantSublabel t ↔ startsWith t "Con" = true := by
  constructor
  · intro h
    have hone := h "#1".toList
    have hconstant : constantSublabel "#1".toList = "#1" := by decide
    rw [hconstant] at hone
    by_contra hcon
    unfold sublabelOf at hone
    split_ifs at hone
    · have hparm : parmSublabel "#1".toList = "" := by decide
      rw [hparm] at hone
      exact absurd hone (by decide)
    · exact absurd hone (by decide)
  · intro hcon extra
    have hparm : t ≠ "Parm" := ne_of_startsWith_of_apart hcon (by decide)
    simp [sublabelOf, hparm, hcon]

/-- The four places agree on whether this is a type of constants, and an integer
conversion with one numeric input passes it on. -/
structure ConstantsAgree (t : String) : Prop where
  value : ReadsDumpText t ↔ nodeColorClass t = .const
  order : RootEdgeIsStructural t ↔ nodeColorClass t = .const
  sublabel : HasConstantSublabel t ↔ nodeColorClass t = .const
  conversion : t = "ConvI2L" ∨ t = "ConvL2I" →
    ∀ (node : Node) (dataInputValues : List (Option Value)) (paramValues : ParamValues)
      (x : Binary64), node.type = t → numbers dataInputValues = [x] →
        computeValue node dataInputValues paramValues = some (.num x)

/-- The four places agree on all types but the conversions, and `Start`, whose edge from
`Root` is structural for a reason of its own. -/
theorem constantsAgree_iff (t : String) :
    ConstantsAgree t ↔ startsWith t "Conv" = false ∧ t ≠ "Start" := by
  constructor
  · intro h
    have hcolor := nodeColorClass_eq_const_iff t
    have hvalue := (readsDumpText_iff t).symm.trans h.value
    have horder := (rootEdgeIsStructural_iff t).symm.trans h.order
    constructor
    · by_contra hconv
      have hcon : startsWith t "Con" = true := by
        rw [Bool.not_eq_false] at hconv
        have hpre : "Con".toList <+: "Conv".toList := by decide
        exact startsWith_iff.mpr (hpre.trans (startsWith_iff.mp hconv))
      exact hconv (hcolor.mp (hvalue.mp hcon)).2
    · intro hstart
      have hcon := (hcolor.mp (horder.mp (Or.inr hstart))).1
      rw [hstart] at hcon
      exact absurd hcon (by decide)
  · intro h
    obtain ⟨hconv, hstart⟩ := h
    have hcolor : nodeColorClass t = .const ↔ startsWith t "Con" = true := by
      rw [nodeColorClass_eq_const_iff, hconv]
      exact and_iff_left rfl
    refine ⟨?_, ?_, ?_, ?_⟩
    · rw [hcolor, readsDumpText_iff]
    · rw [hcolor, rootEdgeIsStructural_iff, or_iff_left hstart]
    · rw [hcolor, hasConstantSublabel_iff]
    · intro htype
      rcases htype with rfl | rfl
      · exact absurd hconv (by decide)
      · exact absurd hconv (by decide)

/-- A conversion of the number `5` shows `#?`. -/
theorem not_constantsAgree_convI2L :
    ¬ ConstantsAgree "ConvI2L" ∧
      computeValue (plainNode 2 "ConvI2L" [none, some 1]) [none, some (.num 5)]
        (fun _ => none) = some (.str "#?") := by
  constructor
  · intro h
    have hpass := h.conversion (Or.inl rfl) (plainNode 2 "ConvI2L" [none, some 1])
      [none, some (.num 5)] (fun _ => none) 5 rfl rfl
    have hshown : computeValue (plainNode 2 "ConvI2L" [none, some 1]) [none, some (.num 5)]
        (fun _ => none) = some (.str "#?") := by decide +kernel
    rw [hshown] at hpass
    cases hpass
  · decide +kernel

end Colata.IR
