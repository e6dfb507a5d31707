/-
# Parent infos in a hand-written list

`ParentInfoList` keeps its infos in an array that it replaces by a larger one when it is
full. A fresh list starts with an empty array that all lists share and that `grow` tells
from other arrays by identity. Lengths are 32-bit numbers, and an array that the virtual
machine finds no room for is an `OutOfMemoryError`.
-/

import Colata.MwValhalla.ParentInfoIdentity

namespace Colata.MwValhalla

open Colata.Java

variable {ι : Type}

/-- The slots of an array of infos, `null` where nothing has been stored. -/
abbrev Slots (ι : Type) := List (Option (ParentInfo ι))

/-- A reference is the number of arrays that were there before. -/
abbrev ArrayRef := ℕ

/-- The arrays of the program and one list, with the fields that its methods use. -/
structure ParentInfoList (ι : Type) where
  arrays : List (Slots ι)
  /-- `DEFAULTCAPACITY_EMPTY_ELEMENTDATA` -/
  emptyElementData : ArrayRef
  elementData : ArrayRef
  size : ℤ

/-- The slots behind a reference. -/
def ParentInfoList.slots (list : ParentInfoList ι) (ref : ArrayRef) : Slots ι :=
  list.arrays[ref]?.getD []

/-- Overwrite the slots behind a reference. -/
def ParentInfoList.write (list : ParentInfoList ι) (ref : ArrayRef) (slots : Slots ι) :
    ParentInfoList ι :=
  { list with arrays := list.arrays.set ref slots }

theorem ParentInfoList.slots_write {list : ParentInfoList ι} {ref : ArrayRef}
    (href : ref < list.arrays.length) (slots : Slots ι) : (list.write ref slots).slots ref = slots := by
  simp [ParentInfoList.slots, write, href]

/-- A method of the list; when it throws, the changes made before stay. -/
abbrev Method (ι α : Type) := EStateM Failure (ParentInfoList ι) α

/-! ## Arrays -/

/-- Put a new array on the heap, if the virtual machine finds room for it. -/
def allocate (memory : Bool) (length : ℤ) (slots : Slots ι) : Method ι ArrayRef := fun list =>
  if length < 0 then .error .negativeArraySize list
  else if memory then .ok list.arrays.length { list with arrays := list.arrays ++ [slots] }
  else .error (.outOfMemory "Java heap space") list

/-- `new ParentInfo[length]`. -/
def newParentInfos (memory : Bool) (length : ℤ) : Method ι ArrayRef :=
  allocate memory length (List.replicate length.toNat none)

/-- `Arrays.copyOf(original, newLength)`: truncated or filled up with `null`. -/
def copyOf (memory : Bool) (original : ArrayRef) (newLength : ℤ) : Method ι ArrayRef := do
  let slots := (← get).slots original
  allocate memory newLength
    (slots.take newLength.toNat ++ List.replicate (newLength.toNat - slots.length) none)

/-- `elementData[s] = e`. -/
def store (elementData : ArrayRef) (s : ℤ) (e : ParentInfo ι) : Method ι Unit := fun list =>
  if 0 ≤ s ∧ s < (list.slots elementData).length then
    .ok () (list.write elementData ((list.slots elementData).set s.toNat (some e)))
  else .error .indexOutOfBounds list

/-! ## The list -/

/-- `Integer.MAX_VALUE`. -/
def intMax : ℤ := 2 ^ 31 - 1

/-- `SOFT_MAX_ARRAY_LENGTH`. -/
def softMaxArrayLength : ℤ := intMax - 8

/-- `DEFAULT_CAPACITY`. -/
def defaultCapacity : ℤ := 10

def hugeLength (oldLength minGrowth : ℤ) : Method ι ℤ :=
  let minLength := wrapInt (oldLength + minGrowth)
  if minLength < 0 then
    throw (.outOfMemory
      s!"Required array length {oldLength} + {minGrowth} is too large")
  else if minLength ≤ softMaxArrayLength then pure softMaxArrayLength
  else pure minLength

def newLength (oldLength minGrowth prefGrowth : ℤ) : Method ι ℤ :=
  let prefLength := wrapInt (oldLength + max minGrowth prefGrowth)
  if 0 < prefLength ∧ prefLength ≤ softMaxArrayLength then pure prefLength
  else hugeLength oldLength minGrowth

def grow (memory : Bool) (minCapacity : ℤ) : Method ι ArrayRef := do
  let list ← get
  let oldCapacity : ℤ := (list.slots list.elementData).length
  if oldCapacity > 0 ∨ list.elementData ≠ list.emptyElementData then
    let newCapacity ← newLength oldCapacity (wrapInt (minCapacity - oldCapacity)) (oldCapacity / 2)
    let elementData ← copyOf memory list.elementData newCapacity
    modify fun list => { list with elementData }
    pure elementData
  else
    let elementData ← newParentInfos memory (max defaultCapacity minCapacity)
    modify fun list => { list with elementData }
    pure elementData

/-- `add(e, elementData, s)`, where `elementData` is the method's own copy of the field. -/
def addAt (memory : Bool) (e : ParentInfo ι) (elementData : ArrayRef) (s : ℤ) :
    Method ι Unit := do
  let list ← get
  let elementData ←
    if s = (list.slots elementData).length then grow memory (wrapInt (list.size + 1))
    else pure elementData
  store elementData s e
  modify fun list => { list with size := wrapInt (s + 1) }

def add (memory : Bool) (e : ParentInfo ι) : Method ι Unit := do
  let list ← get
  addAt memory e list.elementData list.size

def testRegister (call : Call ι) : Method ι Unit :=
  add call.memory call.info

/-- The calls of `blackhole` that `testEnd` makes. -/
def testEnd (list : ParentInfoList ι) : Except Failure (List (Visit ι)) :=
  (List.range list.size.toNat).mapM fun i =>
    match (list.slots list.elementData)[i]? with
    | none => .error .indexOutOfBounds
    | some none => .error .nullPointer
    | some (some parentInfo) => .ok parentInfo.visit

/-- A sequence of calls, and those of them that return. A call that throws leaves the list
as it has become. -/
def run : List (Call ι) → ParentInfoList ι → ParentInfoList ι × List (Call ι)
  | [], list => (list, [])
  | call :: calls, list =>
      match testRegister call list with
      | .ok _ next => ((run calls next).1, call :: (run calls next).2)
      | .error _ next => run calls next

/-! ## Growing -/

section Methods

variable {α β : Type} {first : Method ι α} {then_ : α → Method ι β}
  {list next : ParentInfoList ι}

theorem bind_of_ok {value : α} (h : first list = .ok value next) :
    (first >>= then_) list = then_ value next := by
  show EStateM.bind first then_ list = _
  rw [EStateM.bind, h]

theorem bind_of_eq {other : Method ι α} (h : first list = other list) :
    (first >>= then_) list = (other >>= then_) list := by
  show EStateM.bind first then_ list = EStateM.bind other then_ list
  rw [EStateM.bind, EStateM.bind, h]

theorem bind_of_error {failure : Failure} (h : first list = .error failure next) :
    (first >>= then_) list = .error failure next := by
  show EStateM.bind first then_ list = _
  rw [EStateM.bind, h]

end Methods

section NewLength

variable {oldLength minGrowth prefGrowth : ℤ}

/-- A minimum that fits leads to a length between it and the largest one, and to the
preferred length up to the soft maximum. -/
theorem exists_newLength (list : ParentInfoList ι) (hold : 0 ≤ oldLength) (hmin : 0 < minGrowth)
    (hpref : prefGrowth ≤ intMax) (hfits : oldLength + minGrowth ≤ intMax) :
    ∃ length : ℤ, newLength oldLength minGrowth prefGrowth list = .ok length list ∧
      oldLength + minGrowth ≤ length ∧ length ≤ intMax ∧
      (oldLength + max minGrowth prefGrowth ≤ softMaxArrayLength →
        length = oldLength + max minGrowth prefGrowth) := by
  have hint : intMax = 2 ^ 31 - 1 := rfl
  have hsoft : softMaxArrayLength = 2 ^ 31 - 9 := rfl
  have hminLength : wrapInt (oldLength + minGrowth) = oldLength + minGrowth :=
    wrapInt_of_bounds (by omega) (by omega)
  have hpositive : ¬ oldLength + minGrowth < 0 := by omega
  by_cases hpreferred : oldLength + max minGrowth prefGrowth ≤ softMaxArrayLength
  · have hprefLength : wrapInt (oldLength + max minGrowth prefGrowth) =
        oldLength + max minGrowth prefGrowth := wrapInt_of_bounds (by omega) (by omega)
    have hbetween : 0 < oldLength + max minGrowth prefGrowth ∧
        oldLength + max minGrowth prefGrowth ≤ softMaxArrayLength := ⟨by omega, hpreferred⟩
    refine ⟨oldLength + max minGrowth prefGrowth, ?_, by omega, by omega, fun _ => rfl⟩
    simp only [newLength, hprefLength, if_pos hbetween]
    rfl
  · have hpref' : ¬ (0 < wrapInt (oldLength + max minGrowth prefGrowth) ∧
        wrapInt (oldLength + max minGrowth prefGrowth) ≤ softMaxArrayLength) := by
      -- The sum wraps to a negative number or is larger than the soft maximum.
      rcases lt_or_ge (oldLength + max minGrowth prefGrowth) (2 ^ 31) with hsmall | hlarge
      · rw [wrapInt_of_bounds (by omega) hsmall]
        omega
      · rw [wrapInt_of_overflow hlarge (by omega)]
        omega
    by_cases hhuge : oldLength + minGrowth ≤ softMaxArrayLength
    · refine ⟨softMaxArrayLength, ?_, hhuge, by omega, fun h => absurd h hpreferred⟩
      simp only [newLength, hugeLength, if_neg hpref', hminLength, if_neg hpositive, if_pos hhuge]
      rfl
    · refine ⟨oldLength + minGrowth, ?_, le_rfl, hfits, fun h => absurd h hpreferred⟩
      simp only [newLength, hugeLength, if_neg hpref', hminLength, if_neg hpositive, if_neg hhuge]
      rfl

/-- A minimum that does not fit is reported. -/
theorem newLength_eq_error (list : ParentInfoList ι) (hold : oldLength ≤ intMax)
    (hmin : minGrowth ≤ intMax) (hpref : prefGrowth ≤ intMax)
    (hlarge : intMax < oldLength + minGrowth) :
    newLength oldLength minGrowth prefGrowth list =
      .error (.outOfMemory s!"Required array length {oldLength} + {minGrowth} is too large")
        list := by
  have hint : intMax = 2 ^ 31 - 1 := rfl
  have hpref' : ¬ (0 < wrapInt (oldLength + max minGrowth prefGrowth) ∧
      wrapInt (oldLength + max minGrowth prefGrowth) ≤ softMaxArrayLength) := by
    rw [wrapInt_of_overflow (by omega) (by omega)]
    omega
  have hnegative : wrapInt (oldLength + minGrowth) < 0 := by
    rw [wrapInt_of_overflow (by omega) (by omega)]
    omega
  simp only [newLength, hugeLength, if_neg hpref', if_pos hnegative]
  rfl

/-- Lengths and growths that are ints: the minimum that wraps around is the only failure. -/
theorem newLength_grows (list : ParentInfoList ι) (hold : 0 ≤ oldLength) (hold' : oldLength ≤ intMax)
    (hmin : 0 < minGrowth) (hmin' : minGrowth ≤ intMax) (hpref : prefGrowth ≤ intMax) :
    ((∃ message, newLength oldLength minGrowth prefGrowth list =
        .error (.outOfMemory message) list) ↔ intMax < oldLength + minGrowth) ∧
      (oldLength + minGrowth ≤ intMax →
        ∃ length : ℤ, newLength oldLength minGrowth prefGrowth list = .ok length list ∧
          oldLength + minGrowth ≤ length ∧ length ≤ intMax ∧
          (oldLength + max minGrowth prefGrowth ≤ softMaxArrayLength →
            length = oldLength + max minGrowth prefGrowth)) := by
  refine ⟨⟨fun herror => ?_, fun hlarge => ?_⟩, exists_newLength list hold hmin hpref⟩
  · by_contra hfits
    obtain ⟨message, hmessage⟩ := herror
    obtain ⟨length, hlength, _⟩ := exists_newLength list hold hmin hpref (not_lt.mp hfits)
    rw [hmessage] at hlength
    cases hlength
  · exact ⟨_, newLength_eq_error list hold' hmin' hpref hlarge⟩

theorem newLength_grows_ten :
    ((∃ message, newLength 10 1 5 (⟨[[]], 0, 0, 0⟩ : ParentInfoList ℕ) =
        .error (.outOfMemory message) ⟨[[]], 0, 0, 0⟩) ↔ intMax < 10 + 1) ∧
      (10 + 1 ≤ intMax →
        ∃ length : ℤ, newLength 10 1 5 (⟨[[]], 0, 0, 0⟩ : ParentInfoList ℕ) =
            .ok length ⟨[[]], 0, 0, 0⟩ ∧
          10 + 1 ≤ length ∧ length ≤ intMax ∧
          (10 + max 1 5 ≤ softMaxArrayLength → length = 10 + max 1 5)) :=
  newLength_grows _ (by decide) (by decide) (by decide) (by decide) (by decide)

end NewLength

/-- `newLength` for a full array that is not the largest possible one. -/
theorem newLength_of_lt (list : ParentInfoList ι) {length : ℤ} (hnonneg : 0 ≤ length)
    (hmax : length < intMax) :
    ∃ capacity : ℤ, newLength length 1 (length / 2) list = .ok capacity list ∧
      length < capacity ∧ capacity ≤ intMax := by
  obtain ⟨capacity, hcapacity, hlarger, hle, _⟩ :=
    exists_newLength list hnonneg one_pos (by omega : length / 2 ≤ intMax) (by omega)
  exact ⟨capacity, hcapacity, hlarger, hle⟩

/-- The largest possible array cannot grow. -/
theorem newLength_intMax (list : ParentInfoList ι) :
    newLength intMax 1 (intMax / 2) list =
      .error (.outOfMemory "Required array length 2147483647 + 1 is too large") list :=
  newLength_eq_error list le_rfl (by decide) (by decide) (by decide)

/-- What `add` does once it has an array with a free slot. -/
def storeAndCount (e : ParentInfo ι) (s : ℤ) (elementData : ArrayRef) : Method ι Unit :=
  store elementData s e >>= fun _ => modify fun list => { list with size := wrapInt (s + 1) }

/-! ## What the list stands for -/

/-- What the class has when the program starts: arrays of other lists and the shared
empty one. -/
structure Statics (ι : Type) where
  arrays : List (Slots ι)
  emptyElementData : ArrayRef
  isEmpty : arrays[emptyElementData]? = some []

/-- `new Init()`. -/
def Statics.init (statics : Statics ι) : ParentInfoList ι :=
  ⟨statics.arrays, statics.emptyElementData, statics.emptyElementData, 0⟩

/-- The list holds exactly these infos. Its array is the shared empty one, and then it
holds none, or an array that it has allocated itself; arrays that were there before are
as they were. -/
structure Represents (statics : Statics ι) (infos : List (ParentInfo ι))
    (list : ParentInfoList ι) : Prop where
  size : list.size = infos.length
  slots : ∃ rest, list.slots list.elementData = infos.map some ++ rest
  capacity : ((list.slots list.elementData).length : ℤ) ≤ intMax
  emptyElementData : list.emptyElementData = statics.emptyElementData
  frame : ∀ ref < statics.arrays.length, list.arrays[ref]? = statics.arrays[ref]?
  own : list.elementData = list.emptyElementData ∨
    statics.arrays.length ≤ list.elementData ∧ list.elementData < list.arrays.length

theorem Statics.emptyElementData_lt (statics : Statics ι) :
    statics.emptyElementData < statics.arrays.length :=
  (List.getElem?_eq_some_iff.mp statics.isEmpty).1

namespace Represents

variable {statics : Statics ι} {infos : List (ParentInfo ι)} {list : ParentInfoList ι}

theorem init (statics : Statics ι) : Represents statics [] statics.init where
  size := rfl
  slots := ⟨[], by simp [ParentInfoList.slots, Statics.init, statics.isEmpty]⟩
  capacity := by simp [ParentInfoList.slots, Statics.init, statics.isEmpty, intMax]
  emptyElementData := rfl
  frame := fun _ _ => rfl
  own := Or.inl rfl

/-- The shared empty array is never written. -/
theorem slots_empty (h : Represents statics infos list) :
    list.slots list.emptyElementData = [] := by
  have hkept := h.frame _ statics.emptyElementData_lt
  rw [ParentInfoList.slots, h.emptyElementData, hkept, statics.isEmpty, Option.getD_some]

theorem length_le (h : Represents statics infos list) :
    infos.length ≤ (list.slots list.elementData).length := by
  obtain ⟨rest, hslots⟩ := h.slots
  simp [hslots]

theorem getElem?_slots (h : Represents statics infos list) {i : ℕ} {info : ParentInfo ι}
    (hinfo : infos[i]? = some info) :
    (list.slots list.elementData)[i]? = some (some info) := by
  obtain ⟨rest, hslots⟩ := h.slots
  have hlt := (List.getElem?_eq_some_iff.mp hinfo).1
  rw [hslots, List.getElem?_append_left (by simpa using hlt), List.getElem?_map, hinfo,
    Option.map_some]

theorem arrays_length_le (h : Represents statics infos list) :
    statics.arrays.length ≤ list.arrays.length := by
  by_contra hless
  have hkept := h.frame list.arrays.length (not_le.mp hless)
  rw [List.getElem?_eq_none le_rfl, List.getElem?_eq_getElem (not_le.mp hless)] at hkept
  cases hkept

/-- A larger array with the same infos takes the place of a full one. -/
theorem replace (h : Represents statics infos list) {rest : Slots ι}
    (hcapacity : ((infos.length + rest.length : ℕ) : ℤ) ≤ intMax) :
    Represents statics infos { list with
      arrays := list.arrays ++ [infos.map some ++ rest], elementData := list.arrays.length } where
  size := h.size
  slots := ⟨rest, by simp [ParentInfoList.slots]⟩
  capacity := by simpa [ParentInfoList.slots] using hcapacity
  emptyElementData := h.emptyElementData
  frame := by
    intro ref href
    have hkept := h.frame ref href
    have hlt : ref < list.arrays.length := by
      rw [List.getElem?_eq_getElem href] at hkept
      exact (List.getElem?_eq_some_iff.mp hkept).1
    rw [List.getElem?_append_left hlt, hkept]
  own := Or.inr ⟨h.arrays_length_le, by simp⟩

/-- The array of a list that has infos is its own. -/
theorem elementData_ne (h : Represents statics infos list)
    (hslots : list.slots list.elementData ≠ []) : statics.arrays.length ≤ list.elementData := by
  rcases h.own with hshared | hown
  · rw [hshared, h.slots_empty] at hslots
    exact absurd rfl hslots
  · exact hown.1

/-- Storing an info in the first free slot adds it. -/
theorem store (h : Represents statics infos list) (e : ParentInfo ι)
    (hroom : infos.length < (list.slots list.elementData).length) :
    ∃ next, store list.elementData infos.length e list = .ok () next ∧
      Represents statics (infos ++ [e]) { next with size := (infos ++ [e]).length } := by
  obtain ⟨rest, hslots⟩ := h.slots
  have hne : list.slots list.elementData ≠ [] := List.ne_nil_of_length_pos (by omega)
  have hown := h.elementData_ne hne
  have hlt : list.elementData < list.arrays.length := by
    by_contra hge
    exact hne (by rw [ParentInfoList.slots, List.getElem?_eq_none (not_lt.mp hge), Option.getD_none])
  cases rest with
  | nil => simp [hslots] at hroom
  | cons slot rest =>
      have hstored : (list.slots list.elementData).set (infos.length : ℤ).toNat (some e) =
          (infos ++ [e]).map some ++ rest := by
        rw [hslots, Int.toNat_natCast, List.set_append_right _ _ (by simp)]
        simp
      have hcapacity : (((infos ++ [e]).map some ++ rest).length : ℤ) ≤ intMax := by
        rw [← hstored, List.length_set]
        exact h.capacity
      have hin : 0 ≤ (infos.length : ℤ) ∧
          (infos.length : ℤ) < (list.slots list.elementData).length := by omega
      refine ⟨list.write list.elementData ((infos ++ [e]).map some ++ rest), ?_, ?_⟩
      · rw [← hstored]
        exact if_pos hin
      · have hwritten := ParentInfoList.slots_write hlt ((infos ++ [e]).map some ++ rest)
        refine ⟨rfl, ⟨rest, hwritten⟩, ?_, h.emptyElementData, ?_, ?_⟩
        · exact (congrArg (fun slots : Slots ι => (slots.length : ℤ)) hwritten).trans_le hcapacity
        · intro ref href
          rw [← h.frame ref href]
          exact List.getElem?_set_ne (by omega)
        · exact Or.inr ⟨hown, hlt.trans_eq (List.length_set ..).symm⟩

/-- The branch of `grow` that replaces an array of its own. -/
theorem grow_eq_of_own (h : Represents statics infos list)
    (hfull : infos.length = (list.slots list.elementData).length)
    (hown : list.elementData ≠ list.emptyElementData) (memory : Bool) :
    grow memory (wrapInt (list.size + 1)) list =
      (newLength infos.length 1 (infos.length / 2) >>= fun newCapacity =>
        copyOf memory list.elementData newCapacity >>= fun elementData =>
          modify (fun list => { list with elementData }) >>= fun _ => pure elementData) list := by
  have hgrowth : wrapInt (wrapInt ((infos.length : ℤ) + 1) - infos.length) = 1 := by
    rw [wrapInt, wrapInt, Int.bmod_sub_bmod, add_sub_cancel_left]
    decide
  have hcapacity : ((list.slots list.elementData).length : ℤ) > 0 ∨
      list.elementData ≠ list.emptyElementData := Or.inr hown
  show (if ((list.slots list.elementData).length : ℤ) > 0 ∨
    list.elementData ≠ list.emptyElementData then _ else _ : Method ι ArrayRef) list = _
  rw [if_pos hcapacity, ← hfull, h.size, hgrowth]

/-- The branch of `grow` that replaces the shared empty array. -/
theorem grow_eq_of_empty (h : Represents statics infos list)
    (hshared : list.elementData = list.emptyElementData) (memory : Bool) :
    grow memory (wrapInt (list.size + 1)) list =
      (newParentInfos memory defaultCapacity >>= fun elementData =>
          modify (fun list => { list with elementData }) >>= fun _ => pure elementData) list := by
  have hslots : list.slots list.elementData = [] := hshared ▸ h.slots_empty
  have hinfos : infos.length = 0 := by
    have hle := h.length_le
    rw [hslots] at hle
    exact Nat.le_zero.mp hle
  have hcapacity : ¬ (((list.slots list.elementData).length : ℤ) > 0 ∨
      list.elementData ≠ list.emptyElementData) := by
    rw [hslots]
    simp [hshared]
  have hminCapacity : max defaultCapacity (wrapInt ((infos.length : ℤ) + 1)) = defaultCapacity := by
    rw [hinfos]
    decide
  show (if ((list.slots list.elementData).length : ℤ) > 0 ∨
    list.elementData ≠ list.emptyElementData then _ else _ : Method ι ArrayRef) list = _
  rw [if_neg hcapacity, h.size, hminCapacity]

/-- Allocating a larger array and making it the list's own. -/
theorem allocate_cases (h : Represents statics infos list) (memory : Bool) (length : ℤ)
    (rest : Slots ι) (hlength : length = (infos.length + rest.length : ℕ))
    (hmax : length ≤ intMax) (hpos : rest ≠ []) :
    (∃ next, (allocate memory length (infos.map some ++ rest) >>= fun elementData =>
        modify (fun list => { list with elementData }) >>= fun _ => pure elementData) list =
          .ok next.elementData next ∧
      Represents statics infos next ∧ infos.length < (next.slots next.elementData).length) ∨
    memory = false ∧
      ∃ message, (allocate memory length (infos.map some ++ rest) >>= fun elementData =>
        modify (fun list => { list with elementData }) >>= fun _ => pure elementData) list =
          .error (.outOfMemory message) list := by
  have hnonneg : ¬ length < 0 := by omega
  cases memory with
  | true =>
      left
      have hallocate : allocate true length (infos.map some ++ rest) list =
          .ok list.arrays.length
            { list with arrays := list.arrays ++ [infos.map some ++ rest] } := if_neg hnonneg
      refine ⟨_, bind_of_ok hallocate, h.replace (hlength ▸ hmax), ?_⟩
      have hrest := List.length_pos_iff.mpr hpos
      simp only [ParentInfoList.slots, List.getElem?_concat_length, Option.getD_some,
        List.length_append, List.length_map]
      omega
  | false =>
      right
      exact ⟨rfl, _, bind_of_error (if_neg hnonneg)⟩

/-- The copy of a full array keeps the elements and adds empty places. -/
theorem copyOf_of_full (h : Represents statics infos list)
    (hfull : infos.length = (list.slots list.elementData).length) (memory : Bool) {capacity : ℤ}
    (hlarger : infos.length ≤ capacity) :
    copyOf memory list.elementData capacity list =
      allocate memory capacity (infos.map some ++
        List.replicate (capacity.toNat - infos.length) none) list := by
  obtain ⟨rest, hslots⟩ := h.slots
  obtain rfl : rest = [] := by
    rw [hslots] at hfull
    simpa using hfull
  have htake : (infos.map some).take capacity.toNat = infos.map some :=
    List.take_of_length_le (by rw [List.length_map]; omega)
  show allocate memory capacity ((list.slots list.elementData).take capacity.toNat ++
    List.replicate (capacity.toNat - (list.slots list.elementData).length) none) list = _
  rw [← hfull, hslots, List.append_nil, htake]

/-- A full list grows or is left as it was, and it grows if there is room for a larger
array and its array is not the largest possible one. -/
theorem grow_cases (h : Represents statics infos list)
    (hfull : infos.length = (list.slots list.elementData).length) (memory : Bool) :
    (∃ next, grow memory (wrapInt (list.size + 1)) list = .ok next.elementData next ∧
      Represents statics infos next ∧
      infos.length < (next.slots next.elementData).length) ∨
    ¬ (memory = true ∧ (infos.length : ℤ) < intMax) ∧
      ∃ message, grow memory (wrapInt (list.size + 1)) list = .error (.outOfMemory message) list := by
  have hfail : memory = false → ¬ (memory = true ∧ (infos.length : ℤ) < intMax) := by
    rintro rfl ⟨hmemory, _⟩
    cases hmemory
  by_cases hshared : list.elementData = list.emptyElementData
  · have hslots : list.slots list.elementData = [] := hshared ▸ h.slots_empty
    have hinfos : infos = [] := by
      rw [hslots] at hfull
      exact List.length_eq_zero_iff.mp hfull
    have hgrow := h.grow_eq_of_empty hshared memory
    subst hinfos
    rw [hgrow]
    have hgrown := h.allocate_cases memory defaultCapacity (List.replicate 10 none) rfl
      (by decide) (List.cons_ne_nil _ _)
    exact hgrown.imp_right fun hnone => ⟨hfail hnone.1, hnone.2⟩
  · rw [h.grow_eq_of_own hfull hshared]
    have hcapacity := h.capacity
    rw [← hfull] at hcapacity
    rcases hcapacity.lt_or_eq with hlt | hlargest
    · obtain ⟨capacity, hlength, hlarger, hmax⟩ :=
        newLength_of_lt list (Int.natCast_nonneg infos.length) hlt
      rw [bind_of_ok hlength]
      have hgrown := h.allocate_cases memory capacity
        (List.replicate (capacity.toNat - infos.length) none)
        (by rw [List.length_replicate]; omega) hmax
        (List.ne_nil_of_length_pos (by rw [List.length_replicate]; omega))
      rw [bind_of_eq (h.copyOf_of_full hfull memory (by omega))]
      exact hgrown.imp_right fun hnone => ⟨hfail hnone.1, hnone.2⟩
    · right
      rw [hlargest]
      exact ⟨fun hroom => hroom.2.ne rfl, _, bind_of_error (newLength_intMax list)⟩

theorem add_of_full (hfull : list.size = (list.slots list.elementData).length) (memory : Bool)
    (e : ParentInfo ι) :
    add memory e list =
      (grow memory (wrapInt (list.size + 1)) >>= storeAndCount e list.size) list := by
  show (if list.size = (list.slots list.elementData).length then _ else _ : Method ι Unit) list = _
  rw [if_pos hfull]
  rfl

theorem add_of_room (hroom : list.size ≠ (list.slots list.elementData).length) (memory : Bool)
    (e : ParentInfo ι) :
    add memory e list = storeAndCount e list.size list.elementData list := by
  show (if list.size = (list.slots list.elementData).length then _ else _ : Method ι Unit) list = _
  rw [if_neg hroom]
  rfl

theorem storeAndCount (h : Represents statics infos list) (e : ParentInfo ι)
    (hroom : infos.length < (list.slots list.elementData).length) :
    ∃ next, storeAndCount e infos.length list.elementData list = .ok () next ∧
      Represents statics (infos ++ [e]) next := by
  obtain ⟨stored, hstored, hnext⟩ := h.store e hroom
  have hcapacity := h.capacity
  have hsize : wrapInt (infos.length + 1 : ℤ) = (infos ++ [e]).length := by
    have hint : intMax = 2 ^ 31 - 1 := rfl
    rw [List.length_append, List.length_singleton, Nat.cast_add, Nat.cast_one]
    exact wrapInt_of_bounds (by omega) (by omega)
  refine ⟨{ stored with size := (infos ++ [e]).length }, ?_, hnext⟩
  rw [MwValhalla.storeAndCount, bind_of_ok hstored, hsize]
  rfl

/-- Adding an info adds it or throws an `OutOfMemoryError` and changes nothing. -/
theorem add_cases (h : Represents statics infos list) (memory : Bool) (e : ParentInfo ι) :
    (∃ next, add memory e list = .ok () next ∧ Represents statics (infos ++ [e]) next) ∨
    ¬ (memory = true ∧ (infos.length : ℤ) < intMax) ∧
      ∃ message, add memory e list = .error (.outOfMemory message) list := by
  by_cases hfull : list.size = (list.slots list.elementData).length
  · have hadd := add_of_full hfull memory e
    rw [h.size] at hfull
    rcases h.grow_cases (Int.natCast_inj.mp hfull) memory with
      ⟨grown, hgrow, hgrown, hroom⟩ | ⟨hnone, message, hgrow⟩
    · left
      rw [hadd, bind_of_ok hgrow, h.size]
      exact hgrown.storeAndCount e hroom
    · right
      exact ⟨hnone, message, hadd.trans (bind_of_error hgrow)⟩
  · left
    have hle := h.length_le
    rw [add_of_room hfull memory e]
    rw [h.size] at hfull ⊢
    exact h.storeAndCount e (by omega)

theorem testEnd_eq_ok (h : Represents statics infos list) :
    testEnd list = .ok (infos.map ParentInfo.visit) := by
  rw [testEnd, h.size, Int.toNat_natCast]
  apply mapM_range_eq_ok
  intro i info hinfo
  rw [h.getElem?_slots hinfo]

/-- A run adds the infos of the calls that return. -/
theorem run (h : Represents statics infos list) (calls : List (Call ι)) :
    Represents statics (infos ++ (run calls list).2.map Call.info) (run calls list).1 := by
  induction calls generalizing infos list with
  | nil => simpa [MwValhalla.run] using h
  | cons call calls ih =>
      rcases h.add_cases call.memory call.info with ⟨next, hadd, hnext⟩ | ⟨_, message, hadd⟩
      · have hcall : testRegister call list = .ok () next := hadd
        simp only [MwValhalla.run, hcall, List.map_cons]
        simpa using ih hnext
      · have hcall : testRegister call list = .error (.outOfMemory message) list := hadd
        simp only [MwValhalla.run, hcall]
        exact ih h

/-- All calls of a run return if there is room for all their infos. -/
theorem run_snd (h : Represents statics infos list) (calls : List (Call ι))
    (hmemory : ∀ call ∈ calls, call.memory = true)
    (hroom : ((infos.length + calls.length : ℕ) : ℤ) ≤ intMax) :
    (MwValhalla.run calls list).2 = calls := by
  induction calls generalizing infos list with
  | nil => rfl
  | cons call calls ih =>
      rw [List.forall_mem_cons] at hmemory
      rw [List.length_cons] at hroom
      rcases h.add_cases call.memory call.info with ⟨next, hadd, hnext⟩ | ⟨hnone, _⟩
      · have hcall : testRegister call list = .ok () next := hadd
        have hrest := ih hnext hmemory.2 (by
          rwa [List.length_append, List.length_singleton, Nat.add_assoc, Nat.add_comm 1])
        simp only [MwValhalla.run, hcall, hrest]
      · exact absurd ⟨hmemory.1, by omega⟩ hnone

end Represents

/-- The calls that return do so in their order. -/
theorem sublist_run (calls : List (Call ι)) (list : ParentInfoList ι) :
    (run calls list).2.Sublist calls := by
  induction calls generalizing list with
  | nil => exact List.Sublist.refl []
  | cons call calls ih =>
      rw [run]
      cases testRegister call list with
      | ok _ next => exact (ih next).cons_cons call
      | error _ next => exact (ih next).cons call

/-! ## Refinement -/

/-- How a list in which these calls have returned agrees with the append-only list: its
fields, what `testEnd` visits, the arrays it must not touch, and what the next call can
do. -/
structure Refines (statics : Statics ι) (returned : List (Call ι)) (list : ParentInfoList ι) :
    Prop where
  size : list.size = returned.length
  capacity : returned.length ≤ (list.slots list.elementData).length
  slots : ∀ (i : ℕ) (call : Call ι), returned[i]? = some call →
    (list.slots list.elementData)[i]? =
      some (some ⟨call.parentInstance, wrapShort call.propertyIndex⟩)
  emptyElementData : list.emptyElementData = statics.emptyElementData ∧
    list.arrays[statics.emptyElementData]? = some []
  frame : ∀ ref < statics.arrays.length, list.arrays[ref]? = statics.arrays[ref]?
  visits : testEnd list = Identity.testEnd (returned.foldl Identity.testRegister [])
  outOfMemory : ∀ call failure next, testRegister call list = .error failure next →
    (∃ message, failure = .outOfMemory message) ∧ next.size = list.size ∧
      next.elementData = list.elementData
  returns : ∀ call, call.memory = true → list.size < intMax →
    ∃ next, testRegister call list = .ok () next

/-- The list after a run refines the append-only list of the calls that returned. -/
theorem Represents.refines {statics : Statics ι} {returned : List (Call ι)}
    {list : ParentInfoList ι} (h : Represents statics (returned.map Call.info) list) :
    Refines statics returned list := by
  refine ⟨?_, ?_, ?_, ?_, h.frame, ?_, ?_, ?_⟩
  · rw [h.size, List.length_map]
  · simpa using h.length_le
  · intro i call hcall
    have hinfo : (returned.map Call.info)[i]? = some call.info := by
      rw [List.getElem?_map, hcall, Option.map_some]
    exact h.getElem?_slots hinfo
  · rw [h.frame _ statics.emptyElementData_lt]
    exact ⟨h.emptyElementData, statics.isEmpty⟩
  · rw [h.testEnd_eq_ok, Identity.foldl_testRegister, Identity.testEnd_eq_ok, List.nil_append]
  · intro call failure next hcall
    rcases h.add_cases call.memory call.info with ⟨_, hadd, _⟩ | ⟨_, message, hadd⟩
    · cases hadd.symm.trans hcall
    · cases hadd.symm.trans hcall
      exact ⟨⟨message, rfl⟩, rfl, rfl⟩
  · intro call hmemory hsize
    rcases h.add_cases call.memory call.info with ⟨next, hadd, _⟩ | ⟨hnone, _⟩
    · exact ⟨next, hadd⟩
    · rw [h.size] at hsize
      exact absurd ⟨hmemory, hsize⟩ hnone

/-- After any sequence of calls on a fresh list, the list refines the append-only list of
the calls that returned. These are calls of the sequence in their order, and all of them if
there is always room and an `int` can count them. -/
theorem refines_run (statics : Statics ι) (calls : List (Call ι)) :
    Refines statics (run calls statics.init).2 (run calls statics.init).1 ∧
      (run calls statics.init).2.Sublist calls ∧
      ((∀ call ∈ calls, call.memory = true) → (calls.length : ℤ) ≤ intMax →
        (run calls statics.init).2 = calls) := by
  have h := Represents.init statics
  refine ⟨(h.run calls).refines, sublist_run calls _, fun hmemory hroom => ?_⟩
  exact h.run_snd calls hmemory (by rwa [List.length_nil, Nat.zero_add])

end Colata.MwValhalla
