/-
# Events by start time

`ByStartTimeAll` prints the events of a compilation log from the first start to the last one,
and `ByStartTimeReverseOnlyL4` prints the large compilations of level 4 from the last start
to the first one. The parser of the log and the classes of its events belong to the JDK: the
events are of any type, with what the programs use of one.
-/

import Colata.Languages.Java.Basic
import Colata.Languages.Java.Number
import Colata.Math.Binary64Order
import Colata.Math.StableSort

namespace Colata.Log2Compilation

open Colata.Math Colata.Java

/-! ## The programs -/

inductive Failure
  | nullPointer
  | numberFormat (text : Option String)
  deriving DecidableEq

structure Method where
  holder : String
  name : String
  bytes : String
  flags : Option String
  deriving DecidableEq

structure NMethod where
  level : ℤ
  instSize : ℤ
  deriving DecidableEq

structure Compilation where
  id : ℤ
  icount : Option String
  inlinedBytes : Option String
  isOsr : Bool
  bci : ℤ
  compiler : String
  method : Option Method
  nMethod : Option NMethod
  deriving DecidableEq

/-- The classes of events that the programs tell apart. -/
inductive EventKind
  | nMethod
  | compilation (comp : Compilation)
  | other
  deriving DecidableEq

/-- The type of the events of a log. -/
class LogEvent (ε : Type) where
  /-- `event.getStart()` -/
  getStart : ε → Binary64
  /-- The class of the event, with what the getters of a compilation return. -/
  kind : ε → EventKind
  /-- What `event.print(System.out, ...)` prints. -/
  print : ε → String

export LogEvent (getStart kind print)

section Programs

variable {ε : Type} [LogEvent ε]

/-- `sortByStart.compare(a, b)` -/
def sortByStart (a b : ε) : ℤ :=
  let difference := getStart a - getStart b
  if difference.lt .zero then -1 else if Binary64.zero.lt difference then 1 else 0

/-- `sortByStartReverse.compare(a, b)` -/
def sortByStartReverse (a b : ε) : ℤ :=
  let difference := getStart a - getStart b
  if difference.lt .zero then 1 else if Binary64.zero.lt difference then -1 else 0

/-- `events.sort(comparator)`, which is stable. -/
def sort {α : Type} (comparator : α → α → ℤ) (events : List α) : List α :=
  events.mergeSort fun a b => comparator a b ≤ 0

/-- `event instanceof NMethod` -/
def isNMethod (event : ε) : Bool :=
  match kind event with
  | .nMethod => true
  | .compilation _ | .other => false

/-- What `ByStartTimeAll.main` prints. -/
def byStartTimeAll (events : List ε) : String :=
  (sort sortByStart events).foldl (fun printed event =>
    if isNMethod event then printed else printed ++ print event) ""

/-- `Integer.parseInt(text)` of a text that may be `null`. -/
def intOf : Option String → Except Failure ℤ
  | none => .error (.numberFormat none)
  | some text => (parseInt text).elim (.error (.numberFormat (some text))) .ok

def jvmAccSynchronized : BitVec 64 := 0x0020

def decodeFlags (osrBci : ℤ) (comp : Compilation) : Except Failure String := do
  let method ← comp.method.elim (.error .nullPointer) .ok
  let f ← intOf method.flags
  let osr := if 0 ≤ osrBci then '%' else ' '
  let synchronized := if BitVec.ofInt 64 f &&& jvmAccSynchronized != 0 then 's' else ' '
  .ok (String.ofList [osr, synchronized, ' ', ' '])

def format (osrBci : ℤ) (method : Method) : String :=
  if 0 ≤ osrBci then
    method.holder ++ "::" ++ method.name ++ " @ " ++ toString osrBci ++ " (" ++ method.bytes ++
      " bytes)"
  else method.holder ++ "::" ++ method.name ++ " (" ++ method.bytes ++ " bytes)"

/-- What has been printed, and what has been thrown then. -/
structure Printed where
  text : String
  thrown : Option Failure
  deriving DecidableEq

/-- Go on printing unless something has been thrown. -/
def Printed.andThen (first second : Printed) : Printed :=
  match first.thrown with
  | none => ⟨first.text ++ second.text, second.thrown⟩
  | some failure => ⟨first.text, some failure⟩

/-- Print a text that may fail to be computed. -/
def Printed.of : Except Failure String → Printed
  | .ok text => ⟨text, none⟩
  | .error failure => ⟨"", some failure⟩

/-- The conditions on a compilation with a compiled method, from left to right. -/
def isShown (comp : Compilation) (nMethod : NMethod) : Except Failure Bool := do
  if nMethod.level ≠ 4 then .ok false
  else
    let icount ← intOf comp.icount
    if icount ≤ 50000 then .ok false
    else
      let inlinedBytes ← intOf comp.inlinedBytes
      .ok (100 < inlinedBytes)

/-- The line of a compilation behind its number and level. -/
def description (comp : Compilation) (nMethod : NMethod) : Except Failure String := do
  let nMethodSize := nMethod.instSize
  let codeSize := if 0 < nMethodSize then "(code size: " ++ toString nMethodSize ++ ")" else ""
  let iicount := "(icount: " ++ comp.icount.getD "null" ++ ")"
  let inlinedBytes := "(inlinedBytes: " ++ comp.inlinedBytes.getD "null" ++ ")"
  let bc := if comp.isOsr then comp.bci else -1
  let flags ← decodeFlags bc comp
  let method ← comp.method.elim (.error .nullPointer) .ok
  .ok (flags ++ " " ++ comp.compiler ++ " " ++ format bc method ++ codeSize ++ iicount ++
    inlinedBytes ++ "\n")

/-- What the loop of `ByStartTimeReverseOnlyL4.main` prints for an event. -/
def printEvent (event : ε) : Printed :=
  match kind event with
  | .nMethod | .other => .of (.ok "")
  | .compilation comp =>
      match comp.nMethod with
      | none => .of (.ok "")
      | some nMethod =>
          match isShown comp nMethod with
          | .error failure => .of (.error failure)
          | .ok false => .of (.ok "")
          | .ok true =>
              (Printed.of (.ok (toString comp.id ++ " " ++ toString nMethod.level))).andThen
                (.of (description comp nMethod))

def printEvents (printed : Printed) (events : List ε) : Printed :=
  events.foldl (fun printed event => printed.andThen (printEvent event)) printed

/-- What `ByStartTimeReverseOnlyL4.main` prints. -/
def byStartTimeReverseOnlyL4 (events : List ε) : Printed :=
  printEvents ⟨"ByEndTimeOnly4\n", none⟩ (sort sortByStartReverse events)

end Programs

/-! ## The orders -/

variable {ε : Type} [LogEvent ε]

section Comparators

variable {a b : ε}

theorem sortByStart_le_iff (ha : getStart a ≠ .nan) (hb : getStart b ≠ .nan) :
    sortByStart a b ≤ 0 ↔ (getStart a).value ≤ (getStart b).value := by
  simp only [sortByStart, Binary64.sub_lt_zero, Binary64.zero_lt_sub,
    Binary64.lt_eq_decide ha hb, Binary64.lt_eq_decide hb ha, decide_eq_true_eq]
  split_ifs <;> omega

theorem sortByStartReverse_le_iff (ha : getStart a ≠ .nan) (hb : getStart b ≠ .nan) :
    sortByStartReverse a b ≤ 0 ↔ (getStart b).value ≤ (getStart a).value := by
  simp only [sortByStartReverse, Binary64.sub_lt_zero, Binary64.zero_lt_sub,
    Binary64.lt_eq_decide ha hb, Binary64.lt_eq_decide hb ha, decide_eq_true_eq]
  split_ifs <;> omega

end Comparators

/-- No two events start at the same time. -/
def Distinct (events : List ε) : Prop :=
  events.Pairwise fun a b => (getStart a).value ≠ (getStart b).value

section Orders

variable {events log : List ε} {R : ε → ε → Prop}

theorem pairwise_sortByStart (hnan : ∀ event ∈ events, getStart event ≠ .nan)
    (h : events.Pairwise R) :
    (sort sortByStart events).Pairwise fun a b =>
      (getStart a).value ≤ (getStart b).value ∧ ((getStart a).value = (getStart b).value → R a b) := by
  apply pairwise_mergeSort_key (fun event => (getStart event).value) ?_ h
  intro a ha b hb
  exact decide_eq_decide.mpr (sortByStart_le_iff (hnan a ha) (hnan b hb))

theorem pairwise_sortByStartReverse (hnan : ∀ event ∈ events, getStart event ≠ .nan)
    (h : events.Pairwise R) :
    (sort sortByStartReverse events).Pairwise fun a b =>
      (getStart b).value ≤ (getStart a).value ∧ ((getStart a).value = (getStart b).value → R a b) := by
  apply pairwise_mergeSort_key (fun event => OrderDual.toDual (getStart event).value) ?_ h
  intro a ha b hb
  exact decide_eq_decide.mpr (sortByStartReverse_le_iff (hnan a ha) (hnan b hb))

theorem sort_perm {α : Type} (comparator : α → α → ℤ) (events : List α) :
    (sort comparator events).Perm events :=
  List.mergeSort_perm events _

/-- There is one order from the first start to the last one. -/
theorem eq_of_ascending {left right : List ε} (hperm : left.Perm right)
    (hleft : left.Pairwise fun a b => (getStart a).value < (getStart b).value)
    (hright : right.Pairwise fun a b => (getStart a).value < (getStart b).value) : left = right :=
  hperm.eq_of_pairwise (fun _ _ _ _ hab hba => absurd hab hba.asymm) hleft hright

theorem ascending_sortByStart (hnan : ∀ event ∈ events, getStart event ≠ .nan)
    (hdistinct : Distinct events) :
    (sort sortByStart events).Pairwise fun a b => (getStart a).value < (getStart b).value :=
  (pairwise_sortByStart hnan hdistinct).imp fun h => lt_of_le_of_ne h.1 fun heq => h.2 heq heq

theorem ascending_reverse_sortByStartReverse (hnan : ∀ event ∈ events, getStart event ≠ .nan)
    (hdistinct : Distinct events) :
    (sort sortByStartReverse events).reverse.Pairwise fun a b =>
      (getStart a).value < (getStart b).value := by
  rw [List.pairwise_reverse]
  refine (pairwise_sortByStartReverse hnan hdistinct).imp fun h => ?_
  exact lt_of_le_of_ne h.1 fun heq => h.2 heq.symm heq.symm

theorem sortByStartReverse_eq_reverse (hnan : ∀ event ∈ events, getStart event ≠ .nan)
    (hdistinct : Distinct events) :
    sort sortByStartReverse events = (sort sortByStart events).reverse := by
  rw [← List.reverse_eq_iff]
  apply eq_of_ascending
  · exact (List.reverse_perm _).trans ((sort_perm _ _).trans (sort_perm _ _).symm)
  · exact ascending_reverse_sortByStartReverse hnan hdistinct
  · exact ascending_sortByStart hnan hdistinct

theorem Distinct.of_perm (hperm : log.Perm events) (h : Distinct events) : Distinct log :=
  (hperm.pairwise_iff fun hne => hne.symm).mpr h

/-- The order of the log does not matter. -/
theorem sortByStart_eq_of_perm (hnan : ∀ event ∈ events, getStart event ≠ .nan)
    (hdistinct : Distinct events) (hperm : log.Perm events) :
    sort sortByStart log = sort sortByStart events := by
  apply eq_of_ascending
  · exact (sort_perm _ _).trans (hperm.trans (sort_perm _ _).symm)
  · exact ascending_sortByStart (fun event hmem => hnan event (hperm.subset hmem))
      (hdistinct.of_perm hperm)
  · exact ascending_sortByStart hnan hdistinct

end Orders

/-! ## What is printed -/

/-- A compilation of level 4 that was called often and inlined much. -/
structure IsLarge (comp : Compilation) (nMethod : NMethod) : Prop where
  level : nMethod.level = 4
  icount : ∃ icount, intOf comp.icount = .ok icount ∧ 50000 < icount
  inlinedBytes : ∃ inlinedBytes, intOf comp.inlinedBytes = .ok inlinedBytes ∧ 100 < inlinedBytes

/-- What is printed for the events, as long as nothing is thrown. -/
def texts (events : List ε) : String :=
  String.join (events.map fun event => (printEvent event).text)

/-- A loop over the events prints all of them, or it throws at one behind those that it has
printed. -/
inductive Run (start : String) (events : List ε) : Printed → Prop
  | finished (hevents : ∀ event ∈ events, (printEvent event).thrown = none) :
      Run start events ⟨start ++ texts events, none⟩
  | thrown {shown rest : List ε} {event : ε} {failure : Failure}
      (hsplit : events = shown ++ event :: rest)
      (hshown : ∀ event ∈ shown, (printEvent event).thrown = none)
      (hevent : (printEvent event).thrown = some failure) :
      Run start events ⟨start ++ texts shown ++ (printEvent event).text, some failure⟩

section Printing

theorem isShown_eq_true_iff {comp : Compilation} {nMethod : NMethod} :
    isShown comp nMethod = .ok true ↔ IsLarge comp nMethod := by
  rw [isShown]
  constructor
  · intro h
    split_ifs at h with hlevel
    · cases h
    · obtain ⟨icount, hicount, h⟩ := bind_eq_ok.mp h
      split_ifs at h with hsmall
      · cases h
      · obtain ⟨inlinedBytes, hinlined, h⟩ := bind_eq_ok.mp h
        have hlarge : 100 < inlinedBytes := of_decide_eq_true (Except.ok.inj h)
        exact ⟨not_not.mp hlevel, ⟨icount, hicount, not_le.mp hsmall⟩,
          ⟨inlinedBytes, hinlined, hlarge⟩⟩
  · rintro ⟨hlevel, ⟨icount, hicount, hoften⟩, inlinedBytes, hinlined, hlarge⟩
    rw [if_neg (not_not.mpr hlevel), hicount, ok_bind, if_neg hoften.not_ge, hinlined, ok_bind,
      decide_eq_true hlarge]

theorem append_texts (start : String) (event : ε) (events : List ε) :
    start ++ (printEvent event).text ++ texts events = start ++ texts (event :: events) := by
  rw [texts, texts, List.map_cons, String.join_cons, String.append_assoc]

/-- Nothing is printed any more. -/
theorem printEvents_thrown (text : String) (failure : Failure) (events : List ε) :
    printEvents ⟨text, some failure⟩ events = ⟨text, some failure⟩ := by
  induction events with
  | nil => rfl
  | cons event events ih => exact ih

theorem run_printEvents (start : String) (events : List ε) :
    Run start events (printEvents ⟨start, none⟩ events) := by
  induction events generalizing start with
  | nil =>
      have hstart : start ++ texts ([] : List ε) = start := String.append_empty
      have hrun : Run start ([] : List ε) ⟨start ++ texts [], none⟩ := .finished (List.forall_mem_nil _)
      rwa [hstart] at hrun
  | cons event events ih =>
      have hfirst : printEvents ⟨start, none⟩ (event :: events) =
          printEvents ⟨start ++ (printEvent event).text, (printEvent event).thrown⟩ events := rfl
      rw [hfirst]
      cases hevent : (printEvent event).thrown with
      | some failure =>
          have hstart : start ++ texts ([] : List ε) = start := String.append_empty
          have hrun : Run start (event :: events)
              ⟨start ++ texts [] ++ (printEvent event).text, some failure⟩ :=
            .thrown (List.nil_append _).symm (List.forall_mem_nil _) hevent
          rw [printEvents_thrown]
          rwa [hstart] at hrun
      | none =>
          have hrest := ih (start ++ (printEvent event).text)
          generalize printEvents _ events = printed at hrest ⊢
          cases hrest with
          | finished hevents =>
              rw [append_texts]
              exact .finished (List.forall_mem_cons.mpr ⟨hevent, hevents⟩)
          | thrown hsplit hshown hother =>
              rw [append_texts]
              exact .thrown (congrArg (event :: ·) hsplit)
                (List.forall_mem_cons.mpr ⟨hevent, hshown⟩) hother

/-- The events for which there is a line. -/
def IsShown (event : ε) : Prop :=
  ∃ comp nMethod, kind event = .compilation comp ∧ comp.nMethod = some nMethod ∧
    IsLarge comp nMethod

theorem isShown_iff {event : ε} {comp : Compilation} (h : kind event = .compilation comp) :
    IsShown event ↔ ∃ nMethod, comp.nMethod = some nMethod ∧ IsLarge comp nMethod := by
  constructor
  · rintro ⟨other, nMethod, hother, hmethod, hlarge⟩
    obtain rfl : comp = other := EventKind.compilation.inj (h.symm.trans hother)
    exact ⟨nMethod, hmethod, hlarge⟩
  · rintro ⟨nMethod, hmethod, hlarge⟩
    exact ⟨comp, nMethod, h, hmethod, hlarge⟩

theorem not_isShown {event : ε} (h : ∀ comp, kind event ≠ .compilation comp) : ¬ IsShown event :=
  fun ⟨comp, _, hkind, _⟩ => h comp hkind

/-- A line holds a space. -/
theorem andThen_text_ne (id level : ℤ) (rest : Printed) :
    ((Printed.of (.ok (toString id ++ " " ++ toString level))).andThen rest).text ≠ "" := by
  intro h
  have hlist := congrArg String.toList h
  simp [Printed.andThen, Printed.of] at hlist

theorem printEvent_text_ne_iff {event : ε} (h : (printEvent event).thrown = none) :
    (printEvent event).text ≠ "" ↔ IsShown event := by
  rw [printEvent] at h ⊢
  cases hkind : kind event with
  | nMethod =>
      exact iff_of_false (fun hne => hne rfl) (not_isShown fun _ => by rw [hkind]; nofun)
  | other =>
      exact iff_of_false (fun hne => hne rfl) (not_isShown fun _ => by rw [hkind]; nofun)
  | compilation comp =>
      rw [isShown_iff hkind]
      rw [hkind] at h
      cases hmethod : comp.nMethod with
      | none =>
          simp only [hmethod]
          exact iff_of_false (fun hne => hne rfl) fun ⟨_, hsome, _⟩ => nomatch hsome
      | some nMethod =>
          have hlarge : (∃ other, some nMethod = some other ∧ IsLarge comp other) ↔
              isShown comp nMethod = .ok true := by
            rw [isShown_eq_true_iff]
            exact ⟨fun ⟨_, heq, hlarge⟩ => Option.some.inj heq ▸ hlarge, fun h => ⟨_, rfl, h⟩⟩
          rw [hlarge]
          cases hshown : isShown comp nMethod with
          | error failure =>
              simp only [hmethod, hshown, Printed.of] at h
              cases h
          | ok shown =>
              cases shown with
              | false => simp [hmethod, hshown, Printed.of]
              | true =>
                  simp only [hmethod, hshown, iff_true]
                  exact andThen_text_ne _ _ _

theorem foldl_print (printed : String) (events : List ε) :
    events.foldl (fun printed event =>
        if isNMethod event then printed else printed ++ print event) printed =
      printed ++ String.join ((events.filter fun event => !isNMethod event).map print) := by
  induction events generalizing printed with
  | nil => exact String.append_empty.symm
  | cons event events ih =>
      rw [List.foldl_cons, ih]
      by_cases hmethod : isNMethod event
      · simp [hmethod]
      · simp [hmethod, String.append_assoc]

end Printing

/-- The order of the log does not show if no two events start at the same time. -/
theorem byStartTime_of_perm {events log : List ε}
    (hnan : ∀ event ∈ events, getStart event ≠ .nan) (hdistinct : Distinct events)
    (hperm : log.Perm events) :
    byStartTimeAll log = byStartTimeAll events ∧
      byStartTimeReverseOnlyL4 log = byStartTimeReverseOnlyL4 events := by
  have hsort := sortByStart_eq_of_perm hnan hdistinct hperm
  constructor
  · rw [byStartTimeAll, hsort, byStartTimeAll]
  · rw [byStartTimeReverseOnlyL4, byStartTimeReverseOnlyL4,
      sortByStartReverse_eq_reverse hnan hdistinct,
      sortByStartReverse_eq_reverse (fun event hmem => hnan event (hperm.subset hmem))
        (hdistinct.of_perm hperm), hsort]

/-- Both programs visit each event once, from the first start to the last one or from the last to
the first one, and events of one start in the order of the log. -/
theorem byStartTime_orders {events : List ε}
    (hnan : ∀ event ∈ events, getStart event ≠ .nan) :
    ∃ upwards downwards : List ε,
      upwards.Perm events ∧ downwards.Perm events ∧
      (∀ R : ε → ε → Prop, events.Pairwise R →
        (upwards.Pairwise fun a b =>
          (getStart a).le (getStart b) ∧ ((getStart a).eq (getStart b) → R a b)) ∧
        downwards.Pairwise fun a b =>
          (getStart b).le (getStart a) ∧ ((getStart a).eq (getStart b) → R a b)) ∧
      (Distinct events → downwards = upwards.reverse ∧
        ∀ log : List ε, log.Perm events →
          byStartTimeAll log = byStartTimeAll events ∧
            byStartTimeReverseOnlyL4 log = byStartTimeReverseOnlyL4 events) ∧
      byStartTimeAll events =
        String.join ((upwards.filter fun event => !isNMethod event).map print) ∧
      Run "ByEndTimeOnly4\n" downwards (byStartTimeReverseOnlyL4 events) ∧
      ∀ event ∈ events, (printEvent event).thrown = none →
        ((printEvent event).text ≠ "" ↔ IsShown event) := by
  refine ⟨sort sortByStart events, sort sortByStartReverse events, sort_perm _ _, sort_perm _ _,
    fun R h => ⟨?_, ?_⟩, fun hdistinct => ⟨?_, fun log => ?_⟩, ?_, run_printEvents _ _, ?_⟩
  · refine (pairwise_sortByStart hnan h).imp_of_mem fun {a b} ha hb hab => ⟨?_, fun heq => ?_⟩
    · exact Binary64.le_iff.mpr
        ⟨hnan a ((sort_perm _ _).subset ha), hnan b ((sort_perm _ _).subset hb), hab.1⟩
    · exact hab.2 (Binary64.eq_iff.mp heq).2.2
  · refine (pairwise_sortByStartReverse hnan h).imp_of_mem
      fun {a b} ha hb hab => ⟨?_, fun heq => ?_⟩
    · exact Binary64.le_iff.mpr
        ⟨hnan b ((sort_perm _ _).subset hb), hnan a ((sort_perm _ _).subset ha), hab.1⟩
    · exact hab.2 (Binary64.eq_iff.mp heq).2.2
  · exact sortByStartReverse_eq_reverse hnan hdistinct
  · exact byStartTime_of_perm hnan hdistinct
  · rw [byStartTimeAll, foldl_print, String.empty_append]
  · intro event _ h
    exact printEvent_text_ne_iff h

/-- Events with a start, a class and a text to print. -/
instance : LogEvent (Binary64 × EventKind × String) where
  getStart := Prod.fst
  kind := fun event => event.2.1
  print := fun event => event.2.2

/-- A call of a small method, which is printed by the second program. -/
def largeCompilation : Compilation :=
  ⟨7, some "60000", some "101", false, 0, "c2", some ⟨"A", "m", "12", some "32"⟩, some ⟨4, 80⟩⟩

example : printEvent (Binary64.zero, EventKind.compilation largeCompilation, "") =
    ⟨"7 4 s   c2 A::m (12 bytes)(code size: 80)(icount: 60000)(inlinedBytes: 101)\n", none⟩ := by
  decide +kernel

/-- Two events of one start, and one whose start is as close as doubles can be. -/
def closeEvents : List (Binary64 × EventKind × String) :=
  [(.leastPositive, .other, "late"), (.zero, .compilation largeCompilation, "first"),
    (.zero, .other, "second")]

/-- The same events from the first start to the last one. -/
def closeUpwards : List (Binary64 × EventKind × String) :=
  [(.zero, .compilation largeCompilation, "first"), (.zero, .other, "second"),
    (.leastPositive, .other, "late")]

theorem byStartTime_orders_close :
    byStartTimeAll closeEvents = "firstsecondlate" ∧
      ∃ downwards, downwards.Perm closeEvents ∧
        Run "ByEndTimeOnly4\n" downwards (byStartTimeReverseOnlyL4 closeEvents) := by
  have hnan : ∀ event ∈ closeEvents, getStart event ≠ .nan := by decide
  obtain ⟨upwards, downwards, hupwards, hdownwards, horder, -, hall, hrun, -⟩ :=
    byStartTime_orders hnan
  let inLog : Binary64 × EventKind × String → Binary64 × EventKind × String → Prop :=
    fun a b => print a ≠ "second" ∨ print b ≠ "first"
  have hlog : closeEvents.Pairwise inLog := by decide
  have hperm : closeUpwards.Perm closeEvents := by decide
  -- No two of the three events can stand in either order.
  have hanti : ∀ a ∈ closeEvents, ∀ b ∈ closeEvents,
      ((getStart a).le (getStart b) ∧ ((getStart a).eq (getStart b) → inLog a b)) →
      ((getStart b).le (getStart a) ∧ ((getStart b).eq (getStart a) → inLog b a)) → a = b := by
    decide
  obtain rfl : upwards = closeUpwards :=
    (hupwards.trans hperm.symm).eq_of_pairwise
      (fun a b ha hb => hanti a (hupwards.subset ha) b (hperm.subset hb))
      (horder inLog hlog).1 (by decide)
  exact ⟨hall.trans rfl, downwards, hdownwards, hrun⟩

end Colata.Log2Compilation
