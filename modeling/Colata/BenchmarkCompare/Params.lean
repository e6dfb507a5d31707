/-
# Benchmark parameters

The key of a benchmark run: its name, its mode and the values of its parameters.
Every parameter value is a record with an order tag that the reader counts up while
it reads a file. Equality looks at the tags as well as at the values, whereas the
comparison of two keys with the same parameter names looks at nothing but the tags.
-/

import Colata.Languages.Java.Text
import Colata.Math.TreeSet
import Mathlib.Data.Int.Basic

namespace Colata.BenchmarkCompare

open Colata.Java

/-- The exceptions that end a comparison. -/
inductive Failure
  | nullPointer
  | indexOutOfBounds
  | illegalState (message : String)
  | numberFormat (text : Option String)
  deriving DecidableEq

inductive Mode
  | throughput
  | averageTime
  | sampleTime
  | singleShotTime
  | all
  deriving DecidableEq

namespace Mode

def values : List Mode := [throughput, averageTime, sampleTime, singleShotTime, all]

def ordinal : Mode → ℕ
  | throughput => 0
  | averageTime => 1
  | sampleTime => 2
  | singleShotTime => 3
  | all => 4

def name : Mode → String
  | throughput => "Throughput"
  | averageTime => "AverageTime"
  | sampleTime => "SampleTime"
  | singleShotTime => "SingleShotTime"
  | all => "All"

def shortLabel : Mode → String
  | throughput => "thrpt"
  | averageTime => "avgt"
  | sampleTime => "sample"
  | singleShotTime => "ss"
  | all => "all"

def getKnown : List String := values.map fun type => type.name ++ "/" ++ type.shortLabel

/-- `"…" + getKnown()`, where a list prints with brackets. -/
def knownText : String := "[" ++ ", ".intercalate getKnown ++ "]"

/-- The mode of this name, or else the only one whose short label starts with it. -/
def deepValueOf (name : String) : Except Failure Mode :=
  match values.find? fun type => type.name = name with
  | some type => .ok type
  | none =>
      match values.filter fun type => startsWith type.shortLabel name with
      | [inferred] => .ok inferred
      | [] => .error (.illegalState ("Unable to parse benchmark mode: \"" ++ name ++ "\"\n" ++
          "Known values are " ++ knownText))
      | _ => .error (.illegalState
          ("Unable to parse benchmark mode, ambiguous prefix given: \"" ++ name ++ "\"\n" ++
            "Known values are " ++ knownText))

theorem ordinal_injective {first second : Mode} (h : first.ordinal = second.ordinal) :
    first = second := by
  cases first <;> cases second <;> first | rfl | cases h

end Mode

/-- `WorkloadParams.Value`. -/
structure Value where
  value : String
  order : BitVec 32
  deriving DecidableEq

/-- `WorkloadParams.Value.compareTo` compares the tags only, as signed integers. -/
def Value.compareTo (first second : Value) : Ordering :=
  compare first.order.toInt second.order.toInt

/-- A `TreeMap` from names to values. -/
abbrev ParamMap := Std.ExtTreeMap String Value Java.compareTo

/-- The keys are listed in their order, whatever the values. -/
theorem ParamMap.keys_eq_iff {first second : ParamMap} :
    first.keys = second.keys ↔ ∀ key, key ∈ first ↔ key ∈ second := by
  constructor
  · intro h key
    rw [← Std.ExtTreeMap.mem_keys, ← Std.ExtTreeMap.mem_keys, h]
  · intro h
    have hunit : first.map (fun _ _ => ()) = second.map (fun _ _ => ()) := by
      apply Std.ExtTreeMap.ext_mem_unit
      intro key
      rw [Std.ExtTreeMap.mem_map, Std.ExtTreeMap.mem_map, h]
    have hkeys := congrArg Std.ExtTreeMap.keys hunit
    rwa [Std.ExtTreeMap.keys_map, Std.ExtTreeMap.keys_map] at hkeys

structure WorkloadParams where
  params : ParamMap
  deriving DecidableEq

structure BenchmarkParams where
  benchmark : Option String
  mode : Mode
  params : WorkloadParams
  deriving DecidableEq

namespace WorkloadParams

/-- The loop over the entries of the first map: the first tag that differs decides. -/
def compareEntries (second : ParamMap) : List (String × Value) → Except Failure Ordering
  | [] => .ok .eq
  | (name, value) :: entries =>
      match second[name]? with
      | none => .error .nullPointer
      | some other =>
          if value.compareTo other = .eq then compareEntries second entries
          else .ok (value.compareTo other)

def compareTo (first second : WorkloadParams) : Except Failure Ordering :=
  if first.params.keys ≠ second.params.keys then
    .error (.illegalState "Comparing actual params with different key sets.")
  else compareEntries second.params first.params.toList

/-- The tags in the order of the names. -/
def orders (params : WorkloadParams) : List ℤ :=
  params.params.toList.map fun entry => entry.2.order.toInt

theorem orders_eq_map_keys (params : WorkloadParams) :
    params.orders = params.params.keys.map fun key =>
      params.params[key]?.elim 0 fun value => value.order.toInt := by
  rw [orders, ← Std.ExtTreeMap.map_fst_toList_eq_keys, List.map_map]
  apply List.map_congr_left
  intro entry hentry
  simp [Std.ExtTreeMap.mem_toList_iff_getElem?_eq_some.mp hentry]

/-- With the same names, the tags are compared in the order of the names. -/
theorem compareTo_of_keys_eq {first second : WorkloadParams}
    (hkeys : first.params.keys = second.params.keys) :
    first.compareTo second = .ok (compare first.orders second.orders) := by
  suffices hloop : ∀ left right : List (String × Value),
      left.map Prod.fst = right.map Prod.fst →
      (∀ entry ∈ right, second.params[entry.1]? = some entry.2) →
      compareEntries second.params left =
        .ok (compare (left.map fun entry => entry.2.order.toInt)
          (right.map fun entry => entry.2.order.toInt)) by
    rw [WorkloadParams.compareTo, if_neg (not_not.mpr hkeys)]
    apply hloop
    · rw [Std.ExtTreeMap.map_fst_toList_eq_keys, Std.ExtTreeMap.map_fst_toList_eq_keys, hkeys]
    · intro entry hentry
      exact Std.ExtTreeMap.mem_toList_iff_getElem?_eq_some.mp hentry
  intro left
  induction left with
  | nil =>
      intro right hnames _
      cases right with
      | nil => rfl
      | cons entry right => cases hnames
  | cons entry left ih =>
      intro right hnames hright
      cases right with
      | nil => cases hnames
      | cons other right =>
          obtain ⟨name, value⟩ := entry
          obtain ⟨name', value'⟩ := other
          simp only [List.map_cons, List.cons.injEq] at hnames
          obtain ⟨rfl, hnames⟩ := hnames
          have hother : second.params[name]? = some value' := hright _ List.mem_cons_self
          have hrest := ih right hnames fun entry hentry =>
            hright entry (List.mem_cons_of_mem _ hentry)
          simp only [compareEntries, hother, hrest, List.map_cons, List.compare_cons_cons,
            Value.compareTo]
          cases compare value.order.toInt value'.order.toInt with
          | lt => rfl
          | eq => rfl
          | gt => rfl

end WorkloadParams

namespace BenchmarkParams

def compareTo (first second : BenchmarkParams) : Except Failure Ordering :=
  let v := compare first.mode.ordinal second.mode.ordinal
  if v ≠ .eq then .ok v
  else
    match first.benchmark, second.benchmark with
    | some name, some other =>
        let v1 := Java.compareTo name other
        if v1 ≠ .eq then .ok v1 else first.params.compareTo second.params
    | _, _ => .error .nullPointer

/-- The order of keys that have a benchmark and the same parameter names: by mode, then
by benchmark, then by tags. -/
def order (first second : BenchmarkParams) : Ordering :=
  compareLex (compareOn fun params => params.mode.ordinal)
    (compareLex (compareOn fun params => utf16 (params.benchmark.getD ""))
      (compareOn fun params => params.params.orders)) first second

instance : Std.TransCmp order := inferInstanceAs (Std.TransCmp (compareLex _ (compareLex _ _)))

theorem compareTo_of_keys_eq {first second : BenchmarkParams} {name other : String}
    (hfirst : first.benchmark = some name) (hsecond : second.benchmark = some other)
    (hkeys : first.params.params.keys = second.params.params.keys) :
    first.compareTo second = .ok (order first second) := by
  simp only [compareTo, hfirst, hsecond, WorkloadParams.compareTo_of_keys_eq hkeys, order,
    compareLex, compareOn, Java.compareTo, Option.getD_some]
  cases compare first.mode.ordinal second.mode.ordinal with
  | lt => rfl
  | gt => rfl
  | eq =>
      cases compare (utf16 name) (utf16 other) with
      | lt => rfl
      | gt => rfl
      | eq => rfl

theorem order_eq_iff {first second : BenchmarkParams} {name other : String}
    (hfirst : first.benchmark = some name) (hsecond : second.benchmark = some other) :
    order first second = .eq ↔ first.mode = second.mode ∧ name = other ∧
      first.params.orders = second.params.orders := by
  have hname : utf16 name = utf16 other ↔ name = other :=
    ⟨utf16_injective, congrArg utf16⟩
  have hmode : first.mode.ordinal = second.mode.ordinal ↔ first.mode = second.mode :=
    ⟨Mode.ordinal_injective, congrArg Mode.ordinal⟩
  simp [order, compareLex, compareOn, hfirst, hsecond, Ordering.then_eq_eq, hname, hmode]

end BenchmarkParams

end Colata.BenchmarkCompare
