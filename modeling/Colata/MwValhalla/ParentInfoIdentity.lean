/-
# Parent infos in a library list

`ParentInfoIdentity` registers its infos in an `ArrayList` and visits them at the end.
Both classes truncate the index of an info to a `short`.
-/

import Colata.Languages.Java.Basic

namespace Colata.MwValhalla

open Colata.Java

/-- The cast to `short`. -/
def wrapShort (x : ℤ) : ℤ := x.bmod (2 ^ 16)

/-- An info; objects are compared by identity, so any type can stand for them. -/
structure ParentInfo (ι : Type) where
  parentInstance : ι
  propertyIndex : ℤ
  deriving DecidableEq

/-- `new ParentInfo(parentInstance, propertyIndex)`. -/
def ParentInfo.new {ι : Type} (parentInstance : ι) (propertyIndex : ℤ) : ParentInfo ι :=
  ⟨parentInstance, wrapShort propertyIndex⟩

/-- How a method ends that throws. -/
inductive Failure
  | outOfMemory (message : String)
  | negativeArraySize
  | indexOutOfBounds
  | nullPointer
  deriving DecidableEq

/-- A call of `testRegister`: the new object, the random number and whether the virtual
machine finds room for an array that the call asks for. -/
structure Call (ι : Type) where
  parentInstance : ι
  propertyIndex : ℤ
  memory : Bool

/-- The info that the call registers. -/
def Call.info {ι : Type} (call : Call ι) : ParentInfo ι :=
  .new call.parentInstance call.propertyIndex

/-- The arguments of a call of `blackhole`. -/
abbrev Visit (ι : Type) := ι × ℤ

def ParentInfo.visit {ι : Type} (parentInfo : ParentInfo ι) : Visit ι :=
  (parentInfo.parentInstance, parentInfo.propertyIndex)

namespace Identity

variable {ι : Type}

/-- `testRegister` on an append-only list. -/
def testRegister (list : List (ParentInfo ι)) (call : Call ι) : List (ParentInfo ι) :=
  list ++ [call.info]

/-- The calls of `blackhole` that `testEnd` makes. -/
def testEnd (list : List (ParentInfo ι)) : Except Failure (List (Visit ι)) :=
  (List.range list.length).mapM fun i =>
    match list[i]? with
    | none => .error .indexOutOfBounds
    | some parentInfo => .ok parentInfo.visit

theorem foldl_testRegister (calls : List (Call ι)) (list : List (ParentInfo ι)) :
    calls.foldl testRegister list = list ++ calls.map Call.info := by
  induction calls generalizing list with
  | nil => simp
  | cons call calls ih => simp [ih, testRegister]

theorem testEnd_eq_ok (list : List (ParentInfo ι)) :
    testEnd list = .ok (list.map ParentInfo.visit) := by
  apply mapM_range_eq_ok
  intro i parentInfo hinfo
  rw [hinfo]

end Identity

end Colata.MwValhalla
