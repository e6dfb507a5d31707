/-
# The generators of the reduction benchmarks

Each generator emits the loop of a method that reduces a `long` array to its maximum:
a chain per block, the chain unrolled through the result, several chains per block, or
balanced trees whose operands wait in a queue. A body is a list of statements over the
names `v0`, `v1`, … of the loaded elements and `t0`, `t1`, … of the partial maxima.
-/

import Colata.Languages.Java.ForLoop

namespace Colata.ReassocChain

open Colata.Java Colata.Java.ForLoop

/-- The names of the emitted methods: `result`, `v` and `t` alone, `v` and `t` with a number. -/
inductive Name
  | result
  | plainV
  | plainT
  | v (index : ℕ)
  | t (index : ℕ)
  deriving DecidableEq

abbrev Code := List (Statement Name)

/-- `var v$L = array[i + $L]`. -/
def load (index : ℕ) : Statement Name := .var (.v index) (.element index)

/-- `var t$L = Math.max(v$L, t$L)`. -/
def link (index next previous : ℕ) : Statement Name :=
  .var (.t index) (.max (.v next) (.t previous))

/-- `result = Math.max(result, t$L)`. -/
def reduceResult (index : ℕ) : Statement Name := .assign .result (.max .result (.t index))

/-- `while (names.size() > 1)`: combine two names from the front of the queue and put the
new name at its end. Returns the code and the next free number. -/
def drain : List Name → ℕ → Code × ℕ
  | left :: right :: names, nameIndex =>
      let rest := drain (names ++ [.t nameIndex]) (nameIndex + 1)
      (.var (.t nameIndex) (.max left right) :: rest.1, rest.2)
  | _, nameIndex => ([], nameIndex)
termination_by names => names.length

/-- One turn of the outer loop of `reTree`. -/
def reTreeBlock (inner : ℕ) (state : Code × ℕ) (i : ℕ) : Code × ℕ :=
  let index := i * inner
  let names := (List.range inner).map fun j => Name.v (index + j)
  let tree := drain names state.2
  (state.1 ++ ((List.range inner).map (fun j => load (index + j)) ++ tree.1 ++
    [reduceResult (tree.2 - 1)]), tree.2)

def reTree (outer inner : ℕ) : Loop Name where
  stride := outer * inner
  body := ((List.range outer).foldl (reTreeBlock inner) ([], 0)).1

/-- One turn of the outer loop of `reassocBy`. -/
def reassocByBlock (inner i : ℕ) : Code :=
  let index := i * inner
  (List.range inner).map (fun j => load (index + j)) ++
    [.var (.t index) (.max (.v (index + 1)) (.v index))] ++
    (List.range' 1 (inner - 1 - 1)).map (fun j => link (index + j) (index + j + 1) (index + j - 1)) ++
    [reduceResult (index + inner - 2)]

def reassocBy (outer inner : ℕ) : Loop Name where
  stride := outer * inner
  body := (List.range outer).flatMap (reassocByBlock inner)

/-- The comment that `reassoc` builds in a deque. -/
def reassocComment (size : ℕ) : String :=
  let chain := (List.range' 1 (size - 1 - 1)).foldl
    (fun comment index => s!"max(v{index + 1}, " ++ comment ++ ")") "max(v1, v0)"
  "result = max(result, " ++ chain ++ ")"

def reassoc (size : ℕ) : Loop Name where
  stride := size
  body :=
    -- `index` counts on with the loop variable and ends behind the last link.
    let index := 1 + (size - 1 - 1)
    (List.range size).map load ++ [.var (.t 0) (.max (.v 1) (.v 0))] ++
      (List.range' 1 (size - 1 - 1)).map (fun index => link index (index + 1) (index - 1)) ++
      [.comment (reassocComment size), reduceResult (index - 1)]

/-- The comment that `unroll` builds in a deque. -/
def unrollComment (size : ℕ) : String :=
  let chain := (List.range' 1 (size - 1)).foldl
    (fun comment index => s!"max(v{index}, " ++ comment ++ ")") "max(v0, result)"
  "result = " ++ chain

def unroll (size : ℕ) : Loop Name where
  stride := size
  body :=
    let index := 1 + (size - 1)
    (List.range size).map load ++ [.var (.t 0) (.max (.v 0) .result)] ++
      (List.range' 1 (size - 1)).map (fun index => link index index (index - 1)) ++
      [.comment (unrollComment size), .assign .result (.copy (.t (index - 1)))]

/-- The loop of the method `expect`. -/
def buildExpect : Loop Name where
  stride := 1
  body :=
    [.var .plainV (.element 0), .var .plainT (.max .plainV .result),
      .assign .result (.copy .plainT)]

/-! ## The variants that are generated -/

inductive GenOption
  | base
  | reassoc2
  | unroll2
  | reassoc4
  | unroll4
  | reassoc8
  | unroll8
  | reassoc16
  | unroll16
  | reassoc4x4
  | reassoc2x8
  | reassoc8x2
  | reTree4x1
  | reTree4x4
  | reTree8x1
  | reTree8x2
  | reTree16x1
  deriving DecidableEq

def GenOption.size : GenOption → ℕ
  | .base => 0
  | .reassoc2 | .unroll2 | .reassoc8x2 | .reTree8x2 => 2
  | .reassoc4 | .unroll4 | .reassoc4x4 | .reTree4x4 => 4
  | .reassoc8 | .unroll8 | .reassoc2x8 => 8
  | .reassoc16 | .unroll16 => 16
  | .reTree4x1 | .reTree8x1 | .reTree16x1 => 1

/-- The loop of the method `test`. -/
def buildTest (option : GenOption) : Loop Name :=
  match option with
  | .base =>
      { stride := 1
        body := [.var .plainV (.element 0), .assign .result (.max .plainV .result)] }
  | .reassoc2 | .reassoc4 | .reassoc8 | .reassoc16 => reassoc option.size
  | .unroll2 | .unroll4 | .unroll8 | .unroll16 => unroll option.size
  | .reassoc4x4 => reassocBy option.size option.size
  | .reassoc2x8 => reassocBy option.size (option.size / 4)
  | .reassoc8x2 => reassocBy option.size (option.size * 4)
  | .reTree4x1 => reTree option.size (option.size * 4)
  | .reTree4x4 => reTree option.size option.size
  | .reTree8x1 => reTree option.size (option.size * 8)
  | .reTree8x2 => reTree option.size (option.size * 4)
  | .reTree16x1 => reTree option.size (option.size * 16)

/-- What a method returns that starts from `Integer.MIN_VALUE` and runs this loop. -/
def call (loop : Loop Name) (array : LongArray) (fuel : ℕ) : Except Failure ℤ :=
  loop.run .result array fuel 0 intMin

end Colata.ReassocChain
