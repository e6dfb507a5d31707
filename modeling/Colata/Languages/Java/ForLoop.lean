/-
# Loops over an array, block by block

A loop `for (int i = 0; i < array.length; i += stride)` whose straight-line body loads
`array[i + offset]`, takes maxima and updates an accumulator. A body is scoped if it
declares every name once, before its uses. A scoped body runs unless a load is out of
bounds, and then its declarations hold as equations between the values of the names.
-/

import Colata.Languages.Java.Basic
import Mathlib.Data.List.Basic
import Mathlib.Logic.Function.Basic

namespace Colata.Java.ForLoop

/-- The right-hand sides. -/
inductive Expr (ν : Type)
  | element (offset : ℕ)
  | max (left right : ν)
  | copy (name : ν)
  deriving DecidableEq

inductive Statement (ν : Type)
  | var (name : ν) (value : Expr ν)
  | assign (name : ν) (value : Expr ν)
  | comment (text : String)
  deriving DecidableEq

inductive Failure
  | outOfBounds
  | undefined
  | running
  deriving DecidableEq

/-- The values of the names that are in scope. -/
abbrev Env (ν : Type) := ν → Option ℤ

variable {ν : Type}

def Env.get (env : Env ν) (name : ν) : Except Failure ℤ :=
  (env name).elim (.error .undefined) .ok

/-- The names an expression reads. -/
def Expr.uses : Expr ν → List ν
  | .element _ => []
  | .max left right => [left, right]
  | .copy name => [name]

/-- `read` loads the array element at an offset. -/
def Expr.eval (read : ℕ → Except Failure ℤ) (env : Env ν) : Expr ν → Except Failure ℤ
  | .element offset => read offset
  | .max left right => do
      let leftValue ← env.get left
      let rightValue ← env.get right
      .ok (Max.max leftValue rightValue)
  | .copy name => env.get name

/-- The names that are declared, in order. -/
def declared (code : List (Statement ν)) : List ν :=
  code.filterMap fun
    | .var name _ => some name
    | _ => none

/-- The names that are assigned to after their declaration. -/
def assigned (code : List (Statement ν)) : List ν :=
  code.filterMap fun
    | .assign name _ => some name
    | _ => none

/-- The offsets that are loaded, in order. -/
def offsets (code : List (Statement ν)) : List ℕ :=
  code.filterMap fun
    | .var _ (.element offset) => some offset
    | .assign _ (.element offset) => some offset
    | _ => none

/-- Every name is declared once, and before it is used or assigned to, where some names
are known beforehand. -/
def Scoped : List ν → List (Statement ν) → Prop
  | _, [] => True
  | known, .var name value :: code =>
      (∀ use ∈ value.uses, use ∈ known) ∧ name ∉ known ∧ Scoped (name :: known) code
  | known, .assign name value :: code =>
      (∀ use ∈ value.uses, use ∈ known) ∧ name ∈ known ∧ Scoped known code
  | known, .comment _ :: code => Scoped known code

section Scoped

variable {known other : List ν} {first second code : List (Statement ν)}

theorem Scoped.congr (h : ∀ name, name ∈ known ↔ name ∈ other) (hscoped : Scoped known code) :
    Scoped other code := by
  induction code generalizing known other with
  | nil => exact trivial
  | cons statement code ih =>
      cases statement with
      | var name value =>
          obtain ⟨huses, hnew, hrest⟩ := hscoped
          refine ⟨fun use huse => (h use).mp (huses use huse), fun hmem => hnew ((h name).mpr hmem),
            ih (fun next => ?_) hrest⟩
          rw [List.mem_cons, List.mem_cons, h]
      | assign name value =>
          obtain ⟨huses, hold, hrest⟩ := hscoped
          exact ⟨fun use huse => (h use).mp (huses use huse), (h name).mp hold, ih h hrest⟩
      | comment text => exact ih h hscoped

@[simp]
theorem declared_append : declared (first ++ second) = declared first ++ declared second :=
  List.filterMap_append

@[simp]
theorem assigned_append : assigned (first ++ second) = assigned first ++ assigned second :=
  List.filterMap_append

@[simp]
theorem offsets_append : offsets (first ++ second) = offsets first ++ offsets second :=
  List.filterMap_append

theorem scoped_append :
    Scoped known (first ++ second) ↔ Scoped known first ∧ Scoped (declared first ++ known) second := by
  induction first generalizing known with
  | nil => exact (and_iff_right trivial).symm
  | cons statement first ih =>
      cases statement with
      | var name value =>
          have hmem : ∀ next, next ∈ declared first ++ name :: known ↔
              next ∈ declared (.var name value :: first) ++ known := by
            intro next
            simp only [declared, List.filterMap_cons, List.mem_append, List.mem_cons]
            tauto
          have hsecond : Scoped (declared first ++ name :: known) second ↔
              Scoped (declared (.var name value :: first) ++ known) second :=
            ⟨Scoped.congr hmem, Scoped.congr fun next => (hmem next).symm⟩
          rw [List.cons_append, Scoped, ih, hsecond, Scoped]
          simp only [and_assoc]
      | assign name value =>
          rw [List.cons_append, Scoped, ih, Scoped]
          simp only [and_assoc]
          rfl
      | comment text => exact ih

/-- A scoped body declares no known name. -/
theorem Scoped.notMem_declared (hscoped : Scoped known code) {name : ν} (hname : name ∈ known) :
    name ∉ declared code := by
  induction code generalizing known with
  | nil => exact List.not_mem_nil
  | cons statement code ih =>
      cases statement with
      | comment text => exact ih hscoped hname
      | var other value =>
          obtain ⟨_, hnew, hrest⟩ := hscoped
          simp only [declared, List.filterMap_cons, List.mem_cons, not_or]
          exact ⟨fun heq => hnew (heq ▸ hname), ih hrest (List.mem_cons_of_mem other hname)⟩
      | assign other value => exact ih hscoped.2.2 hname

end Scoped

/-- A row of declarations. -/
def declarations (count : ℕ) (name : ℕ → ν) (value : ℕ → Expr ν) : List (Statement ν) :=
  (List.range count).map fun j => .var (name j) (value j)

section Declarations

variable {known : List ν} {count : ℕ} {name : ℕ → ν} {value : ℕ → Expr ν}

theorem declarations_succ : declarations (count + 1) name value =
    declarations count name value ++ [.var (name count) (value count)] := by
  rw [declarations, List.range_succ, List.map_append]
  rfl

theorem declared_declarations :
    declared (declarations count name value) = (List.range count).map name := by
  rw [declared, declarations, List.filterMap_map, ← List.filterMap_eq_map]
  rfl

theorem assigned_declarations : assigned (declarations count name value) = [] := by
  rw [assigned, declarations, List.filterMap_map, List.filterMap_eq_nil_iff]
  exact fun _ _ => rfl

theorem mem_offsets_declarations {offset : ℕ} :
    offset ∈ offsets (declarations count name value) ↔ ∃ j < count, value j = .element offset := by
  rw [offsets, declarations, List.filterMap_map, List.mem_filterMap]
  simp only [List.mem_range, Function.comp_apply]
  refine exists_congr fun j => and_congr_right fun _ => ?_
  cases value j <;> simp

/-- A row is scoped if its names are new and different, and each value uses known names
and names that come before it. -/
theorem scoped_declarations (hnew : ∀ j < count, name j ∉ known)
    (hinjective : ∀ i j, name i = name j → i = j)
    (huses : ∀ j < count, ∀ use ∈ (value j).uses, use ∈ known ∨ ∃ i < j, use = name i) :
    Scoped known (declarations count name value) := by
  induction count with
  | zero => exact trivial
  | succ count ih =>
      rw [declarations_succ, scoped_append]
      constructor
      · exact ih (fun j hj => hnew j (Nat.lt_succ_of_lt hj))
          fun j hj => huses j (Nat.lt_succ_of_lt hj)
      · rw [declared_declarations]
        refine ⟨fun use huse => ?_, ?_, trivial⟩
        · rw [List.mem_append, List.mem_map]
          cases huses count (Nat.lt_succ_self count) use huse with
          | inl hknown => exact Or.inr hknown
          | inr hearlier =>
              obtain ⟨i, hi, heq⟩ := hearlier
              exact Or.inl ⟨i, List.mem_range.mpr hi, heq.symm⟩
        · rw [List.mem_append, List.mem_map, not_or]
          refine ⟨fun hmem => ?_, hnew count (Nat.lt_succ_self count)⟩
          obtain ⟨i, hi, heq⟩ := hmem
          rw [List.mem_range, hinjective i count heq] at hi
          exact absurd hi (Nat.lt_irrefl count)

end Declarations

/-! ## Running a body -/

/-- The names have values. -/
def Bound (env : Env ν) (known : List ν) : Prop := ∀ name ∈ known, ∃ x, env name = some x

theorem Env.get_eq_ok {env : Env ν} {name : ν} {x : ℤ} (h : env name = some x) :
    env.get name = .ok x := by
  rw [Env.get, h, Option.elim_some]

/-- An expression over names with values has one unless it loads out of bounds. -/
theorem Expr.eval_total {read : ℕ → Except Failure ℤ} {env : Env ν} {value : Expr ν}
    (hbound : Bound env value.uses)
    (hread : ∀ offset, value = .element offset →
      (∃ x, read offset = .ok x) ∨ read offset = .error .outOfBounds) :
    (∃ x, value.eval read env = .ok x ∧ ∀ offset, value = .element offset →
      ∃ y, read offset = .ok y) ∨
    (value.eval read env = .error .outOfBounds ∧ ∃ offset, value = .element offset ∧
      read offset = .error .outOfBounds) := by
  cases value with
  | element offset =>
      cases hread offset rfl with
      | inl hok =>
          obtain ⟨x, hx⟩ := hok
          refine Or.inl ⟨x, hx, fun other hother => ?_⟩
          cases hother
          exact ⟨x, hx⟩
      | inr herror => exact Or.inr ⟨herror, offset, rfl, herror⟩
  | max left right =>
      obtain ⟨x, hx⟩ := hbound left List.mem_cons_self
      obtain ⟨y, hy⟩ := hbound right (List.mem_cons_of_mem left List.mem_cons_self)
      refine Or.inl ⟨Max.max x y, ?_, fun _ hother => nomatch hother⟩
      rw [Expr.eval, Env.get_eq_ok hx, Env.get_eq_ok hy]
      rfl
  | copy name =>
      obtain ⟨x, hx⟩ := hbound name List.mem_cons_self
      exact Or.inl ⟨x, Env.get_eq_ok hx, fun _ hother => nomatch hother⟩

/-- A value depends on the names that are read only. -/
theorem Expr.eval_congr {read : ℕ → Except Failure ℤ} {env other : Env ν} {value : Expr ν}
    (h : ∀ use ∈ value.uses, env use = other use) :
    value.eval read env = value.eval read other := by
  cases value with
  | element offset => rfl
  | max left right =>
      rw [Expr.eval, Expr.eval, Env.get, Env.get, Env.get, Env.get, h left (by simp [uses]),
        h right (by simp [uses])]
  | copy name => rw [Expr.eval, Expr.eval, Env.get, Env.get, h name (by simp [uses])]

/-- The declarations hold as equations between the values of the names. -/
def Solves (read : ℕ → Except Failure ℤ) (code : List (Statement ν)) (final : Env ν) : Prop :=
  ∀ name value, .var name value ∈ code → ∃ x, value.eval read final = .ok x ∧ final name = some x

section Solves

variable {read : ℕ → Except Failure ℤ} {code : List (Statement ν)} {final : Env ν}

theorem Solves.element (h : Solves read code final) {name : ν} {offset : ℕ} {x : ℤ}
    (hmem : .var name (.element offset) ∈ code) (hx : read offset = .ok x) :
    final name = some x := by
  obtain ⟨y, hy, hname⟩ := h _ _ hmem
  rw [Expr.eval, hx] at hy
  cases hy
  exact hname

theorem Solves.max (h : Solves read code final) {name left right : ν} {x y : ℤ}
    (hmem : .var name (.max left right) ∈ code) (hx : final left = some x)
    (hy : final right = some y) : final name = some (Max.max x y) := by
  obtain ⟨z, hz, hname⟩ := h _ _ hmem
  rw [Expr.eval, Env.get_eq_ok hx, Env.get_eq_ok hy] at hz
  cases hz
  exact hname

end Solves

variable [DecidableEq ν]

def Statement.exec (read : ℕ → Except Failure ℤ) (env : Env ν) :
    Statement ν → Except Failure (Env ν)
  | .var name value => do
      let result ← value.eval read env
      .ok (Function.update env name (some result))
  | .assign name value => do
      let result ← value.eval read env
      .ok (Function.update env name (some result))
  | .comment _ => .ok env

def exec (read : ℕ → Except Failure ℤ) (env : Env ν) (code : List (Statement ν)) :
    Except Failure (Env ν) :=
  code.foldlM (Statement.exec read) env

section Exec

variable {read : ℕ → Except Failure ℤ} {env final : Env ν} {known : List ν}
  {first second code : List (Statement ν)}

theorem exec_append :
    exec read env (first ++ second) = exec read env first >>= fun next => exec read next second :=
  List.foldlM_append

theorem exec_cons (statement : Statement ν) :
    exec read env (statement :: code) =
      statement.exec read env >>= fun next => exec read next code :=
  List.foldlM_cons

/-- A declaration or an assignment that runs sets its name to the value. -/
theorem exec_eq_ok {statement : Statement ν} {name : ν} {value : Expr ν}
    (hstatement : statement = .var name value ∨ statement = .assign name value) :
    statement.exec read env = .ok final ↔
      ∃ x, value.eval read env = .ok x ∧ Function.update env name (some x) = final := by
  have hexec : statement.exec read env =
      value.eval read env >>= fun x => .ok (Function.update env name (some x)) := by
    cases hstatement with
    | inl h => rw [h]; rfl
    | inr h => rw [h]; rfl
  rw [hexec, bind_eq_ok]
  simp only [Except.ok.injEq]

theorem Bound.update (h : Bound env known) (name : ν) (x : ℤ) :
    Bound (Function.update env name (some x)) (name :: known) := by
  intro next hnext
  by_cases hself : next = name
  · exact ⟨x, by rw [hself, Function.update_self]⟩
  · rw [Function.update_of_ne hself]
    exact h next ((List.mem_cons.mp hnext).resolve_left hself)

/-- The code runs within bounds and gives these names values, or loads out of bounds. -/
def Runs (read : ℕ → Except Failure ℤ) (env : Env ν) (code : List (Statement ν))
    (known : List ν) : Prop :=
  (∃ final, exec read env code = .ok final ∧ Bound final known ∧
    ∀ offset ∈ offsets code, ∃ x, read offset = .ok x) ∨
  (exec read env code = .error .outOfBounds ∧
    ∃ offset ∈ offsets code, read offset = .error .outOfBounds)

theorem Runs.mono {other : List ν} (h : Runs read env code known)
    (hsubset : ∀ name ∈ other, name ∈ known) : Runs read env code other := by
  cases h with
  | inl hok =>
      obtain ⟨final, hexec, hbound, hloads⟩ := hok
      exact Or.inl ⟨final, hexec, fun name hname => hbound name (hsubset name hname), hloads⟩
  | inr herror => exact Or.inr herror

theorem Runs.append {middle last : List ν} (hfirst : Runs read env first middle)
    (hsecond : ∀ next, Bound next middle → Runs read next second last) :
    Runs read env (first ++ second) last := by
  unfold Runs
  rw [exec_append, offsets_append]
  cases hfirst with
  | inr herror =>
      obtain ⟨hexec, offset, hoffset, hread⟩ := herror
      exact Or.inr ⟨by rw [hexec]; rfl, offset, List.mem_append_left _ hoffset, hread⟩
  | inl hok =>
      obtain ⟨next, hexec, hbound, hloads⟩ := hok
      rw [hexec]
      cases hsecond next hbound with
      | inr herror =>
          obtain ⟨hrest, offset, hoffset, hread⟩ := herror
          exact Or.inr ⟨hrest, offset, List.mem_append_right _ hoffset, hread⟩
      | inl hok =>
          obtain ⟨final, hrest, hfinal, hrestLoads⟩ := hok
          refine Or.inl ⟨final, hrest, hfinal, fun offset hoffset => ?_⟩
          cases List.mem_append.mp hoffset with
          | inl hmem => exact hloads offset hmem
          | inr hmem => exact hrestLoads offset hmem

/-- A declaration or an assignment gives a value to its name. -/
theorem runs_singleton {statement : Statement ν} {name : ν} {value : Expr ν}
    (hstatement : statement = .var name value ∨ statement = .assign name value)
    (huses : ∀ use ∈ value.uses, use ∈ known) (hbound : Bound env known)
    (hread : ∀ offset, (∃ x, read offset = .ok x) ∨ read offset = .error .outOfBounds) :
    Runs read env [statement] (name :: known) := by
  have hoffsets : ∀ offset, offset ∈ offsets [statement] ↔ value = .element offset := by
    intro offset
    cases value <;> cases hstatement <;> simp_all [offsets, eq_comm]
  have hexec : exec read env [statement] =
      value.eval read env >>= fun x => .ok (Function.update env name (some x)) := by
    cases hstatement with
    | inl h =>
        rw [h, exec_cons, Statement.exec]
        cases value.eval read env <;> rfl
    | inr h =>
        rw [h, exec_cons, Statement.exec]
        cases value.eval read env <;> rfl
  unfold Runs
  rw [hexec]
  cases Expr.eval_total (fun use huse => hbound use (huses use huse)) fun offset _ => hread offset with
  | inl hok =>
      obtain ⟨x, hx, hloads⟩ := hok
      exact Or.inl ⟨_, by rw [hx]; rfl, hbound.update name x,
        fun offset hoffset => hloads offset ((hoffsets offset).mp hoffset)⟩
  | inr herror =>
      obtain ⟨heval, offset, hoffset, hfail⟩ := herror
      exact Or.inr ⟨by rw [heval]; rfl, offset, (hoffsets offset).mpr hoffset, hfail⟩

/-- A scoped body runs, and all its names have values, unless a load is out of bounds. -/
theorem Scoped.runs (hscoped : Scoped known code) (hbound : Bound env known)
    (hread : ∀ offset, (∃ x, read offset = .ok x) ∨ read offset = .error .outOfBounds) :
    Runs read env code (declared code ++ known) := by
  induction code generalizing known env with
  | nil => exact Or.inl ⟨env, rfl, hbound, fun _ hmem => nomatch hmem⟩
  | cons statement code ih =>
      cases statement with
      | comment text => exact ih hscoped hbound
      | var name value =>
          obtain ⟨huses, hnew, hrest⟩ := hscoped
          have hfirst : Runs read env [.var name value] (name :: known) :=
            runs_singleton (Or.inl rfl) huses hbound hread
          apply (hfirst.append fun next hnext => ih hrest hnext).mono
          intro other hother
          simp only [declared, List.filterMap_cons, List.mem_append, List.mem_cons] at hother ⊢
          tauto
      | assign name value =>
          obtain ⟨huses, hold, hrest⟩ := hscoped
          have hfirst : Runs read env [.assign name value] (name :: known) :=
            runs_singleton (Or.inr rfl) huses hbound hread
          apply (hfirst.append fun next hnext =>
            ih hrest fun other hother => hnext other (List.mem_cons_of_mem name hother)).mono
          exact fun other hother => hother

/-- Names that are neither declared nor assigned keep their values. -/
theorem exec_of_notMem (hexec : exec read env code = .ok final) {name : ν}
    (hdeclared : name ∉ declared code) (hassigned : name ∉ assigned code) :
    final name = env name := by
  induction code generalizing env with
  | nil =>
      cases hexec
      rfl
  | cons statement code ih =>
      rw [exec_cons, bind_eq_ok] at hexec
      obtain ⟨next, hstep, hrest⟩ := hexec
      cases statement with
      | comment text =>
          cases hstep
          exact ih hrest hdeclared hassigned
      | var other value =>
          obtain ⟨x, _, rfl⟩ := (exec_eq_ok (Or.inl rfl)).mp hstep
          simp only [declared, List.filterMap_cons, List.mem_cons, not_or] at hdeclared
          rw [ih hrest hdeclared.2 hassigned, Function.update_of_ne hdeclared.1]
      | assign other value =>
          obtain ⟨x, _, rfl⟩ := (exec_eq_ok (Or.inr rfl)).mp hstep
          simp only [assigned, List.filterMap_cons, List.mem_cons, not_or] at hassigned
          rw [ih hrest hdeclared hassigned.2, Function.update_of_ne hassigned.1]

/-- A scoped body without assignments solves its equations. -/
theorem Scoped.solves (hscoped : Scoped known code) (hassigned : assigned code = [])
    (hexec : exec read env code = .ok final) : Solves read code final := by
  intro name value hmem
  induction code generalizing known env with
  | nil => cases hmem
  | cons statement code ih =>
      rw [exec_cons, bind_eq_ok] at hexec
      obtain ⟨next, hstep, hrest⟩ := hexec
      cases statement with
      | comment text =>
          cases List.mem_cons.mp hmem with
          | inl heq => cases heq
          | inr hmem => exact ih hscoped hassigned hrest hmem
      | assign other value =>
          simp [assigned] at hassigned
      | var other first =>
          obtain ⟨huses, hnew, hscope⟩ := hscoped
          have hnone : assigned code = [] := hassigned
          cases List.mem_cons.mp hmem with
          | inr hmem => exact ih hscope hnone hrest hmem
          | inl heq =>
              cases heq
              obtain ⟨x, hx, rfl⟩ := (exec_eq_ok (Or.inl rfl)).mp hstep
              -- Nothing later changes the name or what its value was computed from.
              have hkeeps : ∀ known' ∈ name :: known,
                  final known' = Function.update env name (some x) known' := by
                intro known' hknown
                apply exec_of_notMem hrest (hscope.notMem_declared hknown)
                rw [hnone]
                exact List.not_mem_nil
              refine ⟨x, ?_, ?_⟩
              · rw [← hx]
                apply Expr.eval_congr
                intro use huse
                have hknown := huses use huse
                rw [hkeeps use (List.mem_cons_of_mem name hknown), Function.update_of_ne]
                exact fun heq => hnew (heq ▸ hknown)
              · rw [hkeeps name List.mem_cons_self, Function.update_self]

end Exec

/-! ## Running a loop -/

/-- A Java array has fewer than `2 ^ 31` elements. -/
structure LongArray where
  values : List ℤ
  length_lt : values.length < 2 ^ 31

/-- `array[i + offset]`. -/
def LongArray.read (array : LongArray) (i : ℤ) (offset : ℕ) : Except Failure ℤ :=
  if 0 ≤ wrapInt (i + offset) then
    array.values[(wrapInt (i + offset)).toNat]?.elim (.error .outOfBounds) .ok
  else .error .outOfBounds

/-- `for (int i = 0; i < array.length; i += stride) { body }`. -/
structure Loop (ν : Type) where
  stride : ℕ
  body : List (Statement ν)

/-- The environment in which only the accumulator is in scope. -/
def start (accumulator : ν) (result : ℤ) : Env ν :=
  Function.update (fun _ => none) accumulator (some result)

/-- What the accumulator holds when the loop is left. The names that the body declares go
out of scope after each turn. -/
def Loop.run (loop : Loop ν) (accumulator : ν) (array : LongArray) :
    ℕ → ℤ → ℤ → Except Failure ℤ
  | 0, _, _ => .error .running
  | fuel + 1, i, result =>
      if i < array.values.length then do
        let env ← exec (array.read i) (start accumulator result) loop.body
        let next ← env.get accumulator
        loop.run accumulator array fuel (wrapInt (i + loop.stride)) next
      else .ok result

/-- One turn of the loop reduces a block of `stride` elements to their maximum. -/
structure Loop.ReducesBlock (loop : Loop ν) (accumulator : ν) : Prop where
  stride_pos : 0 < loop.stride
  isScoped : Scoped [accumulator] loop.body
  offsets : ∀ offset, offset ∈ offsets loop.body ↔ offset < loop.stride
  reduces : ∀ (read : ℕ → Except Failure ℤ) (block : ℕ → ℤ) (result : ℤ) (final : Env ν),
    (∀ offset < loop.stride, read offset = .ok (block offset)) →
    exec read (start accumulator result) loop.body = .ok final →
      final accumulator = some (((List.range loop.stride).map block).foldl max result)

section Run

variable {loop : Loop ν} {accumulator : ν} {array : LongArray}

theorem LongArray.read_eq (array : LongArray) {i offset : ℕ} (h : i + offset < 2 ^ 31) :
    array.read i offset = array.values[i + offset]?.elim (.error .outOfBounds) .ok := by
  have hwrap : wrapInt ((i : ℤ) + offset) = ((i + offset : ℕ) : ℤ) := by
    rw [wrapInt_of_bounds (by omega) (by omega)]
    push_cast
    rfl
  rw [LongArray.read, hwrap, if_pos (Int.natCast_nonneg _), Int.toNat_natCast]

theorem LongArray.read_total (array : LongArray) (i : ℤ) (offset : ℕ) :
    (∃ x, array.read i offset = .ok x) ∨ array.read i offset = .error .outOfBounds := by
  unfold LongArray.read
  split_ifs
  · cases array.values[(wrapInt (i + offset)).toNat]? with
    | none => exact Or.inr rfl
    | some x => exact Or.inl ⟨x, rfl⟩
  · exact Or.inr rfl

theorem bound_start (accumulator : ν) (result : ℤ) : Bound (start accumulator result) [accumulator] := by
  intro name hname
  obtain rfl : name = accumulator := List.mem_singleton.mp hname
  exact ⟨result, Function.update_self _ _ _⟩

/-- A block within the array is loaded element by element. -/
theorem LongArray.map_range_eq (array : LongArray) (i count : ℕ)
    (h : i + count ≤ array.values.length) :
    (List.range count).map (fun offset => array.values[i + offset]?.getD 0) =
      (array.values.drop i).take count := by
  apply List.ext_getElem?
  intro offset
  rw [List.getElem?_take, List.getElem?_map]
  by_cases hoffset : offset < count
  · have hin : i + offset < array.values.length := by omega
    rw [if_pos hoffset, List.getElem?_range hoffset, List.getElem?_drop, Option.map_some,
      List.getElem?_eq_getElem hin, Option.getD_some]
  · rw [if_neg hoffset, List.getElem?_eq_none (by simpa using hoffset), Option.map_none]

/-- A turn within the array takes a block into the result. -/
theorem Loop.ReducesBlock.run_block (h : loop.ReducesBlock accumulator) (fuel : ℕ) {i : ℕ}
    (result : ℤ) (hblock : i + loop.stride ≤ array.values.length) :
    loop.run accumulator array (fuel + 1) i result =
      loop.run accumulator array fuel ((i + loop.stride : ℕ) : ℤ)
        (((array.values.drop i).take loop.stride).foldl max result) := by
  have hlength := array.length_lt
  have hstride := h.stride_pos
  have hread : ∀ offset < loop.stride,
      array.read i offset = .ok (array.values[i + offset]?.getD 0) := by
    intro offset hoffset
    rw [array.read_eq (by omega), List.getElem?_eq_getElem (by omega), Option.elim_some,
      Option.getD_some]
  have hnext : wrapInt ((i : ℤ) + loop.stride) = ((i + loop.stride : ℕ) : ℤ) := by
    rw [wrapInt_of_bounds (by omega) (by omega), Nat.cast_add]
  cases h.isScoped.runs (bound_start accumulator result) (array.read_total i) with
  | inr herror =>
      obtain ⟨_, offset, hoffset, hfail⟩ := herror
      rw [hread offset ((h.offsets offset).mp hoffset)] at hfail
      cases hfail
  | inl hok =>
      obtain ⟨final, hexec, _, _⟩ := hok
      have hfinal := h.reduces _ _ result final hread hexec
      rw [array.map_range_eq i loop.stride hblock] at hfinal
      rw [Loop.run, if_pos (by omega), hexec, ok_bind, Env.get_eq_ok hfinal, ok_bind, hnext]

/-- A turn that reaches beyond the array loads out of bounds. -/
theorem Loop.ReducesBlock.run_partial (h : loop.ReducesBlock accumulator) (fuel : ℕ) {i : ℕ}
    (result : ℤ) (hi : i < array.values.length) (hbeyond : array.values.length < i + loop.stride) :
    loop.run accumulator array (fuel + 1) i result = .error .outOfBounds := by
  have hlength := array.length_lt
  have hload : array.values.length - i ∈ ForLoop.offsets loop.body :=
    (h.offsets _).mpr (by omega)
  rw [Loop.run, if_pos (by omega)]
  cases h.isScoped.runs (bound_start accumulator result) (array.read_total i) with
  | inr herror =>
      rw [herror.1]
      rfl
  | inl hok =>
      obtain ⟨_, _, _, hloads⟩ := hok
      obtain ⟨x, hx⟩ := hloads _ hload
      rw [array.read_eq (by omega), List.getElem?_eq_none (by omega)] at hx
      cases hx

/-- From the start of a block on, the loop reduces the rest of the array if that consists
of whole blocks, and loads out of bounds if not. -/
theorem Loop.ReducesBlock.run_from (h : loop.ReducesBlock accumulator) {fuel i : ℕ} (result : ℤ)
    (hi : i ≤ array.values.length) (hfuel : array.values.length - i < fuel) :
    loop.run accumulator array fuel i result =
      if loop.stride ∣ array.values.length - i then
        .ok ((array.values.drop i).foldl max result)
      else .error .outOfBounds := by
  have hstride := h.stride_pos
  induction fuel generalizing i result with
  | zero => exact absurd hfuel (Nat.not_lt_zero _)
  | succ fuel ih =>
      by_cases hdone : i = array.values.length
      · rw [Loop.run, if_neg (by omega), if_pos (by rw [hdone, Nat.sub_self]; exact dvd_zero _),
          hdone, List.drop_length, List.foldl_nil]
      · by_cases hblock : i + loop.stride ≤ array.values.length
        · have hsplit : array.values.length - i =
              array.values.length - (i + loop.stride) + loop.stride := by omega
          have hfold : (array.values.drop (i + loop.stride)).foldl max
              (((array.values.drop i).take loop.stride).foldl max result) =
                (array.values.drop i).foldl max result := by
            rw [← List.foldl_append, ← List.drop_drop, List.take_append_drop]
          rw [h.run_block fuel result hblock, ih _ hblock (by omega), hfold, hsplit]
          simp only [Nat.dvd_add_self_right]
        · have hnot : ¬ loop.stride ∣ array.values.length - i :=
            Nat.not_dvd_of_pos_of_lt (by omega) (by omega)
          rw [h.run_partial fuel result (by omega) (by omega), if_neg hnot]

/-- Run from the start, the loop reduces an array of whole blocks. -/
theorem Loop.ReducesBlock.run_eq_ok (h : loop.ReducesBlock accumulator)
    (hdvd : loop.stride ∣ array.values.length) {fuel : ℕ} (hfuel : array.values.length < fuel)
    (result : ℤ) :
    loop.run accumulator array fuel 0 result = .ok (array.values.foldl max result) := by
  have hrun := h.run_from result (Nat.zero_le _) (by rwa [Nat.sub_zero])
  rw [Nat.sub_zero, if_pos hdvd, List.drop_zero] at hrun
  exact hrun

/-- On any other array it loads out of bounds. -/
theorem Loop.ReducesBlock.run_eq_error (h : loop.ReducesBlock accumulator)
    (hdvd : ¬ loop.stride ∣ array.values.length) {fuel : ℕ} (hfuel : array.values.length < fuel)
    (result : ℤ) : loop.run accumulator array fuel 0 result = .error .outOfBounds := by
  have hrun := h.run_from result (Nat.zero_le _) (by rwa [Nat.sub_zero])
  rw [Nat.sub_zero, if_neg hdvd] at hrun
  exact hrun

end Run

end Colata.Java.ForLoop
