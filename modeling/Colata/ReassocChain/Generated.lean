/-
# The generated methods agree with the expected one

The chain and the tree are two ways to combine the elements of a block, and both leave
its fold, as the maximum is associative and commutative. So every generated loop
reduces an array of whole strides to its maximum, as the method `expect` does, and
loads out of bounds on any other array.
-/

import Colata.Math.Reduction
import Colata.ReassocChain.Blocks

namespace Colata.ReassocChain

open Colata.Math Colata.Java Colata.Java.ForLoop

/-! ## Loading and combining -/

/-- Code that combines the loaded elements of a block into a partial maximum. -/
structure Combines (start count low high last : ℕ) (code : Code) : Prop where
  isScoped : ∀ known, (∀ k, start ≤ k → k < start + count → .v k ∈ known) →
    (∀ k, low ≤ k → .t k ∉ known) → Scoped known code
  assigned : assigned code = []
  declared : ∀ name ∈ declared code, ∃ k, name = .t k ∧ low ≤ k ∧ k < high
  offsets : offsets code = []
  isDeclared : .t last ∈ ForLoop.declared code
  value : ∀ (read : ℕ → Except Failure ℤ) (f : ℕ → ℤ) (final : Env Name),
    (∀ k, start ≤ k → k < start + count → final (.v k) = some (f k)) →
      Solves read code final → ∃ x, final (.t last) = some x ∧ IsPartialMax f start count x

/-- `var v$L = array[i + $L]` for the elements of a block. -/
def loads (start count : ℕ) : Code := (List.range count).map fun j => load (start + j)

theorem loads_eq (start count : ℕ) :
    loads start count =
      declarations count (fun j => .v (start + j)) fun j => .element (start + j) := rfl

theorem mem_declared_loads {start count : ℕ} {name : Name} :
    name ∈ declared (loads start count) ↔ ∃ k, name = .v k ∧ start ≤ k ∧ k < start + count := by
  rw [loads_eq, declared_declarations, List.mem_map]
  constructor
  · intro h
    obtain ⟨j, hj, rfl⟩ := h
    rw [List.mem_range] at hj
    exact ⟨start + j, rfl, by omega, by omega⟩
  · intro h
    obtain ⟨k, rfl, hk, hlt⟩ := h
    refine ⟨k - start, List.mem_range.mpr (by omega), ?_⟩
    rw [Nat.add_sub_cancel' hk]

theorem scoped_loads {start count : ℕ} {known : List Name} (h : ∀ k, start ≤ k → .v k ∉ known) :
    Scoped known (loads start count) := by
  rw [loads_eq]
  apply scoped_declarations
  · exact fun j _ => h (start + j) (Nat.le_add_right start j)
  · intro i j heq
    have hindex : start + i = start + j := Name.v.inj heq
    omega
  · exact fun j _ use huse => nomatch huse

/-- Loading and combining computes the partial maximum of a block. -/
theorem Combines.computes {start count low high last : ℕ} {code : Code}
    (h : Combines start count low high last code) :
    Computes start count low high last (loads start count ++ code) where
  isScoped := by
    intro known hfresh
    rw [scoped_append]
    refine ⟨scoped_loads hfresh.1, h.isScoped _ ?_ ?_⟩
    · exact fun k hk hlt => List.mem_append_left _ (mem_declared_loads.mpr ⟨k, rfl, hk, hlt⟩)
    · intro k hk hmem
      cases List.mem_append.mp hmem with
      | inl hload =>
          obtain ⟨_, heq, _⟩ := mem_declared_loads.mp hload
          cases heq
      | inr hknown => exact hfresh.2 k hk hknown
  assigned := by
    rw [assigned_append, loads_eq, assigned_declarations, h.assigned]
    rfl
  declared := by
    intro name hname
    rw [declared_append] at hname
    cases List.mem_append.mp hname with
    | inl hload => exact Or.inl (mem_declared_loads.mp hload)
    | inr hcode => exact Or.inr (h.declared name hcode)
  offsets := by
    intro offset
    rw [offsets_append, h.offsets, List.append_nil, loads_eq, mem_offsets_declarations]
    constructor
    · intro hoffset
      obtain ⟨j, hj, heq⟩ := hoffset
      cases heq
      exact ⟨by omega, by omega⟩
    · intro hoffset
      exact ⟨offset - start, by omega, by rw [Nat.add_sub_cancel' hoffset.1]⟩
  isDeclared := by
    rw [declared_append]
    exact List.mem_append_right _ h.isDeclared
  value := by
    intro read f final hread hsolves
    apply h.value read f final
    · intro k hk hlt
      have hload : .var (.v k) (.element k) ∈ loads start count ++ code := by
        apply List.mem_append_left
        exact List.mem_map.mpr ⟨k - start, List.mem_range.mpr (by omega), by
          rw [Nat.add_sub_cancel' hk]; rfl⟩
      exact hsolves.element hload (hread k hk hlt)
    · exact fun name value hmem => hsolves name value (List.mem_append_right _ hmem)

/-- A comment computes nothing. -/
theorem Combines.comment {start count low high last : ℕ} {code : Code}
    (h : Combines start count low high last code) (text : String) :
    Combines start count low high last (code ++ [.comment text]) where
  isScoped := fun known hloaded hfresh =>
    scoped_append.mpr ⟨h.isScoped known hloaded hfresh, trivial⟩
  assigned := by
    rw [assigned_append, h.assigned]
    rfl
  declared := by
    intro name hname
    rw [declared_append] at hname
    exact h.declared name ((List.mem_append.mp hname).resolve_right List.not_mem_nil)
  offsets := by
    rw [offsets_append, h.offsets]
    rfl
  isDeclared := by
    rw [declared_append]
    exact List.mem_append_left _ h.isDeclared
  value := fun read f final hloaded hsolves =>
    h.value read f final hloaded fun name value hmem =>
      hsolves name value (List.mem_append_left _ hmem)

/-! ## Chains -/

/-- The right-hand sides of the links of a chain. -/
def chainValue (index : ℕ) : ℕ → Expr Name
  | 0 => .max (.v (index + 1)) (.v index)
  | j + 1 => .max (.v (index + (j + 1) + 1)) (.t (index + j))

/-- The chain of maxima over a block. -/
def chain (index inner : ℕ) : Code :=
  .var (.t index) (.max (.v (index + 1)) (.v index)) ::
    (List.range' 1 (inner - 1 - 1)).map fun j => link (index + j) (index + j + 1) (index + j - 1)

theorem chain_eq (index : ℕ) {inner : ℕ} (h : 2 ≤ inner) :
    chain index inner =
      declarations (inner - 1) (fun j => .t (index + j)) (chainValue index) := by
  obtain ⟨count, rfl⟩ := Nat.exists_eq_add_of_le' h
  show chain index (count + 2) = declarations (count + 1) _ _
  rw [declarations, List.range_succ_eq_map, List.map_cons, List.map_map, chain,
    List.range'_eq_map_range, List.map_map]
  congr 1
  apply List.map_congr_left
  intro j _
  show link (index + (1 + j)) (index + (1 + j) + 1) (index + (1 + j) - 1) =
    .var (.t (index + (j + 1))) (chainValue index (j + 1))
  rw [link, chainValue, Nat.add_comm 1 j]
  rfl

/-- The names of a chain hold the partial maxima of ever more elements. -/
theorem exists_chain_value {read : ℕ → Except Failure ℤ} {f : ℕ → ℤ} {final : Env Name}
    {index inner : ℕ}
    (hloaded : ∀ k, index ≤ k → k < index + inner → final (.v k) = some (f k))
    (hsolves : Solves read
      (declarations (inner - 1) (fun j => .t (index + j)) (chainValue index)) final)
    {j : ℕ} (hj : j + 2 ≤ inner) :
    ∃ x, final (.t (index + j)) = some x ∧ IsPartialMax f index (j + 2) x := by
  have hmem : ∀ i < inner - 1, .var (.t (index + i)) (chainValue index i) ∈
      declarations (inner - 1) (fun j => .t (index + j)) (chainValue index) :=
    fun i hi => List.mem_map.mpr ⟨i, List.mem_range.mpr hi, rfl⟩
  induction j with
  | zero =>
      exact ⟨_, hsolves.max (hmem 0 (by omega)) (hloaded (index + 1) (by omega) (by omega))
        (hloaded index (by omega) (by omega)), (isPartialMax_one f index).succ⟩
  | succ j ih =>
      obtain ⟨x, hx, hpartial⟩ := ih (by omega)
      exact ⟨_, hsolves.max (hmem (j + 1) (by omega))
        (hloaded (index + (j + 1) + 1) (by omega) (by omega)) hx, hpartial.succ⟩

theorem combines_chain (index : ℕ) {inner : ℕ} (h : 2 ≤ inner) :
    Combines index inner index (index + inner) (index + inner - 2) (chain index inner) := by
  rw [chain_eq index h]
  constructor
  · intro known hloaded hfresh
    apply scoped_declarations
    · exact fun j _ => hfresh (index + j) (Nat.le_add_right index j)
    · intro i j heq
      have hindex : index + i = index + j := Name.t.inj heq
      omega
    · intro j hj use huse
      cases j with
      | zero =>
          simp only [chainValue, Expr.uses, List.mem_cons, List.not_mem_nil, or_false] at huse
          apply Or.inl
          cases huse with
          | inl heq => exact heq ▸ hloaded (index + 1) (by omega) (by omega)
          | inr heq => exact heq ▸ hloaded index (by omega) (by omega)
      | succ j =>
          simp only [chainValue, Expr.uses, List.mem_cons, List.not_mem_nil, or_false] at huse
          cases huse with
          | inl heq => exact Or.inl (heq ▸ hloaded (index + (j + 1) + 1) (by omega) (by omega))
          | inr heq => exact Or.inr ⟨j, Nat.lt_succ_self j, heq⟩
  · exact assigned_declarations
  · intro name hname
    rw [declared_declarations, List.mem_map] at hname
    obtain ⟨j, hj, rfl⟩ := hname
    rw [List.mem_range] at hj
    exact ⟨index + j, rfl, by omega, by omega⟩
  · apply List.eq_nil_iff_forall_not_mem.mpr
    intro offset hoffset
    obtain ⟨j, _, heq⟩ := mem_offsets_declarations.mp hoffset
    cases j <;> cases heq
  · rw [declared_declarations, List.mem_map]
    exact ⟨inner - 2, List.mem_range.mpr (by omega), by rw [Nat.add_sub_assoc h]⟩
  · intro read f final hloaded hsolves
    have hlast := exists_chain_value hloaded hsolves (Nat.sub_add_cancel h).le
    rwa [Nat.sub_add_cancel h, ← Nat.add_sub_assoc h] at hlast

/-! ## Trees -/

/-- A queue with fewer than two names is left as it is. -/
theorem drain_eq_nil {names : List Name} (h : names.length ≤ 1) (nameIndex : ℕ) :
    drain names nameIndex = ([], nameIndex) := by
  match names, h with
  | [], _ => rw [drain]; simp
  | [name], _ => rw [drain]; simp

theorem length_le_one {names : List Name}
    (h : ∀ left right rest, names = left :: right :: rest → False) : names.length ≤ 1 := by
  match names with
  | [] => exact Nat.zero_le 1
  | [name] => exact Nat.le_refl 1
  | left :: right :: rest => exact (h left right rest rfl).elim

theorem drain_snd (names : List Name) (nameIndex : ℕ) :
    (drain names nameIndex).2 = nameIndex + (names.length - 1) := by
  induction names, nameIndex using drain.induct with
  | case1 left right names nameIndex ih =>
      rw [drain, ih, List.length_append, List.length_singleton, List.length_cons, List.length_cons]
      omega
  | case2 names nameIndex h =>
      have hlength := length_le_one h
      rw [drain_eq_nil hlength, Nat.sub_eq_zero_of_le hlength]
      rfl

/-- Two names leave the queue and one joins it. -/
theorem length_drain_step (left right : Name) (names : List Name) (nameIndex : ℕ) :
    (left :: right :: names).length - 1 = (names ++ [Name.t nameIndex]).length - 1 + 1 := by
  rw [List.length_append, List.length_singleton, List.length_cons, List.length_cons]
  omega

/-- A tree declares the next free `t` names. -/
theorem declared_drain (names : List Name) (nameIndex : ℕ) :
    declared (drain names nameIndex).1 =
      (List.range' nameIndex (names.length - 1)).map Name.t := by
  induction names, nameIndex using drain.induct with
  | case1 left right names nameIndex ih =>
      rw [drain, length_drain_step left right names nameIndex, List.range'_succ, List.map_cons,
        ← ih]
      rfl
  | case2 names nameIndex h =>
      have hlength := length_le_one h
      rw [drain_eq_nil hlength, Nat.sub_eq_zero_of_le hlength]
      rfl

theorem assigned_drain (names : List Name) (nameIndex : ℕ) :
    assigned (drain names nameIndex).1 = [] := by
  induction names, nameIndex using drain.induct with
  | case1 left right names nameIndex ih =>
      rw [drain]
      exact ih
  | case2 names nameIndex h =>
      rw [drain_eq_nil (length_le_one h)]
      rfl

theorem offsets_drain (names : List Name) (nameIndex : ℕ) :
    offsets (drain names nameIndex).1 = [] := by
  induction names, nameIndex using drain.induct with
  | case1 left right names nameIndex ih =>
      rw [drain]
      exact ih
  | case2 names nameIndex h =>
      rw [drain_eq_nil (length_le_one h)]
      rfl

/-- The operands of a tree are known: they are in the queue from the start or were put there
after their declaration. -/
theorem scoped_drain {names known : List Name} {nameIndex : ℕ}
    (hknown : ∀ name ∈ names, name ∈ known) (hnew : ∀ k, nameIndex ≤ k → .t k ∉ known) :
    Scoped known (drain names nameIndex).1 := by
  induction names, nameIndex using drain.induct generalizing known with
  | case1 left right names nameIndex ih =>
      rw [drain]
      show _ ∧ _ ∧ Scoped _ _
      refine ⟨?_, hnew nameIndex (Nat.le_refl _), ih ?_ ?_⟩
      · intro use huse
        simp only [Expr.uses, List.mem_cons, List.not_mem_nil, or_false] at huse
        apply hknown use
        cases huse with
        | inl heq => exact heq ▸ List.mem_cons_self
        | inr heq => exact heq ▸ List.mem_cons_of_mem left List.mem_cons_self
      · intro name hname
        cases List.mem_append.mp hname with
        | inl hmem =>
            apply List.mem_cons_of_mem
            exact hknown name (List.mem_cons_of_mem left (List.mem_cons_of_mem right hmem))
        | inr hmem => exact List.mem_singleton.mp hmem ▸ List.mem_cons_self
      · intro k hk hmem
        cases List.mem_cons.mp hmem with
        | inl heq =>
            have hindex : k = nameIndex := Name.t.inj heq
            omega
        | inr hmem => exact hnew k (by omega) hmem
  | case2 names nameIndex h =>
      rw [drain_eq_nil (length_le_one h)]
      exact trivial

theorem exists_value_cons {β : Type} {final : Name → Option β} {name : Name} {names : List Name}
    {values : List β} (h : (name :: names).map final = values.map some) :
    ∃ x rest, values = x :: rest ∧ final name = some x ∧ names.map final = rest.map some := by
  cases values with
  | nil => cases h
  | cons x rest =>
      simp only [List.map_cons, List.cons.injEq] at h
      exact ⟨x, rest, rfl, h⟩

/-- A queue of one name holds the name that was declared last. -/
theorem eq_singleton_of_length_concat (names : List Name) (nameIndex : ℕ)
    (h : (names ++ [Name.t nameIndex]).length = 1) :
    names ++ [.t nameIndex] = [.t (nameIndex + 1 - 1)] := by
  rw [List.length_append, List.length_singleton, Nat.add_eq_right] at h
  rw [List.eq_nil_of_length_eq_zero h, List.nil_append, Nat.add_sub_cancel]

/-- The values of the names in the queue always have the same fold, so that the last name
holds it. -/
theorem exists_drain_value {read : ℕ → Except Failure ℤ} {final : Env Name} {names : List Name}
    {nameIndex : ℕ} {values : List ℤ} (hvalues : names.map final = values.map some)
    (hsolves : Solves read (drain names nameIndex).1 final) (hnames : names ≠ [])
    (hlast : names.length = 1 → names = [.t (nameIndex - 1)]) :
    ∃ x, final (.t (nameIndex + (names.length - 1) - 1)) = some x ∧
      ∀ result, max result x = values.foldl max result := by
  induction names, nameIndex using drain.induct generalizing values with
  | case1 left right names nameIndex ih =>
      obtain ⟨x, rest, rfl, hleft, hvalues⟩ := exists_value_cons hvalues
      obtain ⟨y, rest, rfl, hright, hvalues⟩ := exists_value_cons hvalues
      rw [drain] at hsolves
      have hvalue : final (.t nameIndex) = some (max x y) :=
        hsolves.max List.mem_cons_self hleft hright
      have hnext : (names ++ [Name.t nameIndex]).map final = (rest ++ [max x y]).map some := by
        rw [List.map_append, List.map_append, hvalues, List.map_singleton, List.map_singleton,
          hvalue]
      obtain ⟨z, hz, hfold⟩ := ih hnext
        (fun name value hmem => hsolves name value (List.mem_cons_of_mem _ hmem))
        (List.append_ne_nil_of_right_ne_nil names (List.cons_ne_nil _ _))
        (eq_singleton_of_length_concat names nameIndex)
      refine ⟨z, ?_, fun result => ?_⟩
      · rw [length_drain_step left right names nameIndex, ← hz]
        congr 2
        omega
      · rw [hfold, foldl_append_combined]
  | case2 names nameIndex h =>
      have hlength := length_le_one h
      have hone : names.length = 1 :=
        Nat.le_antisymm hlength (List.length_pos_of_ne_nil hnames)
      rw [hone]
      rw [hlast hone] at hvalues
      obtain ⟨x, rest, rfl, hx, hvalues⟩ := exists_value_cons hvalues
      rw [List.map_nil, eq_comm, List.map_eq_nil_iff] at hvalues
      exact ⟨x, hx, fun _ => by rw [hvalues]; rfl⟩

theorem combines_drain (start nameIndex : ℕ) {inner : ℕ} (h : 2 ≤ inner) :
    Combines start inner nameIndex (nameIndex + (inner - 1)) (nameIndex + (inner - 1) - 1)
      (drain ((List.range inner).map fun j => .v (start + j)) nameIndex).1 := by
  have hlength : ((List.range inner).map fun j => Name.v (start + j)).length = inner := by
    rw [List.length_map, List.length_range]
  constructor
  · intro known hloaded hfresh
    apply scoped_drain _ hfresh
    intro name hname
    obtain ⟨j, hj, rfl⟩ := List.mem_map.mp hname
    rw [List.mem_range] at hj
    exact hloaded (start + j) (Nat.le_add_right start j) (by omega)
  · exact assigned_drain _ _
  · intro name hname
    rw [declared_drain, hlength, List.mem_map] at hname
    obtain ⟨k, hk, rfl⟩ := hname
    rw [List.mem_range'_1] at hk
    exact ⟨k, rfl, hk⟩
  · exact offsets_drain _ _
  · rw [declared_drain, hlength, List.mem_map]
    exact ⟨nameIndex + (inner - 1) - 1, List.mem_range'_1.mpr (by omega), rfl⟩
  · intro read f final hloaded hsolves
    have hvalues : ((List.range inner).map fun j => Name.v (start + j)).map final =
        ((List.range' start inner).map f).map some := by
      rw [List.range'_eq_map_range, List.map_map, List.map_map, List.map_map]
      apply List.map_congr_left
      intro j hj
      rw [List.mem_range] at hj
      exact hloaded (start + j) (Nat.le_add_right start j) (by omega)
    have hvalue := exists_drain_value hvalues hsolves
      (List.ne_nil_of_length_pos (by omega)) (by omega)
    rw [hlength] at hvalue
    exact hvalue

/-! ## The emitted loops -/

theorem reassocByBlock_eq (inner i : ℕ) : reassocByBlock inner i =
    loads (i * inner) inner ++ chain (i * inner) inner ++
      [reduceResult (i * inner + inner - 2)] := by
  simp only [reassocByBlock, loads, chain, List.append_assoc, List.cons_append, List.nil_append]

theorem reassocBy_reducesBlock {outer inner : ℕ} (houter : 1 ≤ outer) (hinner : 2 ≤ inner) :
    (reassocBy outer inner).ReducesBlock .result := by
  have hbound : Monotone fun i => i * inner := fun _ _ h => Nat.mul_le_mul_right inner h
  have hblock : ∀ i < outer, Block (i * inner) inner (i * inner) ((i + 1) * inner)
      (reassocByBlock inner i) := by
    intro i _
    rw [reassocByBlock_eq, Nat.succ_mul]
    exact (combines_chain (i * inner) hinner).computes.block
  exact (Block.flatMap hbound hblock).reducesBlock (Nat.mul_pos houter (by omega))

/-- What one turn of the outer loop of `reTree` emits. -/
def treeBlock (inner i : ℕ) : Code :=
  loads (i * inner) inner ++
    (drain ((List.range inner).map fun j => .v (i * inner + j)) (i * (inner - 1))).1 ++
    [reduceResult (i * (inner - 1) + (inner - 1) - 1)]

/-- The counter of the `t` names moves on by one less than the elements of a block. -/
theorem foldl_reTreeBlock (outer inner : ℕ) :
    (List.range outer).foldl (reTreeBlock inner) ([], 0) =
      ((List.range outer).flatMap (treeBlock inner), outer * (inner - 1)) := by
  induction outer with
  | zero => rw [Nat.zero_mul]; rfl
  | succ outer ih =>
      rw [List.range_succ, List.foldl_append, ih, List.flatMap_append, List.flatMap_singleton,
        List.foldl_cons, List.foldl_nil, reTreeBlock, drain_snd, List.length_map,
        List.length_range, Nat.succ_mul]
      rfl

theorem reTree_reducesBlock {outer inner : ℕ} (houter : 1 ≤ outer) (hinner : 2 ≤ inner) :
    (reTree outer inner).ReducesBlock .result := by
  have hbound : Monotone fun i => i * (inner - 1) := fun _ _ h => Nat.mul_le_mul_right _ h
  have hblock : ∀ i < outer, Block (i * inner) inner (i * (inner - 1)) ((i + 1) * (inner - 1))
      (treeBlock inner i) := by
    intro i _
    rw [treeBlock, Nat.succ_mul]
    exact (combines_drain (i * inner) (i * (inner - 1)) hinner).computes.block
  rw [reTree, foldl_reTreeBlock]
  exact (Block.flatMap hbound hblock).reducesBlock (Nat.mul_pos houter (by omega))

theorem reassoc_body (size : ℕ) (h : 2 ≤ size) : (reassoc size).body =
    loads 0 size ++ (chain 0 size ++ [.comment (reassocComment size)]) ++
      [reduceResult (0 + size - 2)] := by
  have hlast : 1 + (size - 1 - 1) - 1 = 0 + size - 2 := by omega
  simp only [reassoc, hlast, loads, chain, Nat.zero_add, List.append_assoc, List.cons_append,
    List.nil_append]

theorem reassoc_reducesBlock {size : ℕ} (h : 2 ≤ size) :
    (reassoc size).ReducesBlock .result := by
  have hcomputes := ((combines_chain 0 h).comment (reassocComment size)).computes
  have hblock := hcomputes.block
  rw [← reassoc_body size h] at hblock
  exact hblock.reducesBlock (by omega)

/-! ## The chain through the result -/

/-- The right-hand sides of the chain that `unroll` starts from the result. -/
def unrollValue : ℕ → Expr Name
  | 0 => .max (.v 0) .result
  | j + 1 => .max (.v (j + 1)) (.t j)

theorem unroll_body {size : ℕ} (h : 1 ≤ size) : (unroll size).body =
    (loads 0 size ++ declarations size .t unrollValue) ++
      [.comment (unrollComment size), .assign .result (.copy (.t (size - 1)))] := by
  obtain ⟨count, rfl⟩ := Nat.exists_eq_add_of_le' h
  have hchain : declarations (count + 1) .t unrollValue =
      .var (.t 0) (.max (.v 0) .result) ::
        (List.range' 1 count).map fun index => link index index (index - 1) := by
    rw [declarations, List.range_succ_eq_map, List.map_cons, List.map_map,
      List.range'_eq_map_range, List.map_map]
    congr 1
    apply List.map_congr_left
    intro j _
    show .var (.t (j + 1)) (unrollValue (j + 1)) = link (1 + j) (1 + j) (1 + j - 1)
    rw [link, unrollValue, Nat.add_comm 1 j]
    rfl
  simp only [hchain, unroll, loads, Nat.add_sub_cancel, Nat.add_sub_cancel_left, Nat.zero_add,
    List.append_assoc, List.cons_append, List.nil_append]

theorem scoped_unroll {size : ℕ} (h : 1 ≤ size) : Scoped [.result] (unroll size).body := by
  have hresult : ∀ names : List Name, .result ∈ names ++ [.result] :=
    fun names => List.mem_append_right names List.mem_cons_self
  rw [unroll_body h, scoped_append, scoped_append]
  refine ⟨⟨scoped_loads (fresh_result 0 0).1, ?_⟩, ?_⟩
  · apply scoped_declarations
    · intro j _ hmem
      cases List.mem_append.mp hmem with
      | inl hload =>
          obtain ⟨_, heq, _⟩ := mem_declared_loads.mp hload
          cases heq
      | inr hknown => exact (fresh_result 0 0).2 j (Nat.zero_le j) hknown
    · exact fun i j heq => Name.t.inj heq
    · intro j hj use huse
      have hloaded : .v j ∈ declared (loads 0 size) ++ [.result] :=
        List.mem_append_left _ (mem_declared_loads.mpr ⟨j, rfl, Nat.zero_le j, by omega⟩)
      cases j with
      | zero =>
          simp only [unrollValue, Expr.uses, List.mem_cons, List.not_mem_nil, or_false] at huse
          apply Or.inl
          cases huse with
          | inl heq => exact heq ▸ hloaded
          | inr heq =>
              rw [heq]
              exact hresult _
      | succ j =>
          simp only [unrollValue, Expr.uses, List.mem_cons, List.not_mem_nil, or_false] at huse
          cases huse with
          | inl heq => exact Or.inl (heq ▸ hloaded)
          | inr heq => exact Or.inr ⟨j, Nat.lt_succ_self j, heq⟩
  · refine ⟨fun use huse => ?_, hresult _, trivial⟩
    have hlast : .t (size - 1) ∈ declared (declarations size .t unrollValue) := by
      rw [declared_declarations]
      exact List.mem_map_of_mem (List.mem_range.mpr (by omega))
    rw [Expr.uses, List.mem_singleton] at huse
    rw [huse, declared_append]
    exact List.mem_append_left _ (List.mem_append_right _ hlast)

/-- The names of the chain hold the folds of ever more elements, from the result on. -/
theorem unroll_value {read : ℕ → Except Failure ℤ} {f : ℕ → ℤ} {final : Env Name} {size : ℕ}
    {result : ℤ} (hloaded : ∀ k < size, final (.v k) = some (f k))
    (hresult : final .result = some result)
    (hsolves : Solves read (declarations size .t unrollValue) final) {j : ℕ} (hj : j < size) :
    final (.t j) = some (blockMax f 0 (j + 1) result) := by
  have hmem : ∀ i < size, .var (.t i) (unrollValue i) ∈ declarations size .t unrollValue :=
    fun i hi => List.mem_map.mpr ⟨i, List.mem_range.mpr hi, rfl⟩
  have hstep : ∀ i, blockMax f 0 (i + 1) result = max (f i) (blockMax f 0 i result) := by
    intro i
    rw [blockMax_succ, max_comm, Nat.zero_add]
  induction j with
  | zero =>
      rw [hstep]
      exact hsolves.max (hmem 0 hj) (hloaded 0 hj) hresult
  | succ j ih =>
      rw [hstep]
      exact hsolves.max (hmem (j + 1) hj) (hloaded (j + 1) hj) (ih (Nat.lt_of_succ_lt hj))

/-- The chain reads every element of a block. -/
theorem mem_offsets_unroll {size : ℕ} (h : 1 ≤ size) (offset : ℕ) :
    offset ∈ offsets (unroll size).body ↔ offset < size := by
  have hlast : offsets [.comment (unrollComment size),
      .assign Name.result (.copy (.t (size - 1)))] = [] := rfl
  rw [unroll_body h, offsets_append, offsets_append, hlast, List.append_nil, List.mem_append,
    loads_eq, mem_offsets_declarations, mem_offsets_declarations]
  constructor
  · intro hoffset
    cases hoffset with
    | inl hload =>
        obtain ⟨j, hj, heq⟩ := hload
        cases heq
        rwa [Nat.zero_add]
    | inr hlink =>
        obtain ⟨j, _, heq⟩ := hlink
        cases j <;> cases heq
  · exact fun hoffset => Or.inl ⟨offset, hoffset, by rw [Nat.zero_add]⟩

theorem unroll_reducesBlock {size : ℕ} (h : 1 ≤ size) : (unroll size).ReducesBlock .result where
  stride_pos := h
  isScoped := scoped_unroll h
  offsets := mem_offsets_unroll h
  reduces := by
    intro read f result final hread hexec
    have hscoped := scoped_unroll h
    rw [unroll_body h, scoped_append] at hscoped
    rw [unroll_body h, exec_append, bind_eq_ok] at hexec
    obtain ⟨middle, hcode, hcopy⟩ := hexec
    have hassigned : assigned (loads 0 size ++ declarations size .t unrollValue) = [] := by
      rw [assigned_append, loads_eq, assigned_declarations, assigned_declarations]
      rfl
    have hsolves := hscoped.1.solves hassigned hcode
    have hresult : middle .result = some result := by
      rw [exec_of_notMem hcode (hscoped.1.notMem_declared List.mem_cons_self)
        (hassigned ▸ List.not_mem_nil)]
      exact Function.update_self _ _ _
    have hloaded : ∀ k < size, middle (.v k) = some (f k) := by
      intro k hk
      apply hsolves.element _ (hread k hk)
      apply List.mem_append_left
      exact List.mem_map.mpr ⟨k, List.mem_range.mpr hk, by rw [Nat.zero_add]; rfl⟩
    have hlast := unroll_value hloaded hresult
      (fun name value hmem => hsolves name value (List.mem_append_right _ hmem))
      (Nat.sub_lt h Nat.one_pos)
    rw [Nat.sub_add_cancel h, blockMax, ← List.range_eq_range'] at hlast
    have hassign : exec read middle [.assign .result (.copy (.t (size - 1)))] = .ok final := hcopy
    have hvalue : Expr.eval read middle (.copy (.t (size - 1))) =
        .ok (((List.range size).map f).foldl max result) := Env.get_eq_ok hlast
    exact exec_assign_result hvalue hassign

/-! ## The emitted methods -/

/-- A body that takes one element into the result. -/
theorem reducesBlock_one {body : Code} (hscoped : Scoped [.result] body)
    (hoffsets : offsets body = [0])
    (hreduces : ∀ (read : ℕ → Except Failure ℤ) (x result : ℤ) (final : Env Name),
      read 0 = .ok x → exec read (ForLoop.start .result result) body = .ok final →
        final .result = some (max x result)) :
    Loop.ReducesBlock ⟨1, body⟩ Name.result where
  stride_pos := Nat.one_pos
  isScoped := hscoped
  offsets := by
    intro offset
    rw [hoffsets, List.mem_singleton]
    exact Nat.lt_one_iff.symm
  reduces := by
    intro read f result final hread hexec
    rw [hreduces read (f 0) result final (hread 0 Nat.one_pos) hexec, max_comm]
    rfl

theorem buildExpect_reducesBlock : buildExpect.ReducesBlock .result := by
  apply reducesBlock_one
  · simp [Scoped, Expr.uses]
  · rfl
  · intro read x result final hread hexec
    simp only [exec, List.foldlM_cons, List.foldlM_nil, Statement.exec, Expr.eval, hread, Env.get,
      ForLoop.start] at hexec
    cases hexec
    exact Function.update_self _ _ _

theorem base_reducesBlock : (buildTest .base).ReducesBlock .result := by
  apply reducesBlock_one
  · simp [Scoped, Expr.uses]
  · rfl
  · intro read x result final hread hexec
    simp only [exec, List.foldlM_cons, List.foldlM_nil, Statement.exec, Expr.eval, hread, Env.get,
      ForLoop.start] at hexec
    cases hexec
    exact Function.update_self _ _ _

/-- The method `test` that runs the loop agrees with `expect` on arrays of whole strides
and fails on any other. -/
structure Agrees (loop : Loop Name) : Prop where
  isScoped : Scoped [.result] loop.body
  call_eq : ∀ (array : LongArray) (fuel : ℕ), array.values.length < fuel →
    loop.stride ∣ array.values.length →
      ∃ value, call buildExpect array fuel = .ok value ∧ call loop array fuel = .ok value
  call_error : ∀ (array : LongArray) (fuel : ℕ), array.values.length < fuel →
    ¬ loop.stride ∣ array.values.length → call loop array fuel = .error .outOfBounds

/-- A loop that reduces blocks agrees, as both methods return the maximum of the array. -/
theorem agrees_of_reducesBlock {loop : Loop Name} (h : loop.ReducesBlock .result) :
    Agrees loop where
  isScoped := h.isScoped
  call_eq := fun array _ hfuel hdvd =>
    ⟨array.values.foldl max intMin, buildExpect_reducesBlock.run_eq_ok (one_dvd _) hfuel intMin,
      h.run_eq_ok hdvd hfuel intMin⟩
  call_error := fun _ _ hfuel hdvd => h.run_eq_error hdvd hfuel intMin

/-- Every loop that `reassoc`, `unroll`, `reassocBy` and `reTree` emit agrees. -/
theorem emitted_agrees :
    (∀ size, 2 ≤ size → Agrees (reassoc size) ∧ Agrees (unroll size)) ∧
      ∀ outer inner, 1 ≤ outer → 2 ≤ inner →
        Agrees (reassocBy outer inner) ∧ Agrees (reTree outer inner) := by
  constructor
  · intro size hsize
    exact ⟨agrees_of_reducesBlock (reassoc_reducesBlock hsize),
      agrees_of_reducesBlock (unroll_reducesBlock (Nat.le_of_succ_le hsize))⟩
  · intro outer inner houter hinner
    exact ⟨agrees_of_reducesBlock (reassocBy_reducesBlock houter hinner),
      agrees_of_reducesBlock (reTree_reducesBlock houter hinner)⟩

/-- The tree over two blocks of two elements meets an array of one stride and a shorter one. -/
theorem emitted_agrees_reTree :
    (∃ value, call buildExpect ⟨[3, -1, 7, 2], by decide⟩ 5 = .ok value ∧
      call (reTree 2 2) ⟨[3, -1, 7, 2], by decide⟩ 5 = .ok value) ∧
    call (reTree 2 2) ⟨[3, -1, 7], by decide⟩ 4 = .error .outOfBounds := by
  have hagrees := (emitted_agrees.2 2 2 (by decide) (by decide)).2
  exact ⟨hagrees.call_eq _ 5 (by decide) (by decide),
    hagrees.call_error _ 4 (by decide) (by decide)⟩

/-- Every variant that is generated agrees. -/
theorem buildTest_agrees (option : GenOption) : Agrees (buildTest option) := by
  apply agrees_of_reducesBlock
  cases option with
  | base => exact base_reducesBlock
  | reassoc2 | reassoc4 | reassoc8 | reassoc16 => exact reassoc_reducesBlock (by decide)
  | unroll2 | unroll4 | unroll8 | unroll16 => exact unroll_reducesBlock (by decide)
  | reassoc4x4 | reassoc2x8 | reassoc8x2 =>
      exact reassocBy_reducesBlock (by decide) (by decide)
  | reTree4x1 | reTree4x4 | reTree8x1 | reTree8x2 | reTree16x1 =>
      exact reTree_reducesBlock (by decide) (by decide)

end Colata.ReassocChain
