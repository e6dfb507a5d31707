/-
# Blocks of an emitted body

A block loads consecutive elements, combines them into a partial maximum and takes that
into the result. It declares the `v` names of its elements and some `t` names, so that
blocks with their own numbers stay scoped when they follow each other, and together
they reduce all their elements.
-/

import Colata.ReassocChain.Gen

namespace Colata.ReassocChain

open Colata.Java Colata.Java.ForLoop

/-- The fold of the elements of a block. -/
def blockMax (f : ℕ → ℤ) (start count : ℕ) (result : ℤ) : ℤ :=
  ((List.range' start count).map f).foldl max result

/-- The value adds to every result what the block does. -/
def IsPartialMax (f : ℕ → ℤ) (start count : ℕ) (value : ℤ) : Prop :=
  ∀ result, max result value = blockMax f start count result

theorem blockMax_succ (f : ℕ → ℤ) (start count : ℕ) (result : ℤ) :
    blockMax f start (count + 1) result = max (blockMax f start count result) (f (start + count)) := by
  rw [blockMax, List.range'_1_concat, List.map_append, List.foldl_append]
  rfl

theorem isPartialMax_one (f : ℕ → ℤ) (start : ℕ) : IsPartialMax f start 1 (f start) :=
  fun _ => rfl

/-- One more element can be taken in. -/
theorem IsPartialMax.succ {f : ℕ → ℤ} {start count : ℕ} {value : ℤ}
    (h : IsPartialMax f start count value) :
    IsPartialMax f start (count + 1) (max (f (start + count)) value) := by
  intro result
  rw [blockMax_succ, ← h result, max_comm (f (start + count)), max_assoc]

theorem blockMax_append (f : ℕ → ℤ) (start first second : ℕ) (result : ℤ) :
    blockMax f (start + first) second (blockMax f start first result) =
      blockMax f start (first + second) result := by
  rw [blockMax, blockMax, blockMax, ← List.foldl_append, ← List.map_append, List.range'_append_1]

/-- The declared names are the `v` names of a block and some `t` names. -/
def NamesIn (start count low high : ℕ) (names : List Name) : Prop :=
  ∀ name ∈ names, (∃ k, name = .v k ∧ start ≤ k ∧ k < start + count) ∨
    ∃ k, name = .t k ∧ low ≤ k ∧ k < high

/-- No name of a block is known yet. -/
def Fresh (start low : ℕ) (known : List Name) : Prop :=
  (∀ k, start ≤ k → .v k ∉ known) ∧ ∀ k, low ≤ k → .t k ∉ known

/-- Code that computes the partial maximum of a block under the name `t last`. -/
structure Computes (start count low high last : ℕ) (code : Code) : Prop where
  isScoped : ∀ known, Fresh start low known → Scoped known code
  assigned : assigned code = []
  declared : NamesIn start count low high (declared code)
  offsets : ∀ offset, offset ∈ offsets code ↔ start ≤ offset ∧ offset < start + count
  isDeclared : .t last ∈ ForLoop.declared code
  value : ∀ (read : ℕ → Except Failure ℤ) (f : ℕ → ℤ) (final : Env Name),
    (∀ k, start ≤ k → k < start + count → read k = .ok (f k)) → Solves read code final →
      ∃ x, final (.t last) = some x ∧ IsPartialMax f start count x

/-- Code that reduces a block into the result. -/
structure Block (start count low high : ℕ) (code : Code) : Prop where
  isScoped : ∀ known, .result ∈ known → Fresh start low known → Scoped known code
  declared : NamesIn start count low high (declared code)
  offsets : ∀ offset, offset ∈ offsets code ↔ start ≤ offset ∧ offset < start + count
  reduces : ∀ (read : ℕ → Except Failure ℤ) (f : ℕ → ℤ) (env final : Env Name) (result : ℤ),
    (∀ k, start ≤ k → k < start + count → read k = .ok (f k)) → env .result = some result →
      exec read env code = .ok final → final .result = some (blockMax f start count result)

section Blocks

variable {start count low high last : ℕ} {code : Code}

theorem fresh_result (start low : ℕ) : Fresh start low [.result] := by
  constructor
  · intro k _ hmem
    cases List.mem_singleton.mp hmem
  · intro k _ hmem
    cases List.mem_singleton.mp hmem

theorem NamesIn.result_notMem {names : List Name} (h : NamesIn start count low high names) :
    .result ∉ names := by
  intro hmem
  cases h _ hmem with
  | inl hv =>
      obtain ⟨_, heq, _⟩ := hv
      cases heq
  | inr ht =>
      obtain ⟨_, heq, _⟩ := ht
      cases heq

/-- The value of an assignment to the result. -/
theorem exec_assign_result {read : ℕ → Except Failure ℤ} {env final : Env Name}
    {value : Expr Name} {x : ℤ} (hvalue : value.eval read env = .ok x)
    (hexec : exec read env [.assign .result value] = .ok final) : final .result = some x := by
  rw [exec_cons, bind_eq_ok] at hexec
  obtain ⟨next, hstep, hrest⟩ := hexec
  obtain ⟨y, hy, rfl⟩ := (exec_eq_ok (Or.inr rfl)).mp hstep
  cases hrest
  rw [hvalue] at hy
  cases hy
  exact Function.update_self _ _ _

/-- A computed partial maximum is taken into the result. -/
theorem Computes.block (h : Computes start count low high last code) :
    Block start count low high (code ++ [reduceResult last]) where
  isScoped := by
    intro known hresult hfresh
    rw [scoped_append]
    refine ⟨h.isScoped known hfresh, ?_, List.mem_append_right _ hresult, trivial⟩
    intro use huse
    simp only [Expr.uses, List.mem_cons, List.not_mem_nil, or_false] at huse
    cases huse with
    | inl heq => exact heq ▸ List.mem_append_right _ hresult
    | inr heq => exact heq ▸ List.mem_append_left _ h.isDeclared
  declared := by
    rw [declared_append]
    show NamesIn start count low high (ForLoop.declared code ++ [])
    rw [List.append_nil]
    exact h.declared
  offsets := by
    intro offset
    rw [offsets_append]
    show offset ∈ ForLoop.offsets code ++ [] ↔ _
    rw [List.append_nil]
    exact h.offsets offset
  reduces := by
    intro read f env final result hread henv hexec
    rw [exec_append, bind_eq_ok] at hexec
    obtain ⟨middle, hcode, hreduce⟩ := hexec
    have hsolves := (h.isScoped [.result] (fresh_result start low)).solves h.assigned hcode
    obtain ⟨x, hx, hpartial⟩ := h.value read f middle hread hsolves
    have hresult : middle .result = some result := by
      rw [exec_of_notMem hcode h.declared.result_notMem (h.assigned ▸ List.not_mem_nil), henv]
    rw [← hpartial result]
    apply exec_assign_result _ hreduce
    rw [Expr.eval, Env.get_eq_ok hresult, Env.get_eq_ok hx]
    rfl

theorem NamesIn.fresh {names known : List Name} (h : NamesIn start count low high names)
    (hfresh : Fresh start low known) (hhigh : low ≤ high) :
    Fresh (start + count) high (names ++ known) := by
  constructor
  · intro k hk hmem
    cases List.mem_append.mp hmem with
    | inr hknown => exact hfresh.1 k (by omega) hknown
    | inl hname =>
        cases h _ hname with
        | inl hv =>
            obtain ⟨_, heq, _, hlt⟩ := hv
            cases heq
            omega
        | inr ht =>
            obtain ⟨_, heq, _⟩ := ht
            cases heq
  · intro k hk hmem
    cases List.mem_append.mp hmem with
    | inr hknown => exact hfresh.2 k (by omega) hknown
    | inl hname =>
        cases h _ hname with
        | inl hv =>
            obtain ⟨_, heq, _⟩ := hv
            cases heq
        | inr ht =>
            obtain ⟨_, heq, _, hlt⟩ := ht
            cases heq
            omega

/-- Two blocks in a row are a block. -/
theorem Block.append {count' middle : ℕ} {rest : Code} (hfirst : Block start count low middle code)
    (hsecond : Block (start + count) count' middle high rest) (hlow : low ≤ middle)
    (hhigh : middle ≤ high) : Block start (count + count') low high (code ++ rest) where
  isScoped := by
    intro known hresult hfresh
    rw [scoped_append]
    exact ⟨hfirst.isScoped known hresult hfresh,
      hsecond.isScoped _ (List.mem_append_right _ hresult) (hfirst.declared.fresh hfresh hlow)⟩
  declared := by
    intro name hname
    rw [declared_append] at hname
    cases List.mem_append.mp hname with
    | inl hmem =>
        cases hfirst.declared name hmem with
        | inl hv =>
            obtain ⟨k, heq, hk, hlt⟩ := hv
            exact Or.inl ⟨k, heq, hk, by omega⟩
        | inr ht =>
            obtain ⟨k, heq, hk, hlt⟩ := ht
            exact Or.inr ⟨k, heq, hk, by omega⟩
    | inr hmem =>
        cases hsecond.declared name hmem with
        | inl hv =>
            obtain ⟨k, heq, hk, hlt⟩ := hv
            exact Or.inl ⟨k, heq, by omega, by omega⟩
        | inr ht =>
            obtain ⟨k, heq, hk, hlt⟩ := ht
            exact Or.inr ⟨k, heq, by omega, by omega⟩
  offsets := by
    intro offset
    rw [offsets_append, List.mem_append, hfirst.offsets, hsecond.offsets]
    omega
  reduces := by
    intro read f env final result hread henv hexec
    rw [exec_append, bind_eq_ok] at hexec
    obtain ⟨middle, hcode, hrest⟩ := hexec
    have hmiddle := hfirst.reduces read f env middle result
      (fun k hk hlt => hread k hk (by omega)) henv hcode
    rw [← blockMax_append]
    exact hsecond.reduces read f middle final _ (fun k hk hlt => hread k (by omega) (by omega))
      hmiddle hrest

/-- Blocks in a row reduce all their elements. -/
theorem Block.flatMap {outer : ℕ} {bound : ℕ → ℕ} {block : ℕ → Code}
    (hbound : Monotone bound)
    (h : ∀ i < outer, Block (i * count) count (bound i) (bound (i + 1)) (block i)) :
    Block 0 (outer * count) (bound 0) (bound outer) ((List.range outer).flatMap block) := by
  induction outer with
  | zero =>
      refine ⟨fun _ _ _ => trivial, fun name hname => (nomatch hname), fun offset => ?_, ?_⟩
      · rw [Nat.zero_mul]
        exact ⟨fun hmem => (nomatch hmem), fun hlt => absurd hlt.2 (Nat.not_lt_zero _)⟩
      · intro read f env final result _ henv hexec
        cases hexec
        rw [henv, Nat.zero_mul]
        rfl
  | succ outer ih =>
      have hblocks := ih fun i hi => h i (Nat.lt_succ_of_lt hi)
      have hlast := h outer (Nat.lt_succ_self outer)
      rw [List.range_succ, List.flatMap_append, List.flatMap_singleton, Nat.succ_mul]
      apply hblocks.append _ (hbound (Nat.zero_le outer)) (hbound (Nat.le_succ outer))
      rwa [Nat.zero_add]

/-- A body that is one block makes a loop that reduces. -/
theorem Block.reducesBlock (h : Block 0 count low high code) (hcount : 0 < count) :
    Loop.ReducesBlock ⟨count, code⟩ Name.result where
  stride_pos := hcount
  isScoped := h.isScoped _ List.mem_cons_self (fresh_result 0 low)
  offsets := by
    intro offset
    rw [h.offsets, Nat.zero_add]
    exact and_iff_right (Nat.zero_le offset)
  reduces := by
    intro read f result final hread hexec
    have hreduces := h.reduces read f _ final result
      (fun k _ hk => hread k (by rwa [Nat.zero_add] at hk)) (Function.update_self _ _ _) hexec
    rw [hreduces, blockMax, List.range_eq_range']

end Blocks

end Colata.ReassocChain
