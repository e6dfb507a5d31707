/-
# Evaluating a dataflow graph node by node

An evaluator computes the value of a node from the values known so far, or finds
that it has none. Running it over a list of nodes is sorted when no node reads one
that comes later. A sorted run solves the dataflow equations, and their solution is
unique, so two sorted runs over the same nodes agree. A run that leaves nodes out
agrees with the full run on every set of nodes that is closed under reading.
-/

import Colata.Math.Levelling
import Mathlib.Data.List.Nodup
import Mathlib.Data.List.Forall2
import Mathlib.Logic.Function.Basic

namespace Colata.Math.Dataflow

universe u v

variable {α : Type u} {β : Type v} [DecidableEq α]

/-- The values known so far. -/
abbrev Env (α : Type u) (β : Type v) := α → Option β

def emptyEnv : Env α β := fun _ => none

/-- Record the value of a node, if it has one. -/
def assign (env : Env α β) (node : α) : Option β → Env α β
  | some value => Function.update env node (some value)
  | none => env

/-- Evaluate one node. -/
def step (eval : α → Env α β → Option β) (env : Env α β) (node : α) : Env α β :=
  assign env node (eval node env)

/-- Evaluate the nodes of a list in order. -/
def run (eval : α → Env α β → Option β) (env : Env α β) (order : List α) : Env α β :=
  order.foldl (step eval) env

/-- The value of a node depends on no values but those of the nodes it reads. -/
def ReadsOnly (eval : α → Env α β → Option β) (reads : α → α → Prop) : Prop :=
  ∀ (node : α) (first second : Env α β),
    (∀ source, reads source node → first source = second source) →
      eval node first = eval node second

/-- No node reads one that comes later. -/
def Sorted (reads : α → α → Prop) (order : List α) : Prop :=
  order.Pairwise fun first second => ¬ reads second first

/-- The dataflow equations of the listed nodes. A node does not see its own value,
and nodes that are not listed have none. -/
structure Solves (eval : α → Env α β → Option β) (order : List α) (env : Env α β) : Prop where
  equation : ∀ node ∈ order, env node = eval node (Function.update env node none)
  absent : ∀ node, node ∉ order → env node = none

variable {eval : α → Env α β → Option β} {reads : α → α → Prop} {order : List α}

@[simp]
theorem run_cons (env : Env α β) (node : α) (order : List α) :
    run eval env (node :: order) = run eval (step eval env node) order := rfl

@[simp]
theorem run_append (env : Env α β) (first second : List α) :
    run eval env (first ++ second) = run eval (run eval env first) second :=
  List.foldl_append

theorem foldl_run (env : Env α β) (levels : List (List α)) :
    levels.foldl (run eval) env = run eval env levels.flatten := by
  induction levels generalizing env with
  | nil => rfl
  | cons level levels ih => rw [List.foldl_cons, ih, List.flatten_cons, run_append]

/-- The states of a run that goes level by level. -/
theorem getElem?_scanl_run (env : Env α β) (levels : List (List α)) (index : ℕ) :
    (levels.scanl (run eval) env)[index]? =
      if index ≤ levels.length then some (run eval env (levels.take index).flatten) else none := by
  rw [List.getElem?_scanl, foldl_run]

theorem step_of_ne (env : Env α β) {node other : α} (h : other ≠ node) :
    step eval env node other = env other := by
  unfold step
  cases eval node env with
  | none => rfl
  | some value => exact Function.update_of_ne h _ _

theorem step_self {env : Env α β} {node : α} (h : env node = none) :
    step eval env node node = eval node env := by
  unfold step
  cases eval node env with
  | none => exact h
  | some value => exact Function.update_self _ _ _

/-- A run changes only the values of the nodes it evaluates. -/
theorem run_of_not_mem (env : Env α β) {node : α} (h : node ∉ order) :
    run eval env order node = env node := by
  induction order generalizing env with
  | nil => rfl
  | cons first order ih =>
      rw [List.mem_cons, not_or] at h
      rw [run_cons, ih _ h.2, step_of_ne env h.1]

theorem mem_of_run_eq_some {node : α} {value : β}
    (h : run eval emptyEnv order node = some value) : node ∈ order := by
  by_contra hnot
  rw [run_of_not_mem emptyEnv hnot] at h
  cases h

/-- A node whose value does not depend on other values has it after any run over it. -/
theorem run_eq_some_of_forall {node : α} {value : β} (h : ∀ env, eval node env = some value)
    (hmem : node ∈ order) (env : Env α β) : run eval env order node = some value := by
  induction order generalizing env with
  | nil => cases hmem
  | cons first order ih =>
      by_cases hrest : node ∈ order
      · exact ih hrest _
      · obtain rfl : node = first := by simpa [hrest] using hmem
        rw [run_cons, run_of_not_mem _ hrest, step, h]
        exact Function.update_self _ _ _

/-- In a run without repetitions a value, once there, stays. -/
theorem run_append_of_eq_some {rest : List α} (hnodup : (order ++ rest).Nodup) {node : α}
    {value : β} (h : run eval emptyEnv order node = some value) :
    run eval emptyEnv (order ++ rest) node = some value := by
  have hmem : node ∈ order := mem_of_run_eq_some h
  have hnot : node ∉ rest := fun hrest => (List.disjoint_of_nodup_append hnodup) hmem hrest
  rw [run_append, run_of_not_mem _ hnot, h]

/-! ## The equations -/

theorem run_solves (hreads : ReadsOnly eval reads) (hnodup : order.Nodup)
    (hsorted : Sorted reads order) : Solves eval order (run eval emptyEnv order) where
  absent := fun node hnot => run_of_not_mem emptyEnv hnot
  equation := by
    intro node hmem
    obtain ⟨before, after, rfl⟩ := List.append_of_mem hmem
    obtain ⟨_, hcons, hdisjoint⟩ := List.nodup_append.mp hnodup
    have hafter : node ∉ after := (List.nodup_cons.mp hcons).1
    have hbefore : node ∉ before := fun h => hdisjoint node h node List.mem_cons_self rfl
    have hearly : ∀ source, reads source node →
        run eval emptyEnv before source =
          Function.update (run eval emptyEnv (before ++ node :: after)) node none source := by
      intro source hsource
      by_cases hself : source = node
      · rw [hself, Function.update_self, run_of_not_mem _ hbefore]
        rfl
      · have hlate : source ∉ after := fun hin =>
          List.rel_of_pairwise_cons (List.pairwise_append.mp hsorted).2.1 hin hsource
        have hrest : source ∉ node :: after := List.not_mem_cons_of_ne_of_not_mem hself hlate
        rw [Function.update_of_ne hself, run_append, run_of_not_mem _ hrest]
    calc run eval emptyEnv (before ++ node :: after) node
        = step eval (run eval emptyEnv before) node node := by
          rw [run_append, run_cons, run_of_not_mem _ hafter]
      _ = eval node (run eval emptyEnv before) := step_self (run_of_not_mem emptyEnv hbefore)
      _ = _ := hreads node _ _ hearly

/-- The equations of sorted nodes have one solution. -/
theorem Solves.unique (hreads : ReadsOnly eval reads) (hsorted : Sorted reads order)
    {first second : Env α β} (hfirst : Solves eval order first)
    (hsecond : Solves eval order second) : first = second := by
  have hagree : ∀ before after, before ++ after = order → ∀ node ∈ before,
      first node = second node := by
    intro before
    induction before using List.reverseRecOn with
    | nil =>
        intro after _ node hmem
        cases hmem
    | append_singleton before last ih =>
        intro after heq node hmem
        rw [List.append_assoc] at heq
        have hbefore := ih _ heq
        rcases List.mem_append.mp hmem with hold | hnew
        · exact hbefore node hold
        · obtain rfl : node = last := List.mem_singleton.mp hnew
          have hin : node ∈ order := heq ▸ List.mem_append_right _ List.mem_cons_self
          rw [hfirst.equation node hin, hsecond.equation node hin]
          apply hreads
          intro source hsource
          by_cases hself : source = node
          · rw [hself, Function.update_self, Function.update_self]
          · rw [Function.update_of_ne hself, Function.update_of_ne hself]
            by_cases hlisted : source ∈ order
            · rw [← heq] at hlisted hsorted
              rcases List.mem_append.mp hlisted with hearly | hlate
              · exact hbefore source hearly
              · rcases List.mem_cons.mp hlate with heq' | hafter
                · exact absurd heq' hself
                · exact absurd hsource (List.rel_of_pairwise_cons
                    (List.pairwise_append.mp hsorted).2.1 hafter)
            · rw [hfirst.absent source hlisted, hsecond.absent source hlisted]
  funext node
  by_cases hmem : node ∈ order
  · exact hagree order [] (List.append_nil order) node hmem
  · rw [hfirst.absent node hmem, hsecond.absent node hmem]

theorem Solves.of_perm {other : List α} {env : Env α β} (hperm : order.Perm other)
    (h : Solves eval order env) : Solves eval other env where
  equation := fun node hmem => h.equation node (hperm.mem_iff.mpr hmem)
  absent := fun node hnot => h.absent node fun hmem => hnot (hperm.mem_iff.mp hmem)

/-- Two sorted runs over the same nodes agree. -/
theorem run_eq_of_perm (hreads : ReadsOnly eval reads) {other : List α}
    (hperm : order.Perm other) (hnodup : order.Nodup) (hsorted : Sorted reads order)
    (hsorted' : Sorted reads other) :
    run eval emptyEnv order = run eval emptyEnv other :=
  ((run_solves hreads hnodup hsorted).of_perm hperm).unique hreads hsorted'
    (run_solves hreads (hperm.nodup_iff.mp hnodup) hsorted')

/-! ## Leaving nodes out -/

/-- Leaving out nodes outside a set that is closed under reading changes no value in it. -/
theorem run_filter_eq (hreads : ReadsOnly eval reads) (members : α → Prop) (keep : α → Bool)
    (hclosed : ∀ node ∈ order, members node → ∀ source, reads source node → members source)
    (hkeep : ∀ node ∈ order, members node → keep node = true) {first second : Env α β}
    (hagree : ∀ node, members node → first node = second node) {node : α}
    (hnode : members node) :
    run eval first (order.filter keep) node = run eval second order node := by
  induction order generalizing first second with
  | nil => exact hagree node hnode
  | cons next order ih =>
      have hclosed' := fun other hmem => hclosed other (List.mem_cons_of_mem next hmem)
      have hkeep' := fun other hmem => hkeep other (List.mem_cons_of_mem next hmem)
      rw [run_cons]
      by_cases hnext : keep next = true
      · rw [List.filter_cons_of_pos hnext, run_cons]
        apply ih hclosed' hkeep'
        intro other hother
        by_cases hself : other = next
        · subst hself
          have hsame : eval other first = eval other second :=
            hreads other _ _ fun source hsource =>
              hagree source (hclosed other List.mem_cons_self hother source hsource)
          unfold step
          rw [hsame]
          cases eval other second with
          | none => exact hagree other hother
          | some value => simp [assign]
        · rw [step_of_ne _ hself, step_of_ne _ hself, hagree other hother]
      · rw [List.filter_cons_of_neg hnext]
        apply ih hclosed' hkeep'
        intro other hother
        have hne : other ≠ next := by
          intro heq
          subst heq
          exact hnext (hkeep other List.mem_cons_self hother)
        rw [step_of_ne _ hne, hagree other hother]

/-! ## Levels as an order -/

/-- Levels that put every node after the listed nodes it reads, itself apart, are sorted. -/
theorem sorted_flatten {levels : List (List α)} (hnodup : levels.flatten.Nodup)
    (hearlier : ∀ source node, source ∈ levels.flatten → node ∈ levels.flatten →
      source ≠ node → reads source node → Earlier levels source node) :
    Sorted reads levels.flatten := by
  have hmem : ∀ {index : ℕ} {node : α}, AtLevel levels index node → node ∈ levels.flatten :=
    fun h => mem_flatten_iff_atLevel.mpr ⟨_, h⟩
  -- A node that reads another one stands in the later of their two levels.
  have hlevel : ∀ {first second : ℕ} {source node : α}, AtLevel levels first source →
      AtLevel levels second node → source ≠ node → reads source node → first < second := by
    intro first second source node hsource hnode hne hread
    obtain ⟨index, later, hlt, hat, hat'⟩ :=
      hearlier source node (hmem hsource) (hmem hnode) hne hread
    rw [AtLevel.unique hnodup hsource hat, AtLevel.unique hnodup hnode hat']
    exact hlt
  have hdistinct := List.nodup_flatten.mp hnodup
  unfold Sorted
  rw [List.pairwise_flatten]
  constructor
  · intro level hin
    obtain ⟨index, hindex⟩ := List.mem_iff_getElem?.mp hin
    apply (hdistinct.1 level hin).imp_of_mem
    intro first second hfirst hsecond hne hread
    exact (hlevel ⟨level, hindex, hsecond⟩ ⟨level, hindex, hfirst⟩ hne.symm hread).false
  · rw [List.pairwise_iff_getElem]
    intro index later hindex hlater hlt first hfirst second hsecond hread
    have hat : AtLevel levels index first := ⟨_, List.getElem?_eq_getElem hindex, hfirst⟩
    have hat' : AtLevel levels later second := ⟨_, List.getElem?_eq_getElem hlater, hsecond⟩
    by_cases hne : second = first
    · subst hne
      exact hlt.ne (AtLevel.unique hnodup hat hat')
    · exact absurd hlt (hlevel hat' hat hne hread).not_gt

end Colata.Math.Dataflow
