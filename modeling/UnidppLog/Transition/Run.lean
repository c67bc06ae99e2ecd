/-
# Runs of a transition system

A system takes one action at a time, and an action may be impossible in a state.
The two rules every statement about runs comes down to: what each step keeps, a
run keeps; and two systems that step in lockstep run in lockstep.
-/

import Mathlib.Data.List.Basic
import Mathlib.Data.List.Forall2

namespace Transition

universe u v w x

variable {State : Type u} {Action : Type v}

section

variable (step : State → Action → Option State)

/-- Take the actions one after the other. -/
def run (s : State) (actions : List Action) : Option State :=
  actions.foldlM step s

/-- Every action of the list is taken in a state that allows it. -/
def Along (allowed : State → Action → Prop) (s : State) : List Action → Prop
  | [] => True
  | action :: rest => allowed s action ∧
      ∀ next, step s action = some next → Along allowed next rest

end

variable {step : State → Action → Option State} {s s' : State} {actions : List Action}

@[simp]
theorem run_nil : run step s [] = some s :=
  rfl

theorem run_cons {action : Action} {rest : List Action} :
    run step s (action :: rest) = (step s action).bind fun next => run step next rest := by
  simp [run]

theorem run_append (front back : List Action) :
    run step s (front ++ back) = (run step s front).bind fun mid => run step mid back := by
  simp [run, List.foldlM_append]

theorem run_concat {action : Action} :
    run step s (actions ++ [action]) = (run step s actions).bind fun mid => step mid action := by
  rw [run_append]
  congr 1
  funext mid
  rw [run_cons]
  cases step mid action <;> rfl

/-- A single step is a run. -/
theorem run_one {action : Action} (hstep : step s action = some s') :
    run step s [action] = some s' := by
  rw [run_cons, hstep, Option.bind_some, run_nil]

/-- A run goes on with a step. -/
theorem run_snoc {mid : State} {action : Action} (hrun : run step s actions = some mid)
    (hstep : step mid action = some s') : run step s (actions ++ [action]) = some s' := by
  rw [run_concat, hrun, Option.bind_some, hstep]

/-- Along a run there is one next state. -/
theorem along_cons_iff {allowed : State → Action → Prop} {next : State} {action : Action}
    {rest : List Action} (hstep : step s action = some next) :
    Along step allowed s (action :: rest) ↔ allowed s action ∧ Along step allowed next rest := by
  constructor
  · intro h
    exact ⟨h.1, h.2 next hstep⟩
  · intro h
    refine ⟨h.1, fun other hother => ?_⟩
    obtain rfl := Option.some.inj (hstep.symm.trans hother)
    exact h.2

/-- What every allowed step keeps, a run of allowed steps keeps. -/
theorem run_keeps {allowed : State → Action → Prop} {I : State → Prop}
    (hstep : ∀ s action next, I s → allowed s action → step s action = some next → I next)
    (hI : I s) (hallowed : Along step allowed s actions) (hrun : run step s actions = some s') :
    I s' := by
  induction actions generalizing s with
  | nil =>
      obtain rfl := Option.some.inj hrun
      exact hI
  | cons action rest ih =>
      rw [run_cons] at hrun
      obtain ⟨next, hnext, hrest⟩ := Option.bind_eq_some_iff.mp hrun
      exact ih (hstep _ _ _ hI hallowed.1 hnext) (hallowed.2 next hnext) hrest

/-- What every step keeps, a run keeps. -/
theorem run_invariant {I : State → Prop}
    (hstep : ∀ s action next, I s → step s action = some next → I next) (hI : I s)
    (hrun : run step s actions = some s') : I s' := by
  induction actions generalizing s with
  | nil =>
      obtain rfl := Option.some.inj hrun
      exact hI
  | cons action rest ih =>
      rw [run_cons] at hrun
      obtain ⟨next, hnext, hrest⟩ := Option.bind_eq_some_iff.mp hrun
      exact ih (hstep _ _ _ hI hnext) hrest

/-- A run of allowed steps goes on with an allowed step. -/
theorem along_snoc {allowed : State → Action → Prop} {mid : State} {action : Action}
    (halong : Along step allowed s actions) (hrun : run step s actions = some mid)
    (hallowed : allowed mid action) : Along step allowed s (actions ++ [action]) := by
  induction actions generalizing s with
  | nil =>
      obtain rfl := Option.some.inj hrun
      exact ⟨hallowed, fun _ _ => trivial⟩
  | cons first rest ih =>
      refine ⟨halong.1, fun next hnext => ih (halong.2 next hnext) ?_⟩
      rwa [run_cons, hnext] at hrun

/-- What a run goes on with does not matter to its beginning. -/
theorem along_of_append {allowed : State → Action → Prop} {more : List Action}
    (h : Along step allowed s (actions ++ more)) : Along step allowed s actions := by
  induction actions generalizing s with
  | nil => trivial
  | cons action rest ih => exact ⟨h.1, fun next hnext => ih (h.2 next hnext)⟩

/-- A condition on the actions alone holds along any run of such actions. -/
theorem along_of_forall {allowed : Action → Prop} (h : ∀ action ∈ actions, allowed action) :
    Along step (fun _ action => allowed action) s actions := by
  induction actions generalizing s with
  | nil => trivial
  | cons action rest ih =>
      exact ⟨h action List.mem_cons_self, fun next _ =>
        ih fun other hother => h other (List.mem_cons_of_mem _ hother)⟩

/-- Two systems whose steps match run in lockstep. -/
theorem run_lockstep {State' : Type w} {Action' : Type x}
    {step' : State' → Action' → Option State'} {R : State → State' → Prop}
    {A : Action → Action' → Prop}
    (hstep : ∀ s t action action' next, R s t → A action action' → step s action = some next →
      ∃ next', step' t action' = some next' ∧ R next next')
    {t : State'} {actions' : List Action'} (hR : R s t) (hA : List.Forall₂ A actions actions')
    (hrun : run step s actions = some s') :
    ∃ t', run step' t actions' = some t' ∧ R s' t' := by
  induction hA generalizing s t with
  | nil =>
      obtain rfl := Option.some.inj hrun
      exact ⟨t, rfl, hR⟩
  | @cons action action' rest rest' haction _ ih =>
      rw [run_cons] at hrun
      obtain ⟨next, hnext, hrest⟩ := Option.bind_eq_some_iff.mp hrun
      obtain ⟨next', hnext', hR'⟩ := hstep _ _ _ _ _ hR haction hnext
      obtain ⟨t', hrun', hR''⟩ := ih hR' hrest
      exact ⟨t', by rw [run_cons, hnext']; exact hrun', hR''⟩

end Transition
