/-
# Runs with a client

Beside what happens in a system of its own accord, a client acts on what it has
observed. Two systems that step in lockstep and show a client nothing that it tells
apart run in lockstep with it.
-/

import UnidppLog.Transition.Run

namespace Transition

universe u v w

variable {State : Type u} {Action : Type v} {Observation : Type w}

/-- What happens next: a given action, or the one that the client chooses. -/
inductive Move (Action : Type v)
  | given (action : Action)
  | choice

/-- The moves of two schedules that match: matching actions, and the same choices. -/
inductive Move.Alike (A : Action → Action → Prop) : Move Action → Move Action → Prop
  | given {action action' : Action} (h : A action action') :
      Alike A (.given action) (.given action')
  | choice : Alike A .choice .choice

/-- One move, with a client that chooses by what it has observed so far. -/
def playStep (step : State → Action → Option State) (observe : State → Observation)
    (client : Observation → Action) (s : State) : Move Action → Option State
  | .given action => step s action
  | .choice => step s (client (observe s))

variable {step : State → Action → Option State} {observe : State → Observation}
  {client : Observation → Action} {R : State → State → Prop} {A : Action → Action → Prop}

/-- What a client does not tell apart stays what it does not tell apart. -/
theorem play_lockstep
    (hstep : ∀ s t action action' next, R s t → A action action' → step s action = some next →
      ∃ next', step t action' = some next' ∧ R next next')
    (hclient : ∀ s t, R s t → A (client (observe s)) (client (observe t)))
    {s s' t : State} {moves moves' : List (Move Action)} (hR : R s t)
    (hmoves : List.Forall₂ (Move.Alike A) moves moves')
    (hrun : run (playStep step observe client) s moves = some s') :
    ∃ t', run (playStep step observe client) t moves' = some t' ∧ R s' t' := by
  refine run_lockstep ?_ hR hmoves hrun
  rintro s t move move' next hR hmove hnext
  cases hmove with
  | given hactions => exact hstep _ _ _ _ _ hR hactions hnext
  | choice => exact hstep _ _ _ _ _ hR (hclient s t hR) hnext

end Transition
