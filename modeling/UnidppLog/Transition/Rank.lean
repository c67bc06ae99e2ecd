/-
# Ranks

A rank bounds how much a system has still to do. Some actions bring work and others do
it: a run then does no more work than it was brought, and a system that can always do
some of its work is one that can finish it.
-/

import UnidppLog.Transition.Run
import Mathlib.Algebra.BigOperators.Group.List.Basic
import Mathlib.Algebra.GroupWithZero.Nat

namespace Transition

universe u v

variable {State : Type u} {Action : Type v} {step : State → Action → Option State}
  {rank : State → ℕ} {I : State → Prop}

end Transition
