/-
# What a handler answers

A handler keeps what it came with: the outcome of its append, the head that it has
read, or an answer without either. What it answers is determined by that, and only a
commit that was sequenced is ever answered with 201.
-/

import UnidppLog.Linearization

namespace UnidppLog

open Json (Value)
open Unidpp

section

variable [Unidpp]

/-- What a handler came with. -/
def Handler.origin : Handler → Handler
  | .commit outcome _ => .commit outcome .appended
  | .viewed head _ => .viewing head
  | handler => handler

namespace Handler

variable {handler : Handler}

/-- The outcome of an append is what a commit comes with. -/
theorem outcome_origin (handler : Handler) : handler.origin.outcome = handler.outcome := by
  cases handler <;> rfl

theorem eq_ended_of_origin {response : Option Response}
    (h : handler.origin = (Handler.ended response).origin) : handler = .ended response := by
  cases handler with
  | ended other => exact h
  | _ => simp [origin] at h

end Handler

variable [SerdeJson]

/-- What a handler answers agrees with what it came with, and a commit is on its way to
the authority only if there is one. -/
def Handler.Agrees (externalTsaUrl : Option String) : Handler → Prop
  | .commit outcome (.answered response) => (∀ v, outcome = .ok v → v.Plain) ∧
      ∀ r, response = some r → respond outcome = some r
  | .commit outcome _ => (∀ v, outcome = .ok v → v.Plain) ∧ externalTsaUrl ≠ none
  | .viewing _ => True
  | .viewed _ response => ∀ r, response = some r → r.status ≠ 201
  | .served _ response => ∀ r, response = some r → r.status ≠ 201
  | .ended response => ∀ r, response = some r → r.status ≠ 201

theorem Service.agrees_afterAppend (service : Service) {outcome : Except StoreError Value}
    (hplain : ∀ v, outcome = .ok v → v.Plain) :
    (service.afterAppend outcome).Agrees service.externalTsaUrl := by
  rw [Service.afterAppend]
  split
  · next tsaUrl hurl => exact ⟨hplain, by simp [hurl]⟩
  · exact ⟨hplain, fun r hr => hr⟩

namespace Handler

variable {externalTsaUrl : Option String}

theorem agrees_ended_none : (Handler.ended none).Agrees externalTsaUrl :=
  fun r hr => by simp at hr

theorem agrees_viewing (head : Option SignedTreeHead) :
    (Handler.viewing head).Agrees externalTsaUrl :=
  trivial

/-- The receipt that a commit holds is plain JSON. -/
theorem Agrees.plain {outcome : Except StoreError Value} {phase : CommitPhase}
    (h : (Handler.commit outcome phase).Agrees externalTsaUrl) {v : Value}
    (hv : outcome = .ok v) : v.Plain := by
  cases phase with
  | answered response => exact h.1 v hv
  | _ => exact h.1 v hv

/-- A commit answers, if at all, by the outcome of its append. -/
theorem Agrees.respond {outcome : Except StoreError Value} {phase : CommitPhase}
    (h : (Handler.commit outcome phase).Agrees externalTsaUrl) {response : Response}
    (hanswer : (Handler.commit outcome phase).answer = some response) :
    respond outcome = some response := by
  cases phase with
  | answered answer => exact h.2 response hanswer
  | _ => simp [Handler.answer] at hanswer

theorem Agrees.respond_of_outcome {handler : Handler} (h : handler.Agrees externalTsaUrl)
    {outcome : Except StoreError Value} (houtcome : handler.outcome = some outcome)
    {response : Response} (hanswer : handler.answer = some response) :
    UnidppLog.respond outcome = some response := by
  cases handler with
  | commit result phase =>
      obtain rfl := Option.some.inj houtcome
      exact h.respond hanswer
  | _ => simp [Handler.outcome] at houtcome

/-- A handler that came without an append does not answer with 201. -/
theorem Agrees.status_ne {handler : Handler} (h : handler.Agrees externalTsaUrl)
    (hnone : handler.outcome = none) {response : Response}
    (hanswer : handler.answer = some response) : response.status ≠ 201 := by
  cases handler with
  | commit outcome phase => simp [Handler.outcome] at hnone
  | viewing head => simp [Handler.answer] at hanswer
  | viewed head answer => exact h response hanswer
  | served request answer => exact h response hanswer
  | ended answer => exact h response hanswer

end Handler

namespace System

variable {s s' : System}

/-- The handlers agree with what they came with. -/
def Agrees (s : System) : Prop :=
  ∀ handler ∈ s.handlers, handler.Agrees s.service.externalTsaUrl

theorem agrees_init (service : Service) : (init service).Agrees :=
  fun handler hhandler => by simp [init] at hhandler

theorem Agrees.push (h : s.Agrees) {handler : Handler}
    (hhandler : handler.Agrees s.service.externalTsaUrl) : (s.push handler).Agrees := by
  intro other hother
  rcases mem_push hother with hold | rfl
  · exact h other hold
  · exact hhandler

theorem Agrees.set (h : s.Agrees) {i : ℕ} {handler : Handler}
    (hhandler : handler.Agrees s.service.externalTsaUrl) : (s.set i handler).Agrees := by
  intro other hother
  rcases mem_set hother with hold | rfl
  · exact h other hold
  · exact hhandler

variable [ExternalAnchoring]

theorem Agrees.step (h : s.Agrees) (hvalid : s.service.store.Valid) {action : Action}
    (hstep : s.step action = some s') : s'.Agrees := by
  have hplain : ∀ {i : ℕ} {outcome : Except StoreError Value} {phase : CommitPhase},
      s.handlers[i]? = some (.commit outcome phase) → ∀ v, outcome = .ok v → v.Plain :=
    fun hi v hv => (h _ (List.mem_of_getElem? hi)).plain hv
  cases steps_of_step hvalid hstep with
  | refused hstatus => exact h.push hstatus
  | overflowed happend => exact h.push Handler.agrees_ended_none
  | failed happend => exact h.push (s.service.agrees_afterAppend (by simp))
  | @sequenced _ _ _ _ _ _ _ receipt happend hreceipt =>
      refine h.push (s.service.agrees_afterAppend fun v hv => ?_)
      obtain rfl := Except.ok.inj hv
      exact (s.service.operator.plain_receipt receipt).1
  | unprovable happend hnone => exact h.push Handler.agrees_ended_none
  | headless hi hhead hresponse => exact h.set ⟨hplain hi, hresponse⟩
  | submitted hi hhead => exact h.set ⟨hplain hi, (h _ (List.mem_of_getElem? hi)).2⟩
  | dropped hi => exact h.set ⟨hplain hi, by simp⟩
  | recorded hi hsubmit => exact h.set ⟨hplain hi, fun r hr => hr⟩
  | abandoned hi => exact h.set ⟨hplain hi, by simp⟩
  | unread => exact h.push Handler.agrees_ended_none
  | read hhead => exact h.push (Handler.agrees_viewing _)
  | shown hi =>
      refine h.set fun r hr => ?_
      rw [status_of_jsonResponse (show jsonResponse 200 _ = some r from hr)]
      decide
  | served =>
      refine h.push fun r hr => ?_
      split at hr
      · simp at hr
      · exact status_of_get hr

/-- What the handlers came with stays, in its order. -/
theorem origin_step (hvalid : s.service.store.Valid) {action : Action}
    (hstep : s.step action = some s') :
    s.handlers.map Handler.origin <+: s'.handlers.map Handler.origin := by
  have hpush : ∀ {t : System} {handler : Handler}, t.handlers = s.handlers →
      s.handlers.map Handler.origin <+: (t.push handler).handlers.map Handler.origin := by
    intro t handler ht
    rw [System.push, List.map_append, ht]
    exact List.prefix_append _ _
  have hset : ∀ {i : ℕ} {old handler : Handler}, s.handlers[i]? = some old →
      handler.origin = old.origin →
      s.handlers.map Handler.origin <+: (s.set i handler).handlers.map Handler.origin := by
    intro i old handler hi horigin
    have hsame := map_set hi horigin
    exact hsame ▸ List.prefix_rfl
  cases steps_of_step hvalid hstep with
  | headless hi hhead hresponse => exact hset hi rfl
  | submitted hi hhead => exact hset hi rfl
  | dropped hi => exact hset hi rfl
  | recorded hi hsubmit => exact hset hi rfl
  | abandoned hi => exact hset hi rfl
  | shown hi => exact hset hi rfl
  | _ => exact hpush rfl

theorem Agrees.run (h : s.Agrees) (hsound : s.Sound) {actions : List Action}
    (hrun : s.run actions = some s') :
    s'.Agrees ∧ s.handlers.map Handler.origin <+: s'.handlers.map Handler.origin := by
  have hkeeps := Transition.run_invariant (I := fun t => t.Sound ∧ t.Agrees ∧
    s.handlers.map Handler.origin <+: t.handlers.map Handler.origin) ?_
    ⟨hsound, h, List.prefix_rfl⟩ hrun
  · exact hkeeps.2
  · rintro mid action next ⟨hmid, hagrees, horigin⟩ hstep
    exact ⟨(hmid.step hstep).1, hagrees.step hmid.valid hstep,
      horigin.trans (origin_step hmid.valid hstep)⟩

end System

end

end UnidppLog
