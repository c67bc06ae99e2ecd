/-
# Requests are answered

No handler waits for another one, and none goes through more than three critical
sections: a run of requests comes to an end, by whatever schedule, and whatever the
authority replies. At the end every request is answered, but for those whose clients
left and those that panicked.
-/

import UnidppLog.HostileReplies
import UnidppLog.Reads
import UnidppLog.Sample.Deployment
import UnidppLog.Transition.Rank

namespace UnidppLog

open Json (Value)
open Unidpp

section

variable [Unidpp]

/-- How many critical sections a handler has still to go through, at most. -/
def Handler.rank : Handler → ℕ
  | .commit _ .appended => 2
  | .commit _ (.submitting _) => 1
  | .viewing _ => 1
  | _ => 0

/-- How many critical sections the handlers have still to go through, at most. -/
def System.rank (s : System) : ℕ :=
  (s.handlers.map Handler.rank).sum

namespace System

variable {s s' : System}

variable [SerdeJson]

variable [ExternalAnchoring]

variable [Axum]

end System

/-! ## Answers -/

/-- A handler that has answered, or is yet to answer. -/
def Handler.Attended (handler : Handler) : Prop :=
  0 < handler.rank ∨ ∃ response, handler.answer = some response

/-- Every handler has answered, or is yet to answer. -/
def System.Attended (s : System) : Prop :=
  ∀ handler ∈ s.handlers, handler.Attended

namespace System

variable {s : System}

theorem Attended.push (h : s.Attended) {t : System} (ht : t.handlers = s.handlers)
    {handler : Handler} (hhandler : handler.Attended) : (t.push handler).Attended := by
  intro other hother
  rcases mem_push hother with hold | rfl
  · exact h other (ht ▸ hold)
  · exact hhandler

theorem Attended.set (h : s.Attended) {i : ℕ} {handler : Handler} (hhandler : handler.Attended) :
    (s.set i handler).Attended := by
  intro other hother
  rcases mem_set hother with hold | rfl
  · exact h other hold
  · exact hhandler

end System

theorem plain_discoveryJson (operator : Operator) (buildId : Option String) :
    (discoveryJson operator buildId).Plain := by
  have htext : ∀ text : String, (Value.string text).Plain := fun _ => by simp [Value.Plain]
  rw [discoveryJson]
  refine Value.plain_ofFields ?_
  simp only [List.mem_cons, List.not_mem_nil, or_false, forall_eq_or_imp, forall_eq]
  refine ⟨htext _, htext _, htext _, htext _, htext _, htext _, Value.plain_ofFields ?_,
    operator.plain_info.1, ?_, Value.plain_ofFields ?_, Value.plain_ofFields ?_⟩ <;>
    simp [Value.Plain, Value.PlainItems]

variable [SerdeJson]

/-- What a commit is to answer with is sent. -/
theorem Handler.Agrees.exists_respond (hjson : SerdeJson.Conforms)
    {externalTsaUrl : Option String} {outcome : Except StoreError Value} {phase : CommitPhase}
    (h : (Handler.commit outcome phase).Agrees externalTsaUrl) :
    ∃ response, UnidppLog.respond outcome = some response := by
  cases outcome with
  | error e =>
      obtain ⟨response, hresponse, -⟩ := exists_errorResponse hjson 500 e.toString
      exact ⟨response, hresponse⟩
  | ok v => exact exists_jsonResponse hjson 201 (h.plain rfl)

/-- A commit that may not append is told so. -/
theorem AppState.exists_of_refused (hjson : SerdeJson.Conforms) {app : AppState}
    {authorization : Option String} {body : String} {now : Timestamp}
    {refusal : Option Response} (h : app.commitRequest authorization body now = .error refusal) :
    ∃ response, refusal = some response := by
  rw [commitRequest] at h
  split at h
  · obtain rfl := Except.error.inj h
    obtain ⟨response, hresponse, -⟩ := exists_errorResponse hjson 401 "unauthorized"
    exact ⟨response, hresponse⟩
  · split at h
    · next msg _ =>
      obtain rfl := Except.error.inj h
      obtain ⟨response, hresponse, -⟩ := exists_errorResponse hjson 400 msg
      exact ⟨response, hresponse⟩
    · simp at h

/-- A read of a valid store is answered. -/
theorem Service.exists_get (hjson : SerdeJson.Conforms) {service : Service}
    (hvalid : service.store.Valid) (read : Get) :
    ∃ response, service.get read = some response := by
  cases read with
  | discovery => exact exists_jsonResponse hjson 200 (plain_discoveryJson _ _)
  | healthz => exact ⟨_, rfl⟩
  | consistency params =>
      obtain ⟨response, hresponse, -⟩ := AppState.treeConsistency_answered hjson hvalid params
      exact ⟨response, hresponse⟩
  | receipt seq =>
      have hreceipt : service.toAppState.receipt seq =
          (Reference.ofService service).receiptResponse service.store.entries seq :=
        Reference.receiptResponse_eq hvalid rfl seq
      rw [Service.get, hreceipt, Reference.receiptResponse]
      cases parseU64 (Text.trim seq.toList) with
      | none =>
          obtain ⟨response, hresponse, -⟩ := exists_errorResponse hjson 400 _
          exact ⟨response, hresponse⟩
      | some seq =>
          dsimp only
          cases Reference.receipt _ _ _ with
          | none =>
              obtain ⟨response, hresponse, -⟩ := exists_errorResponse hjson 404 _
              exact ⟨response, hresponse⟩
          | some receipt => exact exists_jsonResponse hjson 200 (Operator.plain_receipt _ receipt).1

namespace System

variable {s s' : System}

/-- A commit goes on to the external anchor, or answers. -/
theorem attended_afterAppend (service : Service) {outcome : Except StoreError Value}
    {response : Response} (hrespond : respond outcome = some response) :
    (service.afterAppend outcome).Attended := by
  rw [Service.afterAppend]
  split
  · exact .inl (by simp [Handler.rank])
  · exact .inr ⟨response, hrespond⟩

/-- A commit that did not find or leave the lock poisoned is attended. -/
theorem Attended.commit (hjson : SerdeJson.Conforms) (h : s.Attended)
    {authorization : Option String} {body : String} {now : Timestamp} {outcome : WriteOutcome}
    (hunpoisoned : (s.commit authorization body now outcome).poisoned = false) :
    (s.commit authorization body now outcome).Attended := by
  rw [System.commit] at hunpoisoned ⊢
  cases hrequest : s.service.toAppState.commitRequest authorization body now with
  | error refusal =>
      obtain ⟨response, rfl⟩ := AppState.exists_of_refused hjson hrequest
      exact h.push rfl (.inr ⟨response, rfl⟩)
  | ok request =>
      rw [hrequest] at hunpoisoned
      dsimp only at hunpoisoned ⊢
      by_cases hpoisoned : s.poisoned = true
      · rw [if_pos hpoisoned] at hunpoisoned
        exact absurd hpoisoned (Bool.eq_false_iff.mp hunpoisoned)
      · rw [if_neg hpoisoned] at hunpoisoned ⊢
        cases happend : s.service.store.append request outcome with
        | none =>
            rw [happend] at hunpoisoned
            exact Bool.noConfusion (show true = false from hunpoisoned)
        | some appended =>
            obtain ⟨result, store⟩ := appended
            rw [happend] at hunpoisoned
            cases result with
            | error e =>
                obtain ⟨response, hresponse, -⟩ :=
                  exists_errorResponse hjson 500 e.toString
                exact h.push rfl (attended_afterAppend _ hresponse)
            | ok record =>
                dsimp only at hunpoisoned ⊢
                split
                · next receipt hreceipt =>
                  obtain ⟨response, hresponse⟩ := exists_jsonResponse hjson 201
                    (s.service.operator.plain_receipt receipt).1
                  exact h.push rfl (attended_afterAppend _ hresponse)
                · next hnone =>
                  split at hunpoisoned
                  · next receipt hreceipt => exact absurd hreceipt (hnone receipt)
                  · exact Bool.noConfusion (show true = false from hunpoisoned)

/-- A commit that comes back for the head goes on, or answers. -/
theorem Attended.readHead (hjson : SerdeJson.Conforms) (h : s.Attended)
    (hvalid : s.service.store.Valid) (hagrees : s.Agrees) {i : ℕ}
    {outcome : Except StoreError Value} (hi : s.handlers[i]? = some (.commit outcome .appended))
    (hunpoisoned : (s.readHead i outcome).poisoned = false) : (s.readHead i outcome).Attended := by
  rw [System.readHead] at hunpoisoned ⊢
  by_cases hpoisoned : s.poisoned = true
  · rw [if_pos hpoisoned] at hunpoisoned
    exact absurd hpoisoned (Bool.eq_false_iff.mp hunpoisoned)
  · rw [if_neg hpoisoned] at hunpoisoned ⊢
    split
    · next hnone => exact absurd hnone (currentHead_ne_none hvalid _ _)
    · obtain ⟨response, hresponse⟩ :=
        (hagrees _ (List.mem_of_getElem? hi)).exists_respond hjson
      exact h.set (.inr ⟨response, hresponse⟩)
    · exact h.set (.inl (by simp [Handler.rank]))

end System

variable [ExternalAnchoring]

/-- A client that does not leave, and a clock that does not leave its range. -/
def ServerEvent.Attends : ServerEvent → Prop
  | .proceed (.leave _) => False
  | .proceed (.record _ now _) => InRange now
  | _ => True

namespace System

variable {s s' : System}

/-- Whatever the authority replies, the commit answers. -/
theorem Attended.record (hjson : SerdeJson.Conforms) (h : s.Attended) (hagrees : s.Agrees)
    {i : ℕ} {outcome : Except StoreError Value} {head : SignedTreeHead}
    (hi : s.handlers[i]? = some (.commit outcome (.submitting head))) (tsaUrl : String)
    {now : Timestamp} (hnow : InRange now) (reply : Except String (List UInt8)) :
    (s.record i outcome head tsaUrl now reply).Attended := by
  obtain ⟨record, hrecord⟩ := exists_submitAnchor head.anchoredExternally tsaUrl hnow reply
  obtain ⟨response, hresponse⟩ := (hagrees _ (List.mem_of_getElem? hi)).exists_respond hjson
  simp only [System.record, hrecord]
  exact h.set (.inr ⟨response, hresponse⟩)

/-- A step that does not find or leave the lock poisoned leaves no handler without an answer. -/
theorem Attended.step (hjson : SerdeJson.Conforms) (h : s.Attended)
    (hvalid : s.service.store.Valid) (hagrees : s.Agrees) {action : Action}
    (hattends : (ServerEvent.proceed action).Attends) (hstep : s.step action = some s')
    (hunpoisoned : s'.poisoned = false) : s'.Attended := by
  cases action with
  | commit authorization body now outcome =>
      obtain rfl := Option.some.inj hstep
      exact h.commit hjson hunpoisoned
  | readHead i =>
      simp only [System.step] at hstep
      split at hstep
      · next outcome hi =>
        obtain rfl := Option.some.inj hstep
        exact h.readHead hjson hvalid hagrees hi hunpoisoned
      · simp at hstep
  | record i now reply =>
      simp only [System.step] at hstep
      split at hstep
      · next outcome head tsaUrl hi _ =>
        obtain rfl := Option.some.inj hstep
        exact h.record hjson hagrees hi tsaUrl hattends reply
      · simp at hstep
  | leave i => exact hattends.elim
  | treeHead =>
      obtain rfl := Option.some.inj hstep
      rw [System.treeHead] at hunpoisoned ⊢
      by_cases hpoisoned : s.poisoned = true
      · rw [if_pos hpoisoned] at hunpoisoned
        exact absurd hpoisoned (Bool.eq_false_iff.mp hunpoisoned)
      · rw [if_neg hpoisoned] at hunpoisoned ⊢
        split
        · next hnone => exact absurd hnone (currentHead_ne_none hvalid _ _)
        · exact h.push rfl (.inl (by simp [Handler.rank]))
  | view i =>
      simp only [System.step] at hstep
      split at hstep
      · next head hi =>
        obtain rfl := Option.some.inj hstep
        obtain ⟨response, hresponse, -⟩ :=
          AppState.treeHead_answered hjson s.service.operator head s.service.tsa
        exact h.set (.inr ⟨response, hresponse⟩)
      · simp at hstep
  | get read =>
      obtain rfl := Option.some.inj hstep
      rw [get_eq hvalid] at hunpoisoned ⊢
      have hpoisoned : s.poisoned = false := hunpoisoned
      obtain ⟨response, hresponse⟩ := Service.exists_get hjson hvalid read
      refine h.push rfl (.inr ⟨response, ?_⟩)
      rw [Handler.answer, hpoisoned, Bool.false_and, if_neg Bool.false_ne_true, hresponse]

variable [Axum]

/-- Nor does a request that is served. -/
theorem Attended.serve (hjson : SerdeJson.Conforms) (haxum : Axum.Conforms) (h : s.Attended)
    (hvalid : s.service.store.Valid) (hagrees : s.Agrees) {event : ServerEvent}
    (hattends : event.Attends) (hserve : s.serve event = some s')
    (hunpoisoned : s'.poisoned = false) : s'.Attended := by
  cases event with
  | proceed action =>
      rw [System.serve] at hserve
      split at hserve
      · simp at hserve
      · exact h.step hjson hvalid hagrees hattends hserve hunpoisoned
  | request request now outcome =>
      have hrouted := routed_router haxum request now outcome
      rw [System.serve] at hserve
      generalize router request now outcome = routed at hserve hrouted
      cases hrouted with
      | rejected hstatus =>
          obtain rfl := Option.some.inj hserve
          exact h.push rfl (.inr ⟨_, rfl⟩)
      | treeHead => exact h.step hjson hvalid hagrees (by trivial) hserve hunpoisoned
      | get read => exact h.step hjson hvalid hagrees (by trivial) hserve hunpoisoned
      | commit hmethod hpath hbody =>
          exact h.step hjson hvalid hagrees (by trivial) hserve hunpoisoned

/-- A run that nobody leaves. -/
theorem Attended.serves (hjson : SerdeJson.Conforms) (haxum : Axum.Conforms) (h : s.Attended)
    (hserving : Serving s s) {events : List ServerEvent}
    (hattends : ∀ event ∈ events, event.Attends) (hrun : s.serves events = some s')
    (hunpoisoned : s'.poisoned = false) : s'.Attended := by
  have hkeeps : Serving s s' ∧ (s'.poisoned = false → s'.Attended) := by
    have halong : Transition.Along System.serve (fun _ event => event.Attends) s events :=
      Transition.along_of_forall hattends
    refine Transition.run_keeps (I := fun t => Serving s t ∧ (t.poisoned = false → t.Attended)) ?_
      ⟨hserving, fun _ => h⟩ halong hrun
    rintro mid event next ⟨hmid, hattended⟩ hevent hserve
    have hnext := hmid.serve haxum hserve
    refine ⟨hnext, fun hunpoisoned => ?_⟩
    have hgrows := ((Serving.refl hmid.sound hmid.agrees).serve haxum hserve).grows
    exact (hattended (hgrows.unpoisoned hunpoisoned)).serve hjson haxum hmid.sound.valid
      hmid.agrees hevent hserve hunpoisoned
  exact hkeeps.2 hunpoisoned

end System

end

end UnidppLog
