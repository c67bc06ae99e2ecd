/-
# The service refines the reference log

Whatever the handlers of concurrent requests do to each other, each request takes its
effect in its first critical section: in the order of these, the reference log gives the
same answers, and ends with the same records. A request that finds the store's lock
poisoned is lost; it has no answer, and may not have taken its effect.
-/

import UnidppLog.Reference
import UnidppLog.Writes
import UnidppLog.Transition.Chain

namespace UnidppLog

open Json (Value)
open Unidpp
open Transition (Chain)

section

variable [Unidpp]

/-- A handler that gave up over a poisoned lock. -/
def Handler.Lost (handler : Handler) : Prop :=
  handler = .ended none ∨ ∃ read, handler = .served read none

theorem Handler.Lost.answer {handler : Handler} (h : handler.Lost) : handler.answer = none := by
  rcases h with rfl | ⟨read, rfl⟩ <;> rfl

namespace Reference

/-- The log that a service shows, as far as the records do not determine it. -/
def ofService (service : Service) : Reference where
  appendToken := service.appendToken
  operator := service.operator
  buildId := service.buildId
  journaled := service.store.journal.isSome

end Reference

/-- Nothing that the log's answers depend on beside the records has changed. -/
structure Reference.Describes (log : Reference) (service : Service) : Prop where
  appendToken : service.appendToken = log.appendToken
  operator : service.operator = log.operator
  buildId : service.buildId = log.buildId
  journaled : service.store.journal.isSome = log.journaled

theorem Reference.describes_ofService (service : Service) : (ofService service).Describes service :=
  ⟨rfl, rfl, rfl, rfl⟩

variable [SerdeJson]

namespace Reference

/-- What a handler holds, or has answered with, is what the log gives for its request. -/
def Holds (log : Reference) (records : List CommitRecord) : Action → Handler → Prop
  | .commit authorization body now write, .commit outcome phase =>
    (log.commit records authorization body now write).2 = respond outcome ∧
      ∀ r, phase = .answered (some r) → respond outcome = some r
  | .treeHead, .viewing head => head = log.head records
  | .treeHead, .viewed head response => head = log.head records ∧
      ∀ r, response = some r → ∃ tsa, treeHeadResponse log.operator head tsa = some r
  | .get read, .served read' response => read' = read ∧
      ∀ r, response = some r → log.get records read = some r
  | action, .ended response => ∀ r, response = some r → log.Answers records action r
  | _, _ => False

variable {log : Reference} {records : List CommitRecord} {action : Action} {handler : Handler}

/-- What a handler that holds what the log gives answers with, the log may answer with. -/
theorem Holds.answers (h : log.Holds records action handler) {response : Response}
    (hanswer : handler.answer = some response) : log.Answers records action response := by
  cases handler with
  | commit outcome phase =>
      cases action with
      | commit authorization body now write =>
          cases phase with
          | answered answer =>
              obtain rfl : answer = some response := hanswer
              exact h.1.trans (h.2 response rfl)
          | _ => simp [Handler.answer] at hanswer
      | _ => exact h.elim
  | viewing head => simp [Handler.answer] at hanswer
  | viewed head answer =>
      cases action with
      | treeHead =>
          obtain ⟨rfl, hview⟩ := h
          exact hview response hanswer
      | _ => exact h.elim
  | served read answer =>
      cases action with
      | get read' => exact h.2 response hanswer
      | _ => exact h.elim
  | ended answer =>
      cases action <;> exact h response hanswer

/-- A commit that moves on keeps what it holds, as long as it answers by it. -/
theorem Holds.commit {outcome : Except StoreError Value} {phase : CommitPhase}
    (h : log.Holds records action (.commit outcome phase)) (phase' : CommitPhase)
    (hphase : ∀ r, phase' = .answered (some r) → respond outcome = some r) :
    log.Holds records action (.commit outcome phase') := by
  cases action with
  | commit authorization body now write => exact ⟨h.1, hphase⟩
  | _ => exact h.elim

/-- A head that is shown is the one that was read. -/
theorem Holds.view {head : Option SignedTreeHead} (h : log.Holds records action (.viewing head))
    (tsa : Option TsaRecord) :
    log.Holds records action (.viewed head (treeHeadResponse log.operator head tsa)) := by
  cases action with
  | treeHead => exact ⟨h, fun r hr => ⟨tsa, hr⟩⟩
  | _ => exact h.elim

variable [Axum]

/-- One request, with the handler that is on it: turned away, or holding what the log gives
for it, or lost. -/
inductive Serving (log : Reference) (poisoned : Prop) :
    List CommitRecord → ServerEvent × Handler → List CommitRecord → Prop
  | rejected {records : List CommitRecord} {request : HttpRequest} {now : Timestamp}
      {outcome : WriteOutcome} {response : Response}
      (hrouted : router request now outcome = .error response) :
      Serving log poisoned records (.request request now outcome, .ended (some response)) records
  | held {records : List CommitRecord} {request : HttpRequest} {now : Timestamp}
      {outcome : WriteOutcome} {action : Action} {handler : Handler}
      (hrouted : router request now outcome = .ok action)
      (hholds : log.Holds records action handler) :
      Serving log poisoned records (.request request now outcome, handler)
        (log.after records action)
  | lost {records : List CommitRecord} {request : HttpRequest} {now : Timestamp}
      {outcome : WriteOutcome} {handler : Handler} (hpoisoned : poisoned) (hlost : handler.Lost) :
      Serving log poisoned records (.request request now outcome, handler) records

/-- One request, with the handler that is on it: it takes its effect, and whatever the
handler has answered is an answer of the log's; or it has no answer, and no effect. -/
inductive Serves (log : Reference) (poisoned : Prop) :
    List CommitRecord → ServerEvent × Handler → List CommitRecord → Prop
  | effective {records : List CommitRecord} {request : HttpRequest} {now : Timestamp}
      {outcome : WriteOutcome} {handler : Handler}
      (hanswer : ∀ response, handler.answer = some response →
        log.AnswersRequest records request now outcome response) :
      Serves log poisoned records (.request request now outcome, handler)
        (log.afterRequest records request now outcome)
  | lost {records : List CommitRecord} {request : HttpRequest} {now : Timestamp}
      {outcome : WriteOutcome} {handler : Handler} (hpoisoned : poisoned)
      (hanswer : handler.answer = none) :
      Serves log poisoned records (.request request now outcome, handler) records

variable {poisoned poisoned' : Prop} {records' : List CommitRecord} {call : ServerEvent × Handler}

theorem Serving.mono (h : log.Serving poisoned records call records')
    (himp : poisoned → poisoned') : log.Serving poisoned' records call records' := by
  cases h with
  | rejected hrouted => exact .rejected hrouted
  | held hrouted hholds => exact .held hrouted hholds
  | lost hpoisoned hlost => exact .lost (himp hpoisoned) hlost

theorem Serving.serves (h : log.Serving poisoned records call records') :
    log.Serves poisoned records call records' := by
  cases h with
  | @rejected request now outcome response hrouted =>
      have heffect : log.afterRequest records request now outcome = records := by
        rw [afterRequest, hrouted]
      have hserves : log.Serves poisoned records
          (.request request now outcome, .ended (some response))
          (log.afterRequest records request now outcome) := by
        refine .effective fun r hr => ?_
        rw [AnswersRequest, hrouted]
        exact (Option.some.inj hr).symm
      rwa [heffect] at hserves
  | @held request now outcome action handler hrouted hholds =>
      have heffect : log.afterRequest records request now outcome = log.after records action := by
        rw [afterRequest, hrouted]
      have hserves : log.Serves poisoned records (.request request now outcome, handler)
          (log.afterRequest records request now outcome) := by
        refine .effective fun r hr => ?_
        rw [AnswersRequest, hrouted]
        exact hholds.answers hr
      rwa [heffect] at hserves
  | lost hpoisoned hlost => exact .lost hpoisoned hlost.answer

/-- A handler that is not lost moves on, and keeps what it holds. -/
theorem Serving.moves {event : ServerEvent} {old new : Handler}
    (h : log.Serving poisoned records (event, old) records') (hlost : ¬ old.Lost)
    (hended : ∀ response, old ≠ .ended response)
    (hmoves : ∀ records action, log.Holds records action old → log.Holds records action new) :
    log.Serving poisoned records (event, new) records' := by
  cases h with
  | rejected => exact absurd rfl (hended _)
  | held hrouted hholds => exact .held hrouted (hmoves _ _ hholds)
  | lost _ hlost' => exact absurd hlost' hlost

end Reference

/-- A handler that comes with an action holds what the log gives for it, or is lost. -/
def Reference.Arrives (log : Reference) (s s' : System) (action : Action) : Prop :=
  ∃ handler, s'.handlers = s.handlers ++ [handler] ∧ log.Describes s'.service ∧
    (s.poisoned = true → s'.poisoned = true) ∧
      (log.Holds s.service.store.entries action handler ∧
          s'.service.store.entries = log.after s.service.store.entries action ∨
        s'.poisoned = true ∧ handler.Lost ∧
          s'.service.store.entries = s.service.store.entries)

namespace Reference

variable {log : Reference}

/-- A store that a write fails on is journaled, and one that it does not fail on is not, or
the write has succeeded. -/
theorem writeError_eq (hjson : SerdeJson.Conforms) {store store' : LogStore}
    (hvalid : store.Valid) (hjournaled : store.journal.isSome = log.journaled)
    {request : AppendRequest} {outcome : WriteOutcome} {result : Except StoreError CommitRecord}
    (happend : store.append request outcome = some (result, store')) :
    store'.journal.isSome = log.journaled ∧
      ((result = .ok (sequenced store.entries request) ∧ log.writeError outcome = none ∧
          store'.entries = store.entries ++ [sequenced store.entries request]) ∨
        ∃ reason, result = .error (.journal s!"journal write failed: {reason}") ∧
          log.writeError outcome = some reason ∧ store'.entries = store.entries) := by
  rcases hvalid.append_cases hjson happend with ⟨rfl, -, hentries, hjournal⟩ |
    ⟨bytes, kept, reason, rfl, hjournal, rfl, rfl⟩
  · refine ⟨by rw [hjournal, Option.isSome_map, hjournaled], .inl ⟨rfl, ?_, hentries⟩⟩
    cases outcome with
    | written => rfl
    | failed kept reason =>
        cases hbytes : store.journal with
        | none =>
            rw [hbytes] at hjournaled
            simp [writeError, ← hjournaled]
        | some bytes => simp [LogStore.append_failed hjson hbytes] at happend
  · rw [hjournal] at hjournaled
    exact ⟨by simpa using hjournaled, .inr ⟨reason, rfl, by simp [writeError, ← hjournaled], rfl⟩⟩

theorem holds_afterAppend {service : Service} {records : List CommitRecord}
    {authorization : Option String} {body : String} {now : Timestamp} {outcome : WriteOutcome}
    {result : Except StoreError Value}
    (h : (log.commit records authorization body now outcome).2 = respond result) :
    log.Holds records (.commit authorization body now outcome) (service.afterAppend result) := by
  rw [Service.afterAppend]
  split
  · exact ⟨h, by simp⟩
  · exact ⟨h, fun r hr => by simpa using hr⟩

end Reference

namespace System

variable {log : Reference} {s s' : System}

/-- A commit is refused, or fails to write, or is sequenced as the log sequences it. -/
theorem arrives_commit_log (hjson : SerdeJson.Conforms) (hvalid : s.service.store.Valid)
    (hlog : log.Describes s.service) (authorization : Option String) (body : String)
    (now : Timestamp) (outcome : WriteOutcome) :
    log.Arrives s (s.commit authorization body now outcome)
      (.commit authorization body now outcome) := by
  rw [System.commit]
  cases hrequest : s.service.toAppState.commitRequest authorization body now with
  | error response =>
      have hrefused := Reference.commit_of_refused hlog.appendToken hrequest
        s.service.store.entries outcome
      refine ⟨_, rfl, hlog, id, .inl ⟨fun r hr => ?_, ?_⟩⟩
      · rw [Reference.Answers, hrefused, hr]
      · rw [Reference.after, hrefused]
        rfl
  | ok request =>
      obtain ⟨hauthorized, hparse⟩ := Reference.exists_of_commitRequest hlog.appendToken hrequest
      by_cases hpoisoned : s.poisoned = true
      · simp only [hpoisoned, if_true]
        exact ⟨_, rfl, hlog, fun _ => hpoisoned, .inr ⟨hpoisoned, .inl rfl, rfl⟩⟩
      simp only [hpoisoned]
      cases happend : s.service.store.append request outcome with
      | none => exact ⟨_, rfl, hlog, fun _ => rfl, .inr ⟨rfl, .inl rfl, rfl⟩⟩
      | some appended =>
          obtain ⟨result, store⟩ := appended
          obtain ⟨hjournaled, hcases⟩ := Reference.writeError_eq hjson hvalid hlog.journaled happend
          have hlog' : log.Describes { s.service with store } :=
            ⟨hlog.appendToken, hlog.operator, hlog.buildId, hjournaled⟩
          rcases hcases with ⟨rfl, hwritten, hentries⟩ | ⟨reason, rfl, hfailed, hentries⟩
          · have hcommit := Reference.commit_of_sequenced hauthorized hparse hwritten
              s.service.store.entries
            obtain ⟨-, hvalid', -⟩ := hvalid.append hjson happend
            obtain ⟨hseq, -⟩ := hvalid.getElem?_of_append hjson happend
            have hreceipt := log.receipt_eq hvalid'
              (Reference.sequenced s.service.store.entries request).seq
            rw [hseq, hentries, ← hlog.operator] at hreceipt
            simp only [withStore, hreceipt]
            cases hfound : log.receipt (s.service.store.entries ++
              [Reference.sequenced s.service.store.entries request])
                s.service.store.entries.length with
            | none =>
                refine ⟨_, rfl, hlog', fun _ => rfl, .inl ⟨fun r hr => by simp at hr, ?_⟩⟩
                rw [Reference.after, hcommit]
                exact hentries
            | some receipt =>
                refine ⟨_, rfl, hlog', id, .inl ⟨Reference.holds_afterAppend ?_, ?_⟩⟩
                · rw [hcommit, hfound, hlog.operator]
                  rfl
                · rw [Reference.after, hcommit]
                  exact hentries
          · have hcommit := Reference.commit_of_failed hauthorized hparse hfailed
              s.service.store.entries
            refine ⟨_, rfl, hlog', id, .inl ⟨Reference.holds_afterAppend ?_, ?_⟩⟩
            · rw [hcommit]
              rfl
            · rw [Reference.after, hcommit]
              exact hentries

/-- A head is read as the log gives it. -/
theorem arrives_treeHead (hvalid : s.service.store.Valid) (hlog : log.Describes s.service) :
    log.Arrives s s.treeHead .treeHead := by
  rw [System.treeHead]
  by_cases hpoisoned : s.poisoned = true
  · rw [if_pos hpoisoned]
    exact ⟨_, rfl, hlog, id, .inr ⟨hpoisoned, .inl rfl, rfl⟩⟩
  · rw [if_neg hpoisoned, hlog.operator, log.currentHead_eq hvalid]
    exact ⟨_, rfl, hlog, id, .inl ⟨rfl, rfl⟩⟩

/-- A read is answered as the log answers it. -/
theorem arrives_get (hvalid : s.service.store.Valid) (hlog : log.Describes s.service)
    (read : Get) : log.Arrives s (s.get read) (.get read) := by
  rw [get_eq hvalid]
  refine ⟨_, rfl, hlog, id, ?_⟩
  by_cases hlocked : (s.poisoned && Service.locks read) = true
  · rw [if_pos hlocked]
    exact .inr ⟨(Bool.and_eq_true_iff.mp hlocked).1, .inr ⟨read, rfl⟩, rfl⟩
  · rw [if_neg hlocked, Reference.get_eq hvalid hlog.operator hlog.buildId]
    exact .inl ⟨⟨rfl, fun r hr => hr⟩, rfl⟩

variable [Axum]

/-- The handlers are on these requests, in the order in which the log serves them. -/
structure Refines (log : Reference) (initial : List CommitRecord) (requests : List ServerEvent)
    (s : System) : Prop where
  describes : log.Describes s.service
  history : ∃ calls : List (ServerEvent × Handler), calls.map Prod.fst = requests ∧
    calls.map Prod.snd = s.handlers ∧
      Chain (log.Serving (s.poisoned = true)) initial calls s.service.store.entries

variable {initial : List CommitRecord} {requests : List ServerEvent}

/-- A handler comes for a request. -/
theorem Refines.concat (h : s.Refines log initial requests) {event : ServerEvent}
    {handler : Handler} (hhandlers : s'.handlers = s.handlers ++ [handler])
    (hlog : log.Describes s'.service) (hpoisoned : s.poisoned = true → s'.poisoned = true)
    (hserving : log.Serving (s'.poisoned = true) s.service.store.entries (event, handler)
      s'.service.store.entries) : s'.Refines log initial (requests ++ [event]) := by
  obtain ⟨calls, hrequests, hcalls, hchain⟩ := h.history
  refine ⟨hlog, calls ++ [(event, handler)], ?_, ?_, ?_⟩
  · rw [List.map_append, hrequests]
    rfl
  · rw [List.map_append, hcalls, hhandlers]
    rfl
  · exact (hchain.mono fun _ _ _ hcall => hcall.mono hpoisoned).snoc hserving

/-- A handler moves on, and keeps what it holds. -/
theorem Refines.set (h : s.Refines log initial requests) {i : ℕ} {old new : Handler}
    (hi : s.handlers[i]? = some old) (hhandlers : s'.handlers = s.handlers.set i new)
    (hlog : log.Describes s'.service) (hpoisoned : s'.poisoned = s.poisoned)
    (hentries : s'.service.store.entries = s.service.store.entries) (hlost : ¬ old.Lost)
    (hended : ∀ response, old ≠ .ended response)
    (hmoves : ∀ records action, log.Holds records action old → log.Holds records action new) :
    s'.Refines log initial requests := by
  obtain ⟨calls, hrequests, hcalls, hchain⟩ := h.history
  obtain ⟨⟨event, handler⟩, hcall, hold⟩ : ∃ call, calls[i]? = some call ∧ call.2 = old := by
    rw [← hcalls, List.getElem?_map, Option.map_eq_some_iff] at hi
    exact hi
  obtain rfl : handler = old := hold
  obtain ⟨hlt, hget⟩ := List.getElem?_eq_some_iff.mp hcall
  refine ⟨hlog, calls.set i (event, new), ?_, ?_, ?_⟩
  · rw [List.map_set, ← hrequests]
    have hlt' : i < (calls.map Prod.fst).length := by simpa using hlt
    have hsame : (calls.map Prod.fst)[i] = event := by simp [hget]
    rw [← hsame, List.set_getElem_self]
  · rw [List.map_set, hcalls, hhandlers]
  · rw [hentries, hpoisoned]
    exact hchain.set hcall fun _ _ hserving => hserving.moves hlost hended hmoves

/-- A commit that moves on answers, if at all, by its outcome. -/
theorem Refines.set_commit (h : s.Refines log initial requests) {i : ℕ}
    {outcome : Except StoreError Value} {phase : CommitPhase} (phase' : CommitPhase)
    (hi : s.handlers[i]? = some (.commit outcome phase))
    (hhandlers : s'.handlers = s.handlers.set i (.commit outcome phase'))
    (hlog : log.Describes s'.service) (hpoisoned : s'.poisoned = s.poisoned)
    (hentries : s'.service.store.entries = s.service.store.entries)
    (hphase : ∀ r, phase' = .answered (some r) → respond outcome = some r) :
    s'.Refines log initial requests :=
  h.set hi hhandlers hlog hpoisoned hentries (by simp [Handler.Lost]) (by simp)
    fun _ _ hholds => hholds.commit phase' hphase

theorem refines_init (service : Service) :
    (init service).Refines (.ofService service) service.store.entries [] :=
  ⟨Reference.describes_ofService service, [], rfl, rfl, .nil _⟩

/-- A request that the router lets through takes its effect, or is lost. -/
theorem Refines.arrive (h : s.Refines log initial requests) {request : HttpRequest}
    {now : Timestamp} {outcome : WriteOutcome} {action : Action}
    (hrouted : router request now outcome = .ok action) (harrives : log.Arrives s s' action) :
    s'.Refines log initial (requests ++ [.request request now outcome]) := by
  obtain ⟨handler, hhandlers, hlog, hpoisoned, hcases⟩ := harrives
  refine h.concat hhandlers hlog hpoisoned ?_
  rcases hcases with ⟨hholds, hentries⟩ | ⟨htrue, hlost, hentries⟩
  · rw [hentries]
    exact .held hrouted hholds
  · rw [hentries]
    exact .lost htrue hlost

variable [ExternalAnchoring]

/-- A handler that goes on does what its request is answered with. -/
theorem Refines.proceed (h : s.Refines log initial requests) (hvalid : s.service.store.Valid)
    {action : Action} (harrives : action.arrives = false) (hstep : s.step action = some s') :
    s'.Refines log initial requests := by
  have hlog := h.describes
  cases steps_of_step hvalid hstep with
  | headless hi hhead hresponse =>
      exact h.set_commit _ hi rfl hlog rfl rfl fun r hr => hresponse r (by simpa using hr)
  | submitted hi hhead => exact h.set_commit _ hi rfl hlog rfl rfl (by simp)
  | dropped hi => exact h.set_commit _ hi rfl hlog rfl rfl (by simp)
  | recorded hi hsubmit =>
      exact h.set_commit _ hi rfl
        ⟨hlog.appendToken, hlog.operator, hlog.buildId, hlog.journaled⟩ rfl rfl
        fun r hr => by simpa using hr
  | abandoned hi => exact h.set_commit _ hi rfl hlog rfl rfl (by simp)
  | shown hi =>
      rw [hlog.operator]
      exact h.set hi rfl hlog rfl rfl (by simp [Handler.Lost]) (by simp)
        fun _ _ hholds => hholds.view _
  | _ => simp [Action.arrives] at harrives

theorem Refines.serve (hjson : SerdeJson.Conforms) (haxum : Axum.Conforms)
    (h : s.Refines log initial requests) (hvalid : s.service.store.Valid) {event : ServerEvent}
    (hserve : s.serve event = some s') :
    s'.Refines log initial (requests ++ if event.isRequest then [event] else []) := by
  cases event with
  | proceed action =>
      rw [System.serve] at hserve
      split at hserve
      · simp at hserve
      · next harrives =>
        simpa [ServerEvent.isRequest] using h.proceed hvalid (by simpa using harrives) hserve
  | request request now outcome =>
      have hrouted := routed_router haxum request now outcome
      rw [System.serve] at hserve
      generalize hrouter : router request now outcome = routed at hserve hrouted
      cases hrouted with
      | rejected hstatus =>
          obtain rfl := Option.some.inj hserve
          exact h.concat rfl h.describes id (.rejected hrouter)
      | treeHead =>
          obtain rfl := Option.some.inj hserve
          exact h.arrive hrouter (arrives_treeHead hvalid h.describes)
      | get read =>
          obtain rfl := Option.some.inj hserve
          exact h.arrive hrouter (arrives_get hvalid h.describes read)
      | commit hmethod hpath hbody =>
          obtain rfl := Option.some.inj hserve
          exact h.arrive hrouter (arrives_commit_log hjson hvalid h.describes _ _ _ _)

/-- A run of requests and of what their handlers do, from a state that refines the log. -/
theorem Refines.serves (hjson : SerdeJson.Conforms) (haxum : Axum.Conforms)
    (h : s.Refines log initial requests) (hserving : Serving s s) {events : List ServerEvent}
    (hrun : s.serves events = some s') :
    s'.Refines log initial (requests ++ events.filter ServerEvent.isRequest) := by
  induction events generalizing s requests with
  | nil =>
      obtain rfl := Option.some.inj hrun
      simpa using h
  | cons event rest ih =>
      rw [System.serves, Transition.run_cons] at hrun
      obtain ⟨next, hnext, hrest⟩ := Option.bind_eq_some_iff.mp hrun
      have hserving' := hserving.serve haxum hnext
      have hlater := ih (h.serve hjson haxum hserving.sound.valid hnext)
        (.refl hserving'.sound hserving'.agrees) hrest
      rw [List.append_assoc] at hlater
      rw [List.filter_cons]
      cases hrequest : event.isRequest <;> simpa [hrequest] using hlater

/-- Where signing does not fail, no request poisons the lock of a log with room. -/
theorem poisoned_serves (hjson : SerdeJson.Conforms) (haxum : Axum.Conforms)
    (hserving : Serving s s) (hpoisoned : s.poisoned = false)
    (hsign : ∀ bytes, ∃ slot, sign s.service.operator.key .treeHead bytes = .ok slot)
    {events : List ServerEvent} (hrun : s.serves events = some s')
    (hroom : s'.service.store.entries.length + 1 < 2 ^ 64) : s'.poisoned = false := by
  have hkeeps : Serving s s' ∧
      (s'.poisoned = true → 2 ^ 64 ≤ s'.service.store.entries.length + 1) := by
    refine Transition.run_invariant (I := fun t => Serving s t ∧
      (t.poisoned = true → 2 ^ 64 ≤ t.service.store.entries.length + 1)) ?_
      ⟨hserving, fun htrue => by simp [hpoisoned] at htrue⟩ hrun
    rintro mid event next ⟨hmid, hfull⟩ hserve
    have hnext := hmid.serve haxum hserve
    have hlater := (Serving.refl hmid.sound hmid.agrees).serve haxum hserve
    refine ⟨hnext, fun htrue => ?_⟩
    rcases serve_cases haxum hserve with ⟨response, -, rfl⟩ | ⟨action, hstep⟩
    · exact hfull htrue
    · by_cases hroom : mid.service.store.entries.length + 1 < 2 ^ 64
      · rw [poisoned_step hjson hmid.sound.valid (by rwa [hmid.grows.operator]) hroom hstep]
          at htrue
        exact absurd hroom (Nat.not_lt.mpr (hfull htrue))
      · have hle := hlater.grows.entries.length_le
        omega
  cases hcase : s'.poisoned with
  | false => rfl
  | true => exact absurd hroom (Nat.not_lt.mpr (hkeeps.2 hcase))

/-- However requests and handlers interleave, and whatever becomes of the writes, there is one
handler for each request, and the reference log, which serves the requests one after the other
in that order from the records that were opened to the records that the store has, gives every
answer that was sent. A request is lost only behind a poisoned lock; the lock is not poisoned
while signing does not fail and the log has room. -/
theorem linearizable (hjson : SerdeJson.Conforms) (haxum : Axum.Conforms) {config : Config}
    {journal : Option JournalFile} {service : Service}
    (hnew : Service.new config journal = some (.ok service)) {events : List ServerEvent}
    (hrun : (init service).serves events = some s) :
    (∃ calls : List (ServerEvent × Handler),
      calls.map Prod.fst = events.filter ServerEvent.isRequest ∧
      calls.map Prod.snd = s.handlers ∧
      Chain ((Reference.ofService service).Serves (s.poisoned = true)) service.store.entries
        calls s.service.store.entries) ∧
    ((∀ bytes, ∃ slot, sign service.operator.key .treeHead bytes = .ok slot) →
      s.service.store.entries.length + 1 < 2 ^ 64 → s.poisoned = false) := by
  have hserving : Serving (init service) (init service) :=
    .refl (sound_init hnew) (agrees_init service)
  obtain ⟨calls, hrequests, hcalls, hchain⟩ :=
    ((refines_init service).serves hjson haxum hserving hrun).history
  refine ⟨⟨calls, hrequests, hcalls, hchain.mono fun _ _ _ hcall => hcall.serves⟩, ?_⟩
  exact fun hsign hroom => poisoned_serves hjson haxum hserving rfl hsign hrun hroom

end System

end

/-- A commit with the token and one without, in the order of the log. -/
theorem Sample.linearizable_of_two :
    ∃ (s : System) (calls : List (ServerEvent × Handler)),
      (System.init guardedService).serves
        [.request (posted "Bearer secret") (Fin.last 59) .written,
          .request (posted "Bearer other") (Fin.last 59) .written] = some s ∧
      calls.map Prod.fst = [.request (posted "Bearer secret") (Fin.last 59) .written,
          .request (posted "Bearer other") (Fin.last 59) .written] ∧
      calls.map Prod.snd = s.handlers ∧
      Chain ((Reference.ofService guardedService).Serves (s.poisoned = true)) [] calls
        s.service.store.entries := by
  have hrun := Transition.run_snoc
    (Transition.run_one
      (serve_posted (System.init guardedService) "Bearer secret" (Fin.last 59) .written))
    (serve_posted _ "Bearer other" (Fin.last 59) .written)
  obtain ⟨⟨calls, hrequests, hcalls, hchain⟩, -⟩ :=
    System.linearizable serdeJson_conforms axum_conforms new_guardedService hrun
  exact ⟨_, calls, hrun, hrequests, hcalls, hchain⟩

end UnidppLog
