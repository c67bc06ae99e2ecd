/-
# What the answers do not depend on

The external anchor is additive, a journal that takes its lines is transparent, and the
schedule behind the requests is nobody's business: two services of one operator that the
same requests come to in the same order keep the same log and give the same answers,
except for what a head is shown beside. The service is compared with itself by way of
the reference log, which both refine.
-/

import UnidppLog.Refinement
import UnidppLog.Sample.Deployment

namespace UnidppLog

open Json (Value)
open Unidpp
open Transition (Chain)

section

variable [Unidpp]

namespace Reference

/-- Two logs that differ at most in whether their records are journaled. -/
structure Alike (log log' : Reference) : Prop where
  appendToken : log.appendToken = log'.appendToken
  operator : log.operator = log'.operator
  buildId : log.buildId = log'.buildId

variable {log log' : Reference} {records : List CommitRecord} {outcome outcome' : WriteOutcome}

theorem Alike.head_eq (h : log.Alike log') (records : List CommitRecord) :
    log.head records = log'.head records := by
  rw [head, head, h.operator]

section

variable [Axum]

/-- A route that answers `GET` does nothing with a write. -/
theorem onGet_cases {handler : Except Response Action} {now : Timestamp} (method : Method)
    (h : (∃ response, handler = .error response) ∨ handler = .ok .treeHead ∨
      ∃ read, handler = .ok (.get read)) :
    (∃ response, onGet method handler = .error response ∧
        onGet method handler = .error response) ∨
      (∃ authorization body,
        onGet method handler = .ok (.commit authorization body now outcome) ∧
          onGet method handler = .ok (.commit authorization body now outcome')) ∨
      (onGet method handler = .ok .treeHead ∧ onGet method handler = .ok .treeHead) ∨
      ∃ read, onGet method handler = .ok (.get read) ∧
        onGet method handler = .ok (.get read) := by
  have hhandler : onGet method handler = handler ∨
      onGet method handler = .error Axum.methodNotAllowed := by
    cases method with
    | get => exact .inl rfl
    | head => exact .inl rfl
    | _ => exact .inr rfl
  rcases hhandler with heq | heq
  · rcases h with ⟨response, rfl⟩ | rfl | ⟨read, rfl⟩
    · exact .inl ⟨_, heq, heq⟩
    · exact .inr (.inr (.inl ⟨heq, heq⟩))
    · exact .inr (.inr (.inr ⟨_, heq, heq⟩))
  · exact .inl ⟨_, heq, heq⟩

/-- What becomes of the write is all that the router passes on of it. -/
theorem router_cases (request : HttpRequest) (now : Timestamp) (outcome outcome' : WriteOutcome) :
    (∃ response, router request now outcome = .error response ∧
        router request now outcome' = .error response) ∨
      (∃ authorization body,
        router request now outcome = .ok (.commit authorization body now outcome) ∧
          router request now outcome' = .ok (.commit authorization body now outcome')) ∨
      (router request now outcome = .ok .treeHead ∧
        router request now outcome' = .ok .treeHead) ∨
      ∃ read, router request now outcome = .ok (.get read) ∧
        router request now outcome' = .ok (.get read) := by
  rw [router, router]
  cases route request.path with
  | none => exact .inl ⟨_, rfl, rfl⟩
  | some route =>
      cases route with
      | discovery => exact onGet_cases _ (.inr (.inr ⟨_, rfl⟩))
      | healthz => exact onGet_cases _ (.inr (.inr ⟨_, rfl⟩))
      | commitments =>
          cases request.method with
          | post =>
              cases Axum.bodyText request with
              | error response => exact .inl ⟨response, rfl, rfl⟩
              | ok body => exact .inr (.inl ⟨_, body, rfl, rfl⟩)
          | _ => exact .inl ⟨_, rfl, rfl⟩
      | treeHead => exact onGet_cases _ (.inr (.inl rfl))
      | treeConsistency =>
          refine onGet_cases _ ?_
          cases Axum.queryParams request.query with
          | error response => exact .inl ⟨response, rfl⟩
          | ok params => exact .inr (.inr ⟨_, rfl⟩)
      | receipt segment =>
          refine onGet_cases _ ?_
          cases Axum.segmentText segment with
          | error response => exact .inl ⟨response, rfl⟩
          | ok seq => exact .inr (.inr ⟨_, rfl⟩)

end

variable [SerdeJson]

/-- Whether records are journaled is seen by whose writes fail only. -/
theorem Alike.commit_eq (h : log.Alike log') (hwrite : log.writeError outcome =
    log'.writeError outcome') (records : List CommitRecord) (authorization : Option String)
    (body : String) (now : Timestamp) :
    log.commit records authorization body now outcome =
      log'.commit records authorization body now outcome' := by
  obtain ⟨token, operator, buildId, journaled⟩ := log
  obtain ⟨token', operator', buildId', journaled'⟩ := log'
  obtain ⟨rfl, rfl, rfl⟩ := h
  rw [commit, commit, hwrite]
  rfl

theorem Alike.get_eq (h : log.Alike log') (records : List CommitRecord) (read : Get) :
    log.get records read = log'.get records read := by
  obtain ⟨token, operator, buildId, journaled⟩ := log
  obtain ⟨token', operator', buildId', journaled'⟩ := log'
  obtain ⟨rfl, rfl, rfl⟩ := h
  cases read <;> rfl

/-- The same answer, or the same head beside what two services know of its anchor. -/
def SameAnswer (log : Reference) (response response' : Response) : Prop :=
  response = response' ∨ ∃ head tsa tsa',
    treeHeadResponse log.operator head tsa = some response ∧
      treeHeadResponse log.operator head tsa' = some response'

section

variable [Axum]

/-- Alike logs serve a request alike, if its write fails on both with the same error, or on
neither. -/
theorem Alike.serves (h : log.Alike log') (hwrite : log.writeError outcome =
    log'.writeError outcome') (records : List CommitRecord) (request : HttpRequest)
    (now : Timestamp) :
    log.afterRequest records request now outcome = log'.afterRequest records request now outcome' ∧
      ∀ response response', log.AnswersRequest records request now outcome response →
        log'.AnswersRequest records request now outcome' response' →
          log.SameAnswer response response' := by
  simp only [afterRequest, AnswersRequest]
  rcases router_cases request now outcome outcome' with ⟨response, hrouted, hrouted'⟩ |
    ⟨authorization, body, hrouted, hrouted'⟩ | ⟨hrouted, hrouted'⟩ | ⟨read, hrouted, hrouted'⟩
  · rw [hrouted, hrouted']
    exact ⟨rfl, fun r r' hr hr' => .inl (Eq.trans hr (Eq.symm hr'))⟩
  · rw [hrouted, hrouted']
    have hcommit := h.commit_eq hwrite records authorization body now
    refine ⟨congrArg Prod.fst hcommit, fun r r' hr hr' => .inl ?_⟩
    have hsame : some r = some r' := (Eq.symm hr).trans ((congrArg Prod.snd hcommit).trans hr')
    exact Option.some.inj hsame
  · rw [hrouted, hrouted']
    refine ⟨rfl, ?_⟩
    rintro r r' ⟨tsa, hr⟩ ⟨tsa', hr'⟩
    rw [← h.head_eq, ← h.operator] at hr'
    exact .inr ⟨log.head records, tsa, tsa', hr, hr'⟩
  · rw [hrouted, hrouted']
    refine ⟨rfl, fun r r' hr hr' => .inl ?_⟩
    have hsame : some r = some r' := (Eq.symm hr).trans ((h.get_eq records read).trans hr')
    exact Option.some.inj hsame

end

end Reference

variable [SerdeJson]

/-- The same request at the same time, whose write fails on both logs with the same error, or
on neither. -/
inductive ServerEvent.Alike (log log' : Reference) : ServerEvent → ServerEvent → Prop
  | request {request : HttpRequest} {now : Timestamp} {outcome outcome' : WriteOutcome}
      (hwrite : log.writeError outcome = log'.writeError outcome') :
      Alike log log' (.request request now outcome) (.request request now outcome')

/-- Alike logs that serve like requests have the same records behind them, and whatever the
handlers have answered are the same answers. -/
theorem Reference.Alike.step [Axum] {log log' : Reference} (h : log.Alike log')
    (records : List CommitRecord) (call call' : ServerEvent × Handler)
    (after after' : List CommitRecord) (hevents : ServerEvent.Alike log log' call.1 call'.1)
    (hserves : log.Serves False records call after)
    (hserves' : log'.Serves False records call' after') :
    after = after' ∧ ∀ response response', call.2.answer = some response →
      call'.2.answer = some response' → log.SameAnswer response response' := by
  obtain ⟨event, handler⟩ := call
  obtain ⟨event', handler'⟩ := call'
  cases hevents with
  | @request request now outcome outcome' hwrite =>
      obtain ⟨hafter, hsame⟩ := h.serves hwrite records request now
      cases hserves with
      | lost hpoisoned => exact hpoisoned.elim
      | effective hanswer =>
          cases hserves' with
          | lost hpoisoned => exact hpoisoned.elim
          | effective hanswer' =>
              exact ⟨hafter, fun r r' hr hr' => hsame r r' (hanswer r hr) (hanswer' r' hr')⟩

namespace System

variable [Axum] [ExternalAnchoring] {s s' : System}

/-- The handlers of a run without a poisoned lock, in the order in which the log serves them. -/
theorem exists_calls (hjson : SerdeJson.Conforms) (haxum : Axum.Conforms) {config : Config}
    {journal : Option JournalFile} {service : Service}
    (hnew : Service.new config journal = some (.ok service)) {events : List ServerEvent}
    (hrun : (init service).serves events = some s)
    (hsign : ∀ bytes, ∃ slot, sign service.operator.key .treeHead bytes = .ok slot)
    (hroom : s.service.store.entries.length + 1 < 2 ^ 64) :
    s.service.store.Valid ∧ ∃ calls : List (ServerEvent × Handler),
      calls.map Prod.fst = events.filter ServerEvent.isRequest ∧ calls.map Prod.snd = s.handlers ∧
        Chain ((Reference.ofService service).Serves False) service.store.entries calls
          s.service.store.entries := by
  have hinit : Serving (init service) (init service) :=
    .refl (sound_init hnew) (agrees_init service)
  obtain ⟨calls, hrequests, hcalls, hchain⟩ :=
    ((refines_init service).serves hjson haxum hinit hrun).history
  have hunpoisoned := poisoned_serves hjson haxum hinit rfl hsign hrun hroom
  refine ⟨(hinit.serves haxum hrun).sound.valid, calls, hrequests, hcalls, ?_⟩
  have hsound : ¬ s.poisoned = true := by simp [hunpoisoned]
  exact hchain.mono fun _ _ _ hcall => (hcall.mono hsound).serves

/-- What clients are answered does not depend on the external anchor, on whether the log is
kept in memory or on a journal that takes its lines, on the schedule behind the requests, or
on who leaves: two services of one operator, over the same records, that the same requests come
to in the same order have the same log in the end, and of two answers to one request, one is
the other, or both show the same head. -/
theorem answers_independent (hjson : SerdeJson.Conforms) (haxum : Axum.Conforms)
    {config config' : Config} {journal journal' : Option JournalFile} {service service' : Service}
    (hnew : Service.new config journal = some (.ok service))
    (hnew' : Service.new config' journal' = some (.ok service'))
    (halike : (Reference.ofService service).Alike (.ofService service'))
    (hentries : service.store.entries = service'.store.entries)
    {events events' : List ServerEvent}
    (hrun : (init service).serves events = some s)
    (hrun' : (init service').serves events' = some s')
    (hevents : List.Forall₂ (ServerEvent.Alike (.ofService service) (.ofService service'))
      (events.filter ServerEvent.isRequest) (events'.filter ServerEvent.isRequest))
    (hsign : ∀ bytes, ∃ slot, sign service.operator.key .treeHead bytes = .ok slot)
    (hroom : s.service.store.entries.length + 1 < 2 ^ 64)
    (hroom' : s'.service.store.entries.length + 1 < 2 ^ 64) :
    s.service.store.entries = s'.service.store.entries ∧
      s.service.store.tree = s'.service.store.tree ∧
      ∀ i response response', s.answerOf i = some response → s'.answerOf i = some response' →
        (Reference.ofService service).SameAnswer response response' := by
  have hoperator : service.operator = service'.operator := halike.operator
  obtain ⟨hvalid, calls, hrequests, hcalls, hchain⟩ :=
    exists_calls hjson haxum hnew hrun hsign hroom
  obtain ⟨hvalid', calls', hrequests', hcalls', hchain'⟩ :=
    exists_calls hjson haxum hnew' hrun' (hoperator ▸ hsign) hroom'
  have hmatch : List.Forall₂ (fun call call' : ServerEvent × Handler =>
      ServerEvent.Alike (.ofService service) (.ofService service') call.1 call'.1) calls
        calls' := by
    rw [← hrequests, ← hrequests', List.forall₂_map_left_iff, List.forall₂_map_right_iff]
      at hevents
    exact hevents
  rw [← hentries] at hchain'
  obtain ⟨hsame, hanswers⟩ := Chain.lockstep halike.step hmatch hchain hchain'
  have htree : s.service.store.tree = s'.service.store.tree := by
    have heq := hvalid.tree_eq
    rw [LogStore.commitments, hsame] at heq
    exact Option.some.inj (heq.symm.trans hvalid'.tree_eq)
  refine ⟨hsame, htree, fun i r r' hr hr' => ?_⟩
  obtain ⟨handler, hi, hanswer⟩ := Option.bind_eq_some_iff.mp hr
  obtain ⟨handler', hi', hanswer'⟩ := Option.bind_eq_some_iff.mp hr'
  have hhandlers : List.Forall₂ (fun handler handler' : Handler => ∀ r r',
      handler.answer = some r → handler'.answer = some r' →
        (Reference.ofService service).SameAnswer r r') s.handlers s'.handlers := by
    rw [← hcalls, ← hcalls', List.forall₂_map_left_iff, List.forall₂_map_right_iff]
    exact hanswers
  obtain ⟨hlt, rfl⟩ := List.getElem?_eq_some_iff.mp hi
  obtain ⟨hlt', rfl⟩ := List.getElem?_eq_some_iff.mp hi'
  exact (List.forall₂_iff_get.mp hhandlers).2 i hlt hlt' r r' hanswer hanswer'

end System

end

namespace Sample

/-- The sample service with its log in memory, and without an authority. -/
def inMemory : Service :=
  { service none with store := { empty with journal := none } }

theorem new_inMemory : Service.new (config none) none = some (.ok inMemory) :=
  rfl

/-- A first commit is sequenced. -/
theorem exists_posted {s : System} (hrunning : s.Running) (htoken : s.service.appendToken = none)
    (hempty : s.service.store.entries = []) :
    ∃ (t : System) (v : Value),
      s.serve (.request (posted "Bearer secret") (Fin.last 59) .written) = some t ∧ t.Running ∧
        t.service.store.entries.length = 1 ∧
        t.service.externalTsaUrl = s.service.externalTsaUrl ∧
        t.handlers = s.handlers ++ [s.service.afterAppend (.ok v)] := by
  have hallowed : s.service.commitRequest (headerToStr (Text.encode "Bearer secret".toList))
      (body "dpp:1" (digest [1])) (Fin.last 59) =
        .ok { request (Fin.last 59) "dpp:1" with commitment := digest [1] } := by
    rw [AppState.commitRequest, AppState.allowsAppend, htoken, parseCommit_body
      (show Text.trim "dpp:1".toList = "dpp:1".toList by decide) (by decide) (by decide)
      (digest [1]) (Fin.last 59)]
    rfl
  obtain ⟨receipt, store, hvalid, hentries, -, hcommit⟩ :=
    hrunning.commit serdeJson_conforms hallowed (by rw [hempty]; decide)
  refine ⟨_, _, (serve_posted _ _ _ _).trans (congrArg some hcommit),
    ⟨hvalid, hrunning.unpoisoned, hrunning.signs⟩, ?_, rfl, rfl⟩
  rw [hempty] at hentries
  exact congrArg List.length hentries

/-- A commit to a log in memory without an authority, and one to a log on a journal with an
authority that cannot be reached: the logs are the same, and the answers. -/
theorem answers_independent_of_anchor :
    ∃ (s s' : System) (response response' : Response),
      (System.init inMemory).serves
        [.request (posted "Bearer secret") (Fin.last 59) .written] = some s ∧
      (System.init (service (some tsaUrl))).serves
        [.request (posted "Bearer secret") (Fin.last 59) .written, .proceed (.readHead 0),
          .proceed (.record 0 (Fin.last 59) (.error "connect timeout"))] = some s' ∧
      s.answerOf 0 = some response ∧ s'.answerOf 0 = some response' ∧
      s.service.store.entries = s'.service.store.entries ∧
      (Reference.ofService inMemory).SameAnswer response response' := by
  obtain ⟨s, v, hpost, hup, hlength, -, hhandlers⟩ :=
    exists_posted (s := System.init inMemory) ⟨LogStore.valid_empty _, rfl, signs⟩ rfl rfl
  obtain ⟨one, v', hpost', hup', hlength', hurl, hhandlers'⟩ :=
    exists_posted (s := System.init (service (some tsaUrl))) ⟨valid_empty, rfl, signs⟩ rfl rfl
  have hfirst : one.handlers[0]? = some (.commit (.ok v') .appended) := by
    rw [hhandlers']
    rfl
  obtain ⟨head, -, -, hread⟩ := hup'.readHead (by omega) 0 (.ok v')
  have hheads : one.serve (.proceed (.readHead 0)) = some (one.readHead 0 (.ok v')) := by
    rw [System.serve]
    simp only [Action.arrives, System.step, hfirst]
    rfl
  rw [hread] at hheads
  set two := { one.set 0 (.commit (.ok v') (.submitting head)) with
    submitted := one.submitted ++ [head] } with htwo
  have hsecond : two.handlers[0]? = some (.commit (.ok v') (.submitting head)) := by
    rw [htwo, System.set, hhandlers']
    rfl
  obtain ⟨record, hsubmit, -⟩ :=
    exists_unreachable head.anchoredExternally (Fin.last 59) "connect timeout"
  obtain ⟨three, hrecord, hhandlers₃, hstore⟩ : ∃ three,
      two.serve (.proceed (.record 0 (Fin.last 59) (.error "connect timeout"))) = some three ∧
        three.handlers = [.commit (.ok v') (.answered (respond (.ok v')))] ∧
          three.service.store = one.service.store := by
    refine ⟨two.record 0 (.ok v') head tsaUrl (Fin.last 59) (.error "connect timeout"), ?_, ?_, ?_⟩
    · rw [System.serve]
      simp only [Action.arrives, System.step, hsecond,
        show two.service.externalTsaUrl = some tsaUrl from hurl]
      rfl
    · rw [System.record, hsubmit, htwo, System.set, System.set, hhandlers']
      rfl
    · rw [System.record, hsubmit, htwo]
      rfl
  obtain ⟨response, hresponse⟩ : ∃ response, respond (.ok v) = some response := ⟨_, rfl⟩
  obtain ⟨response', hresponse'⟩ : ∃ response, respond (.ok v') = some response := ⟨_, rfl⟩
  have hrun := Transition.run_one hpost
  have hrun' := Transition.run_snoc (Transition.run_snoc (Transition.run_one hpost') hheads)
    hrecord
  have hanswer : s.answerOf 0 = some response := by
    rw [System.answerOf, hhandlers, ← hresponse]
    rfl
  have hanswer' : three.answerOf 0 = some response' := by
    rw [System.answerOf, hhandlers₃, ← hresponse']
    rfl
  obtain ⟨hentries, -, hsame⟩ := System.answers_independent serdeJson_conforms axum_conforms
    new_inMemory (new_service (some tsaUrl)) ⟨rfl, rfl, rfl⟩ rfl hrun hrun'
    (.cons (.request rfl) .nil) signs (by rw [hlength]; decide) (by rw [hstore, hlength']; decide)
  exact ⟨s, three, response, response', hrun, hrun', hanswer, hanswer', hentries,
    hsame 0 response response' hanswer hanswer'⟩

end Sample

end UnidppLog
