/-
# Sessions on one journal

The service, started, stopped and killed any number of times on one journal file, with
any number of requests in flight in each session. As long as nothing is written behind
a line that was cut short, the reference log serves the requests of all sessions one
after the other; between two sessions it gains at most the one record whose write was
cut short in the first of them. Where a line was cut short and the service goes on, the
next write would be lost with it, so that the condition is not the service's own.
-/

import UnidppLog.Refinement
import UnidppLog.History
import Mathlib.Data.List.ReduceOption

namespace UnidppLog

open Json (Value)
open Unidpp
open Journal (Recovers Clean)
open Transition (Chain)
open Text (trim)

section

variable [Unidpp]

/-- The journal file, the system while it runs, and the handlers of the sessions that have
ended. -/
structure Deployment where
  file : JournalFile
  running : Option System
  past : List Handler

/-- What can happen to a deployment. A crash comes while a request is served, and leaves so
many bytes of what the request would have written. -/
inductive Occurrence
  | start
  | serve (event : ServerEvent)
  | stop
  | crash (request : HttpRequest) (now : Timestamp) (kept : ℕ)

/-- The request that comes to the service. -/
def Occurrence.request : Occurrence → Option ServerEvent
  | .serve event => if event.isRequest then some event else none
  | .crash request now kept => some (.request request now (.failed kept "crash"))
  | _ => none

namespace Deployment

/-- No journal yet. -/
def init : Deployment where
  file := none
  running := none
  past := []

/-- The handlers of all sessions, in their order. -/
def handlers (d : Deployment) : List Handler :=
  d.past ++ (d.running.map System.handlers).getD []

variable [SerdeJson] [ExternalAnchoring] [Axum]

/-- One occurrence, or `none` where it cannot happen. Where the service stops, its handlers
have answered what they have answered. -/
def step (config : Config) (d : Deployment) : Occurrence → Option Deployment
  | .start => do
    if d.running.isSome then none
    match ← Service.new config (some d.file) with
    | .error _ => none
    | .ok service =>
      return { d with file := service.store.journal, running := some (.init service) }
  | .serve event => do
    let s ← (← d.running).serve event
    return { d with file := s.service.store.journal, running := some s }
  | .stop => do
    let s ← d.running
    return { d with running := none, past := d.past ++ s.handlers }
  | .crash request now kept => do
    let s ← d.running
    let torn ← s.serve (.request request now (.failed kept "crash"))
    return { file := torn.service.store.journal, running := none,
             past := d.past ++ s.handlers ++ [.ended none] }

/-- A run of a deployment. -/
def run (config : Config) (d : Deployment) (occurrences : List Occurrence) : Option Deployment :=
  Transition.run (step config) d occurrences

end Deployment

/-- The write fails, and something of the line is in the journal. -/
def WriteOutcome.cutShort : WriteOutcome → Bool
  | .written => false
  | .failed kept _ => kept ≠ 0

/-- Something of the line gets into the journal. -/
def WriteOutcome.Reaches (outcome : WriteOutcome) : Prop :=
  outcome = .written ∨ outcome.cutShort = true

variable [SerdeJson]

/-- A commit leaves the store alone, or appends to it what it may append. -/
theorem System.store_of_commit (s : System) (authorization : Option String) (body : String)
    (now : Timestamp) (outcome : WriteOutcome) :
    (s.commit authorization body now outcome).service.store = s.service.store ∨
      s.poisoned = false ∧ ∃ append result,
        s.service.toAppState.commitRequest authorization body now = .ok append ∧
          s.service.store.append append outcome =
            some (result, (s.commit authorization body now outcome).service.store) := by
  rw [System.commit]
  split
  · exact .inl rfl
  · next append hrequest =>
    split
    · exact .inl rfl
    · next hpoisoned =>
      split
      · exact .inl rfl
      · next happend => exact .inr ⟨by simpa using hpoisoned, append, _, hrequest, happend⟩
      · next record store happend =>
        refine .inr ⟨by simpa using hpoisoned, append, .ok record, hrequest, ?_⟩
        dsimp only
        split <;> exact happend

/-! ## The log across sessions -/

/-- The records of a log, and the appends whose writes were cut short since the service came
up. -/
structure Ledger where
  records : List CommitRecord
  doubt : List AppendRequest

namespace Reference

/-- What the file opens as: the records, or these and one that is in doubt. -/
def Opens (file : JournalFile) (ledger : Ledger) : Prop :=
  ∀ entries, Recovers lineCodec inSequence (file.getD []) entries →
    entries = ledger.records ∨
      ∃ request ∈ ledger.doubt, entries = ledger.records ++ [sequenced ledger.records request]

theorem Opens.mono {file : JournalFile} {records : List CommitRecord}
    {doubt : List AppendRequest} (h : Opens file ⟨records, doubt⟩) (more : List AppendRequest) :
    Opens file ⟨records, doubt ++ more⟩ := by
  intro entries hentries
  rcases h entries hentries with hsame | ⟨request, hrequest, hsame⟩
  · exact .inl hsame
  · exact .inr ⟨request, List.mem_append_left _ hrequest, hsame⟩

/-- The log that a deployment shows. -/
def ofConfig (config : Config) (operator : Operator) : Reference where
  appendToken := config.appendToken
  operator := operator
  buildId := config.buildId
  journaled := true

theorem describes_ofConfig {config : Config} {operator : Operator}
    (hoperator : Operator.fromConfig config.operator = .ok operator) {file : JournalFile}
    {service : Service} (hnew : Service.new config (some file) = some (.ok service)) :
    (ofConfig config operator).Describes service := by
  rw [Service.new, hoperator] at hnew
  obtain ⟨result, hopen, hnew⟩ := Option.bind_eq_some_iff.mp hnew
  cases result with
  | error e => simp at hnew
  | ok store =>
      obtain rfl : _ = service := by simpa using hnew
      obtain ⟨-, -, hjournal⟩ := LogStore.recovers_of_open hopen
      exact ⟨rfl, rfl, rfl, by simp [hjournal, ofConfig]⟩

end Reference

/-- Behind the lines of the log's records, a write leaves a file that opens as the store's
records, or as these and the record whose write was cut short. -/
theorem LogStore.Valid.opens_append (hforms : RecordTextForms) (hjson : SerdeJson.Conforms)
    {store store' : LogStore} (hvalid : store.Valid) {bytes : List UInt8}
    (hjournal : store.journal = some bytes) {append : AppendRequest} {outcome : WriteOutcome}
    {result : Except StoreError CommitRecord}
    (happend : store.append append outcome = some (result, store'))
    (hclean : outcome.Reaches → Clean lineCodec inSequence bytes store.entries)
    {cut : Option AppendRequest}
    (hcut : cut = if outcome.cutShort = true then some append else none)
    {doubt : List AppendRequest} (hopens : Reference.Opens (some bytes) ⟨store.entries, doubt⟩) :
    ∃ bytes', store'.journal = some bytes' ∧
      Reference.Opens (some bytes') ⟨store'.entries, doubt ++ cut.toList⟩ := by
  have hseq := LogStore.inSequence_nextRecord store append
  rcases hvalid.append_cases hjson happend with ⟨rfl, -, hentries, hjournal'⟩ |
    ⟨bytes', kept, reason, rfl, hbytes', -, rfl⟩
  · have hwritten : outcome = .written := by
      cases outcome with
      | written => rfl
      | failed kept reason => simp [LogStore.append_failed hjson hjournal] at happend
    rw [hjournal, Option.map_some] at hjournal'
    refine ⟨_, hjournal', fun entries h => .inl ?_⟩
    have hclean' := (hclean (.inl hwritten)).append (lineCodec_lawful hforms hjson) hseq
    exact (h.unique hclean'.recovers).trans hentries.symm
  · obtain rfl : bytes = bytes' := Option.some.inj (hjournal.symm.trans hbytes')
    refine ⟨_, rfl, fun entries h => ?_⟩
    cases kept with
    | zero =>
        rw [List.take_zero, List.append_nil] at h
        rw [hcut]
        simpa [WriteOutcome.cutShort] using hopens entries h
    | succ kept =>
        have hshort : WriteOutcome.cutShort (.failed (kept + 1) reason) = true := rfl
        have hclean' := hclean (.inr hshort)
        have hentries := Server.recovers_part_unique hforms hjson hclean'.1 hseq
          (fun other hother => hother.unique hclean'.recovers) (List.take_prefix _ _) h
        split at hentries
        · exact .inr ⟨append, by simp [hcut, hshort], hentries⟩
        · exact .inl (by simpa using hentries)

variable [Axum]

/-- The request is a commit whose write gets into the journal. -/
def System.Writes (s : System) (request : HttpRequest) (now : Timestamp)
    (outcome : WriteOutcome) : Prop :=
  s.poisoned = false ∧ outcome.Reaches ∧ ∃ authorization body append,
    router request now outcome = .ok (.commit authorization body now outcome) ∧
      s.service.toAppState.commitRequest authorization body now = .ok append

/-- What is written is written behind the lines of the log's records and nothing else, and
the log has room for it. -/
def Deployment.InStep (d : Deployment) (occurrence : Occurrence) : Prop :=
  ∀ s, d.running = some s → ∀ request now outcome,
    occurrence.request = some (.request request now outcome) → s.Writes request now outcome →
      Clean lineCodec inSequence (d.file.getD []) s.service.store.entries ∧
        s.service.store.entries.length + 1 < 2 ^ 64

namespace Reference

/-- The append whose write a request leaves cut short. -/
def cut (log : Reference) : ServerEvent → Option AppendRequest
  | .request request now outcome =>
    match router request now outcome with
    | .ok (.commit authorization body now outcome) =>
      if outcome.cutShort = true ∧ log.Authorized authorization then
        (parseCommit body now).toOption
      else none
    | _ => none
  | .proceed _ => none

/-- A request is served or lost; or the session ends, and what was in doubt is dropped, or one
of it is the log's next record. -/
inductive Survives (log : Reference) : Ledger → Option (ServerEvent × Handler) → Ledger → Prop
  | call {records records' : List CommitRecord} {doubt : List AppendRequest}
      {call : ServerEvent × Handler} (hserves : log.Serves True records call records') :
      Survives log ⟨records, doubt⟩ (some call) ⟨records', doubt ++ (log.cut call.1).toList⟩
  | dropped {records : List CommitRecord} {doubt : List AppendRequest} :
      Survives log ⟨records, doubt⟩ none ⟨records, []⟩
  | recovered {records : List CommitRecord} {doubt : List AppendRequest}
      {request : AppendRequest} (hdoubt : request ∈ doubt) :
      Survives log ⟨records, doubt⟩ none ⟨records ++ [sequenced records request], []⟩

variable {log : Reference}

/-- The calls of a session, one after the other. -/
theorem survives_calls {records records' : List CommitRecord}
    {calls : List (ServerEvent × Handler)} (h : Chain (log.Serves True) records calls records')
    (doubt : List AppendRequest) :
    Chain log.Survives ⟨records, doubt⟩ (calls.map some)
      ⟨records', doubt ++ (calls.map Prod.fst).filterMap log.cut⟩ := by
  induction h generalizing doubt with
  | nil =>
      rw [List.map_nil, List.map_nil, List.filterMap_nil, List.append_nil]
      exact .nil _
  | @cons _ _ _ call rest hstep _ ih =>
      have hrest := ih (doubt ++ (log.cut call.1).toList)
      rw [List.append_assoc] at hrest
      have hcut : ((call :: rest).map Prod.fst).filterMap log.cut =
          (log.cut call.1).toList ++ (rest.map Prod.fst).filterMap log.cut := by
        cases h : log.cut call.1 <;> simp [h]
      rw [hcut]
      exact .cons (.call hstep) hrest

/-- A session ends, and what the file opens as is the log from there. -/
theorem exists_ended {records records' : List CommitRecord}
    {calls : List (ServerEvent × Handler)} (h : Chain (log.Serves True) records calls records')
    {file : JournalFile}
    (hopens : Opens file ⟨records', (calls.map Prod.fst).filterMap log.cut⟩) :
    ∃ after, Chain log.Survives ⟨records, []⟩ (calls.map some ++ [none]) ⟨after, []⟩ ∧
      Opens file ⟨after, []⟩ := by
  have hcalls := survives_calls h []
  by_cases hexists : ∃ entries, Recovers lineCodec inSequence (file.getD []) entries
  · obtain ⟨entries, hentries⟩ := hexists
    refine ⟨entries, ?_, fun other hother => .inl (hother.unique hentries)⟩
    rcases hopens entries hentries with rfl | ⟨request, hrequest, rfl⟩
    · exact hcalls.snoc .dropped
    · exact hcalls.snoc (.recovered hrequest)
  · exact ⟨records', hcalls.snoc .dropped, fun other hother => absurd ⟨other, hother⟩ hexists⟩

/-- What a commit leaves cut short. -/
theorem cut_of_commit {service : Service} (hlog : log.Describes service) {request : HttpRequest}
    {now : Timestamp} {outcome : WriteOutcome} {authorization : Option String} {body : String}
    (hrouted : router request now outcome = .ok (.commit authorization body now outcome))
    {append : AppendRequest}
    (happend : service.toAppState.commitRequest authorization body now = .ok append) :
    log.cut (.request request now outcome) =
      if outcome.cutShort = true then some append else none := by
  obtain ⟨hauthorized, hparse⟩ := exists_of_commitRequest hlog.appendToken happend
  simp only [cut, hrouted, hauthorized, and_true, hparse, Except.toOption]

end Reference

namespace System

variable [ExternalAnchoring] {s s' : System}

/-- A request leaves the store alone, or it is a commit and appends to it. -/
theorem store_of_request (haxum : Axum.Conforms) (hvalid : s.service.store.Valid)
    {request : HttpRequest} {now : Timestamp} {outcome : WriteOutcome}
    (hserve : s.serve (.request request now outcome) = some s') :
    s'.service.store = s.service.store ∨
      s.poisoned = false ∧ ∃ authorization body append result,
        router request now outcome = .ok (.commit authorization body now outcome) ∧
          s.service.toAppState.commitRequest authorization body now = .ok append ∧
            s.service.store.append append outcome = some (result, s'.service.store) := by
  have hrouted := routed_router haxum request now outcome
  rw [System.serve] at hserve
  generalize hrouter : router request now outcome = routed at hserve hrouted
  cases hrouted with
  | rejected hstatus =>
      obtain rfl := Option.some.inj hserve
      exact .inl rfl
  | treeHead =>
      cases steps_of_step hvalid hserve with
      | unread => exact .inl rfl
      | read hhead => exact .inl rfl
  | get read =>
      cases steps_of_step hvalid hserve with
      | served => exact .inl rfl
  | @commit body hmethod hpath hbody =>
      obtain rfl := Option.some.inj hserve
      rcases s.store_of_commit (authorizationOf request.headers) body now outcome with
        hsame | ⟨hpoisoned, append, result, hrequest, happend⟩
      · exact .inl hsame
      · exact .inr ⟨hpoisoned, _, body, append, result, rfl, hrequest, happend⟩

end System

namespace Reference

variable {log : Reference}

/-- A request whose write fails leaves the records of a journaled log alone. -/
theorem afterRequest_failed (haxum : Axum.Conforms) (hjournaled : log.journaled = true)
    (records : List CommitRecord) (request : HttpRequest) (now : Timestamp) (kept : ℕ)
    (reason : String) :
    log.afterRequest records request now (.failed kept reason) = records := by
  have hrouted := routed_router haxum request now (.failed kept reason)
  rw [afterRequest]
  generalize router request now (.failed kept reason) = routed at hrouted
  cases hrouted with
  | rejected hstatus => rfl
  | treeHead => rfl
  | get read => rfl
  | commit hmethod hpath hbody =>
      have hfailed : log.writeError (.failed kept reason) = some reason := by
        simp [writeError, hjournaled]
      simp only [after, commit, hfailed]
      split
      · split <;> rfl
      · rfl

end Reference

namespace Deployment

/-- Between two sessions: the calls of all sessions so far, each session's followed by its
end. -/
structure Down (log : Reference) (past : List (Option (ServerEvent × Handler)))
    (records : List CommitRecord) (d : Deployment) : Prop where
  running : d.running = none
  handlers : past.reduceOption.map Prod.snd = d.past
  chain : Chain log.Survives ⟨[], []⟩ past ⟨records, []⟩
  opens : Reference.Opens d.file ⟨records, []⟩

variable {log : Reference} {past : List (Option (ServerEvent × Handler))}
  {records initial : List CommitRecord} {requests : List ServerEvent} {s s' : System}
  {d : Deployment}

theorem down_init (log : Reference) : Deployment.init.Down log [] [] where
  running := rfl
  handlers := rfl
  chain := .nil _
  opens _ hentries := .inl (hentries.unique Journal.clean_nil.recovers)

variable [ExternalAnchoring]

/-- Within a session. -/
structure Up (log : Reference) (past : List (Option (ServerEvent × Handler)))
    (initial : List CommitRecord) (requests : List ServerEvent) (s : System) (d : Deployment) :
    Prop where
  running : d.running = some s
  handlers : past.reduceOption.map Prod.snd = d.past
  chain : Chain log.Survives ⟨[], []⟩ past ⟨initial, []⟩
  refines : s.Refines log initial requests
  serving : s.Serving s
  file : ∃ bytes, d.file = some bytes ∧ s.service.store.journal = some bytes
  opens : Reference.Opens d.file ⟨s.service.store.entries, requests.filterMap log.cut⟩

theorem Down.start (h : d.Down log past records) {config : Config} {service : Service}
    (hnew : Service.new config (some d.file) = some (.ok service))
    (hlog : log.Describes service) :
    Up log past records [] (.init service)
      { d with file := service.store.journal, running := some (.init service) } := by
  obtain ⟨-, hopen, -⟩ := Service.exists_of_new hnew
  obtain ⟨hrecovers, -, hjournal⟩ := LogStore.recovers_of_open hopen
  obtain hentries : service.store.entries = records := by
    simpa using h.opens _ hrecovers
  refine ⟨rfl, h.handlers, h.chain, ⟨hlog, [], rfl, rfl, ?_⟩,
    .refl (System.sound_init hnew) (System.agrees_init service), ⟨_, hjournal, hjournal⟩, ?_⟩
  · rw [← hentries]
    exact .nil _
  · intro entries hother
    have hsame := h.opens entries (by simpa [hjournal] using hother)
    rwa [← hentries] at hsame

/-- What a request leaves in the journal, if what it writes is written in step. -/
theorem Up.request (hforms : RecordTextForms) (hjson : SerdeJson.Conforms)
    (haxum : Axum.Conforms) (h : d.Up log past initial requests s) {request : HttpRequest}
    {now : Timestamp} {outcome : WriteOutcome} {occurrence : Occurrence}
    (hrequest : occurrence.request = some (.request request now outcome))
    (hinstep : d.InStep occurrence)
    (hserve : s.serve (.request request now outcome) = some s') :
    ∃ bytes, s'.service.store.journal = some bytes ∧ Reference.Opens (some bytes)
      ⟨s'.service.store.entries,
        (requests ++ [ServerEvent.request request now outcome]).filterMap log.cut⟩ := by
  obtain ⟨bytes, hfile, hjournal⟩ := h.file
  have hopens := h.opens
  rw [hfile] at hopens
  have hcuts : (requests ++ [ServerEvent.request request now outcome]).filterMap log.cut =
      requests.filterMap log.cut ++ (log.cut (.request request now outcome)).toList := by
    rw [List.filterMap_append]
    cases hcut : log.cut (.request request now outcome) <;> simp [hcut]
  rw [hcuts]
  rcases System.store_of_request haxum h.serving.sound.valid hserve with hsame |
    ⟨hpoisoned, authorization, body, append, result, hrouted, hallowed, happend⟩
  · rw [hsame]
    exact ⟨bytes, hjournal, hopens.mono _⟩
  · refine h.serving.sound.valid.opens_append hforms hjson hjournal happend (fun hreaches => ?_)
      (Reference.cut_of_commit h.refines.describes hrouted hallowed) hopens
    have hclean := hinstep s h.running request now outcome hrequest
      ⟨hpoisoned, hreaches, authorization, body, append, hrouted, hallowed⟩
    simpa [hfile] using hclean.1

theorem Up.serve (hforms : RecordTextForms) (hjson : SerdeJson.Conforms)
    (haxum : Axum.Conforms) (h : d.Up log past initial requests s) {event : ServerEvent}
    (hinstep : d.InStep (.serve event)) (hserve : s.serve event = some s') :
    Up log past initial (requests ++ (Occurrence.serve event).request.toList) s'
      { d with file := s'.service.store.journal, running := some s' } := by
  have hrefines := h.refines.serve hjson haxum h.serving.sound.valid hserve
  have hserving := h.serving.serve haxum hserve
  cases event with
  | proceed action =>
      obtain ⟨bytes, hfile, hjournal⟩ := h.file
      have hstore := System.store_of_proceed h.serving.sound.valid hserve
      rw [← hstore] at hjournal
      refine ⟨rfl, h.handlers, h.chain, hrefines, .refl hserving.sound hserving.agrees,
        ⟨bytes, hjournal, hjournal⟩, ?_⟩
      have hopens := h.opens
      rw [hfile, ← hjournal, ← hstore] at hopens
      simpa [Occurrence.request, ServerEvent.isRequest] using hopens
  | request request now outcome =>
      obtain ⟨bytes, hjournal, hopens⟩ := h.request hforms hjson haxum rfl hinstep hserve
      rw [← hjournal] at hopens
      exact ⟨rfl, h.handlers, h.chain, hrefines, .refl hserving.sound hserving.agrees,
        ⟨bytes, hjournal, hjournal⟩, hopens⟩

/-- A session ends with these calls. -/
theorem Up.exists_down (h : d.Up log past initial requests s)
    {calls : List (ServerEvent × Handler)}
    (hchain : Chain (log.Serves True) initial calls records) {file : JournalFile}
    (hopens : Reference.Opens file ⟨records, (calls.map Prod.fst).filterMap log.cut⟩) :
    ∃ past' records', Down log past' records'
        { file, running := none, past := d.past ++ calls.map Prod.snd } ∧
      past'.reduceOption.map Prod.fst = past.reduceOption.map Prod.fst ++ calls.map Prod.fst := by
  obtain ⟨after, hended, hopens'⟩ := Reference.exists_ended hchain hopens
  have hcalls : (past ++ (calls.map some ++ [none])).reduceOption =
      past.reduceOption ++ calls := by
    simp [List.reduceOption]
  refine ⟨_, after, ⟨rfl, ?_, h.chain.append hended, hopens'⟩, ?_⟩
  · rw [hcalls, List.map_append, h.handlers]
  · rw [hcalls, List.map_append]

theorem Up.stop (h : d.Up log past initial requests s) :
    ∃ past' records', Down log past' records'
        { d with running := none, past := d.past ++ s.handlers } ∧
      past'.reduceOption.map Prod.fst = past.reduceOption.map Prod.fst ++ requests := by
  obtain ⟨calls, rfl, hhandlers, hchain⟩ := h.refines.history
  rw [← hhandlers]
  exact h.exists_down (hchain.mono fun _ _ _ hcall => (hcall.mono fun _ => trivial).serves) h.opens

theorem Up.crash (hforms : RecordTextForms) (hjson : SerdeJson.Conforms)
    (haxum : Axum.Conforms) (h : d.Up log past initial requests s)
    (hjournaled : log.journaled = true) {request : HttpRequest} {now : Timestamp} {kept : ℕ}
    (hinstep : d.InStep (.crash request now kept)) {torn : System}
    (hserve : s.serve (.request request now (.failed kept "crash")) = some torn) :
    ∃ past' records', Down log past' records'
        { file := torn.service.store.journal, running := none,
          past := d.past ++ s.handlers ++ [.ended none] } ∧
      past'.reduceOption.map Prod.fst = past.reduceOption.map Prod.fst ++
        (requests ++ [.request request now (.failed kept "crash")]) := by
  obtain ⟨calls, rfl, hhandlers, hchain⟩ := h.refines.history
  obtain ⟨bytes, hjournal, hopens⟩ := h.request hforms hjson haxum rfl hinstep hserve
  have hentries : torn.service.store.entries = s.service.store.entries := by
    rcases System.store_of_request haxum h.serving.sound.valid hserve with hsame |
      ⟨-, -, -, append, result, -, -, happend⟩
    · rw [hsame]
    · obtain ⟨-, ⟨-, hwritten, -⟩ | ⟨-, -, -, hentries⟩⟩ := Reference.writeError_eq hjson
        h.serving.sound.valid h.refines.describes.journaled happend
      · simp [Reference.writeError, hjournaled] at hwritten
      · exact hentries
  have hserves : log.Serves True s.service.store.entries
      (.request request now (.failed kept "crash"), .ended none) s.service.store.entries := by
    have heffective : log.Serves True s.service.store.entries
        (.request request now (.failed kept "crash"), .ended none)
        (log.afterRequest s.service.store.entries request now (.failed kept "crash")) :=
      .effective (by simp [Handler.answer])
    rwa [Reference.afterRequest_failed haxum hjournaled] at heffective
  have hcalls := (hchain.mono fun _ _ _ hcall => (hcall.mono fun _ => trivial).serves).snoc hserves
  rw [hentries] at hopens
  rw [hjournal, ← hhandlers, List.append_assoc]
  have hdown := h.exists_down hcalls (show Reference.Opens (some bytes) ⟨_, _⟩ by
    simpa using hopens)
  simpa using hdown

/-! ## Runs -/

/-- The log has served these requests, in the sessions of the deployment. -/
def Logged (log : Reference) (requests : List ServerEvent) (d : Deployment) : Prop :=
  (∃ past records, d.Down log past records ∧ past.reduceOption.map Prod.fst = requests) ∨
    ∃ past initial current s, d.Up log past initial current s ∧
      past.reduceOption.map Prod.fst ++ current = requests

variable {config : Config} {operator : Operator} {d' : Deployment}

theorem Logged.step (hforms : RecordTextForms) (hjson : SerdeJson.Conforms)
    (haxum : Axum.Conforms) (hoperator : Operator.fromConfig config.operator = .ok operator)
    (h : d.Logged (.ofConfig config operator) requests) {occurrence : Occurrence}
    (hinstep : d.InStep occurrence) (hstep : d.step config occurrence = some d') :
    d'.Logged (.ofConfig config operator) (requests ++ occurrence.request.toList) := by
  cases occurrence with
  | start =>
      simp only [Deployment.step] at hstep
      split at hstep
      · simp at hstep
      next hdown =>
      obtain ⟨result, hnew, hstep⟩ := Option.bind_eq_some_iff.mp hstep
      cases result with
      | error e => simp at hstep
      | ok service =>
          obtain rfl := Option.some.inj hstep
          rcases h with ⟨past, records, hdown', rfl⟩ | ⟨past, initial, current, s, hup, -⟩
          · exact .inr ⟨past, records, [], _,
              hdown'.start hnew (Reference.describes_ofConfig hoperator hnew), by
                simp [Occurrence.request]⟩
          · simp [hup.running] at hdown
  | serve event =>
      obtain ⟨s, hrunning, hstep⟩ := Option.bind_eq_some_iff.mp hstep
      obtain ⟨s', hserve, hstep⟩ := Option.bind_eq_some_iff.mp hstep
      obtain rfl := Option.some.inj hstep
      rcases h with ⟨past, records, hdown, -⟩ | ⟨past, initial, current, t, hup, rfl⟩
      · simp [hdown.running] at hrunning
      · obtain rfl := Option.some.inj (hup.running.symm.trans hrunning)
        refine .inr ⟨past, initial, _, s', hup.serve hforms hjson haxum hinstep hserve, ?_⟩
        rw [List.append_assoc]
  | stop =>
      obtain ⟨s, hrunning, hstep⟩ := Option.bind_eq_some_iff.mp hstep
      obtain rfl := Option.some.inj hstep
      rcases h with ⟨past, records, hdown, -⟩ | ⟨past, initial, current, t, hup, rfl⟩
      · simp [hdown.running] at hrunning
      · obtain rfl := Option.some.inj (hup.running.symm.trans hrunning)
        obtain ⟨past', records', hdown, hrequests⟩ := hup.stop
        exact .inl ⟨past', records', hdown, by simpa [Occurrence.request] using hrequests⟩
  | crash request now kept =>
      obtain ⟨s, hrunning, hstep⟩ := Option.bind_eq_some_iff.mp hstep
      obtain ⟨torn, hserve, hstep⟩ := Option.bind_eq_some_iff.mp hstep
      obtain rfl := Option.some.inj hstep
      rcases h with ⟨past, records, hdown, -⟩ | ⟨past, initial, current, t, hup, rfl⟩
      · simp [hdown.running] at hrunning
      · obtain rfl := Option.some.inj (hup.running.symm.trans hrunning)
        obtain ⟨past', records', hdown, hrequests⟩ :=
          hup.crash hforms hjson haxum rfl hinstep hserve
        exact .inl ⟨past', records', hdown, by simpa [Occurrence.request] using hrequests⟩

theorem Logged.run (hforms : RecordTextForms) (hjson : SerdeJson.Conforms)
    (haxum : Axum.Conforms) (hoperator : Operator.fromConfig config.operator = .ok operator)
    (h : d.Logged (.ofConfig config operator) requests) {occurrences : List Occurrence}
    (halong : Transition.Along (Deployment.step config) InStep d occurrences)
    (hrun : d.run config occurrences = some d') :
    d'.Logged (.ofConfig config operator)
      (requests ++ occurrences.filterMap Occurrence.request) := by
  induction occurrences generalizing d requests with
  | nil =>
      obtain rfl := Option.some.inj hrun
      simpa using h
  | cons occurrence rest ih =>
      rw [Deployment.run, Transition.run_cons] at hrun
      obtain ⟨next, hnext, hrest⟩ := Option.bind_eq_some_iff.mp hrun
      have hlater := ih (h.step hforms hjson haxum hoperator halong.1 hnext)
        (halong.2 next hnext) hrest
      cases hrequest : occurrence.request <;> simpa [hrequest] using hlater

/-- What the log has served is one chain, over all sessions. -/
theorem Logged.exists_history (h : d.Logged log requests) :
    ∃ (history : List (Option (ServerEvent × Handler))) (ledger : Ledger),
      history.reduceOption.map Prod.fst = requests ∧
      history.reduceOption.map Prod.snd = d.handlers ∧
      Chain log.Survives ⟨[], []⟩ history ledger ∧ Reference.Opens d.file ledger ∧
      ∀ s, d.running = some s →
        s.service.store.Valid ∧ log.Describes s.service ∧
          s.service.store.entries = ledger.records := by
  rcases h with ⟨past, records, hdown, hrequests⟩ | ⟨past, initial, current, s, hup, hrequests⟩
  · refine ⟨past, _, hrequests, ?_, hdown.chain, hdown.opens, by simp [hdown.running]⟩
    rw [hdown.handlers, handlers, hdown.running]
    simp
  · obtain ⟨calls, rfl, hhandlers, hchain⟩ := hup.refines.history
    have hserves := Reference.survives_calls
      (hchain.mono fun _ _ _ hcall => (hcall.mono fun _ => trivial).serves) []
    have hcalls : (past ++ calls.map some).reduceOption = past.reduceOption ++ calls := by
      simp [List.reduceOption]
    refine ⟨_, _, ?_, ?_, hup.chain.append hserves, hup.opens, fun t ht => ?_⟩
    · rw [hcalls, List.map_append, hrequests]
    · rw [hcalls, List.map_append, hup.handlers, hhandlers, handlers, hup.running]
      rfl
    · obtain rfl := Option.some.inj (hup.running.symm.trans ht)
      exact ⟨hup.serving.sound.valid, hup.refines.describes, rfl⟩

end Deployment

end

end UnidppLog
