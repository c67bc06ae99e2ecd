/-
# Two sample sessions

A commit is acknowledged and a head shown; the service is killed one byte into the next
commit; it comes up again and shows the head.
-/

import UnidppLog.Sessions

namespace UnidppLog.Sample

open Journal (Clean)
open Text (encode)

def getHead : HttpRequest where
  method := .get
  path := "/tree/head"
  query := none
  headers := []
  body := []

theorem router_getHead (now : Fin 60) (outcome : WriteOutcome) :
    router getHead now outcome = .ok .treeHead := by
  have hroute : route getHead.path = some .treeHead := by decide
  rw [router, hroute]
  rfl

/-- What happens in the two sessions. -/
def sessions (now : Fin 60) : List Occurrence :=
  [.start, .serve (.request (posted "Bearer secret") now .written),
    .serve (.request getHead now .written), .serve (.proceed (.view 1)),
    .crash (posted "Bearer secret") now 1, .start, .serve (.request getHead now .written),
    .serve (.proceed (.view 0))]

variable {d : Deployment} {s : System} {occurrences : List Occurrence}

/-- A run so far, and the running system. -/
structure Ran (occurrences : List Occurrence) (d : Deployment) (s : System) : Prop where
  run : Deployment.init.run guardedConfig occurrences = some d
  along : Transition.Along (Deployment.step guardedConfig) Deployment.InStep .init occurrences
  running : d.running = some s

/-- The run goes on with an event that writes nothing, or in step. -/
theorem Ran.serve (h : Ran occurrences d s) {event : ServerEvent} {s' : System}
    (hinstep : d.InStep (.serve event)) (hserve : s.serve event = some s') :
    Ran (occurrences ++ [.serve event])
      { d with file := s'.service.store.journal, running := some s' } s' := by
  have hstep : d.step guardedConfig (.serve event) =
      some { d with file := s'.service.store.journal, running := some s' } := by
    simp [Deployment.step, h.running, hserve]
  exact ⟨Transition.run_snoc h.run hstep, Transition.along_snoc h.along h.run hinstep, rfl⟩

theorem inStep_getHead (d : Deployment) (now : Fin 60) (outcome : WriteOutcome) :
    d.InStep (.serve (.request getHead now outcome)) := by
  intro s _ request now' outcome' hrequest hwrites
  obtain ⟨rfl, rfl, rfl⟩ : getHead = request ∧ now = now' ∧ outcome = outcome' := by
    simpa [Occurrence.request, ServerEvent.isRequest] using hrequest
  obtain ⟨-, -, authorization, body, append, hrouted, -⟩ := hwrites
  simp [router_getHead] at hrouted

theorem inStep_view (d : Deployment) (i : ℕ) : d.InStep (.serve (.proceed (.view i))) := by
  intro s _ request now outcome hrequest
  simp [Occurrence.request, ServerEvent.isRequest] at hrequest

/-- A head is read and shown. -/
theorem Ran.getHead (h : Ran occurrences d s) (hrunning : s.Running)
    (hpos : 0 < s.service.store.entries.length) (now : Fin 60) :
    ∃ (d' : Deployment) (s' : System) (head : SignedTreeHead) (shown : Response),
      Ran (occurrences ++ [.serve (.request Sample.getHead now .written),
        .serve (.proceed (.view s.handlers.length))]) d' s' ∧
      s'.service = s.service ∧ s'.poisoned = s.poisoned ∧ d'.past = d.past ∧
      d'.file = s.service.store.journal ∧
      s'.handlers = s.handlers ++ [.viewed (some head) (some shown)] := by
  obtain ⟨head, -, -, hread⟩ := hrunning.treeHead hpos
  have hserve : s.serve (.request Sample.getHead now .written) =
      some (s.push (.viewing (some head))) := by
    rw [System.serve, router_getHead, ← hread]
    rfl
  obtain ⟨shown, hshown⟩ := exists_jsonResponse serdeJson_conforms 200
    (plain_treeHeadJson s.service.operator (some head) s.service.tsa).1
  have hview : (s.push (.viewing (some head))).serve (.proceed (.view s.handlers.length)) =
      some ((s.push (.viewing (some head))).set s.handlers.length
        (.viewed (some head) (some shown))) := by
    have hviewing : (s.push (.viewing (some head))).handlers[s.handlers.length]? =
        some (.viewing (some head)) := List.getElem?_concat_length
    simp only [System.serve, Action.arrives, System.step, hviewing]
    rw [show (s.push (.viewing (some head))).service = s.service from rfl, treeHeadResponse, hshown]
    rfl
  have hran := (h.serve (inStep_getHead d now .written) hserve).serve (inStep_view _ _) hview
  rw [List.append_assoc] at hran
  refine ⟨_, _, head, shown, hran, rfl, rfl, rfl, rfl, ?_⟩
  simp [System.set, System.push]

theorem new_guarded {file : JournalFile} {store : LogStore}
    (hopen : LogStore.open (some file) = some (.ok store)) :
    Service.new guardedConfig (some file) = some (.ok { guardedService with store }) := by
  have hoperator : Operator.fromConfig guardedConfig.operator = .ok guardedService.operator := rfl
  simp only [Service.new, hoperator, hopen, Option.bind_eq_bind, Option.bind_some]
  rfl

theorem allowed_posted (now : Fin 60) (store : LogStore) :
    ({ guardedService with store } : Service).toAppState.commitRequest
      (headerToStr (encode "Bearer secret".toList)) (body "dpp:1" (digest [1])) now =
        .ok { request now "dpp:1" with commitment := digest [1] } := by
  have hallows : guardedService.allowsAppend
      (headerToStr (encode "Bearer secret".toList)) = true := by decide
  have hallows' : ({ guardedService with store } : Service).toAppState.allowsAppend
      (headerToStr (encode "Bearer secret".toList)) = true := hallows
  rw [AppState.commitRequest, if_neg (by rw [hallows']; decide),
    parseCommit_body (show Text.trim "dpp:1".toList = "dpp:1".toList by decide) (by decide)
      (by decide) (digest [1]) now]

/-- The running system is the sample service over a log of one record, with nothing else in
the journal. -/
structure One (d : Deployment) (s : System) : Prop where
  running : s.Running
  service : ∃ store, s.service = { guardedService with store }
  length : s.service.store.entries.length = 1
  journal : ∃ bytes, d.file = some bytes ∧ s.service.store.journal = some bytes ∧
    Clean lineCodec inSequence bytes s.service.store.entries

/-- A start, and a commit that is acknowledged. -/
theorem exists_one (now : Fin 60) :
    ∃ (d : Deployment) (s : System) (created : Response),
      Ran [.start, .serve (.request (posted "Bearer secret") now .written)] d s ∧ One d s ∧
      d.past = [] ∧ created.status = 201 ∧
      s.handlers.map Handler.answer = [some created] := by
  have hstep : Deployment.init.step guardedConfig .start =
      some ⟨some [], some (.init guardedService), []⟩ := by
    simp only [Deployment.step, Deployment.init, new_guardedService, Option.bind_eq_bind,
      Option.bind_some]
    rfl
  have hstart : Ran [.start] ⟨some [], some (.init guardedService), []⟩ (.init guardedService) :=
    ⟨Transition.run_one hstep,
      ⟨fun s hs => by simp [Deployment.init] at hs, fun _ _ => trivial⟩, rfl⟩
  have hrunning : (System.init guardedService).Running := ⟨valid_empty, rfl, signs⟩
  obtain ⟨receipt, store, hvalid, hentries, hjournal, hcommit⟩ :=
    hrunning.commit serdeJson_conforms (allowed_posted now empty) (by decide)
  obtain ⟨created, hcreated⟩ := exists_jsonResponse serdeJson_conforms 201
    (guardedService.operator.plain_receipt receipt).1
  have hserve := serve_posted (System.init guardedService) "Bearer secret" now .written
  rw [hcommit] at hserve
  have hinstep : Deployment.InStep ⟨some [], some (.init guardedService), []⟩
      (.serve (.request (posted "Bearer secret") now .written)) := by
    rintro _ ⟨⟩ _ _ _ - -
    exact ⟨Journal.clean_nil, by decide⟩
  have hclean := Journal.clean_nil.append (lineCodec_lawful recordTextForms serdeJson_conforms)
    (LogStore.inSequence_nextRecord empty { request now "dpp:1" with commitment := digest [1] })
  refine ⟨_, _, created, hstart.serve hinstep hserve,
    ⟨⟨hvalid, rfl, signs⟩, ⟨store, rfl⟩, ?_, ?_⟩, rfl, status_of_jsonResponse hcreated, ?_⟩
  · exact (congrArg List.length hentries).trans rfl
  · have hstore : store.entries = [] ++
        [empty.nextRecord { request now "dpp:1" with commitment := digest [1] }] := hentries
    rw [← hstore] at hclean
    exact ⟨_, hjournal, hjournal, hclean⟩
  · rw [Service.afterAppend_of_none rfl]
    simpa [System.push, System.withStore, System.init, Handler.answer, respond] using hcreated

/-- The service is killed one byte into the next commit, and comes up with the record. -/
theorem Ran.crash (h : Ran occurrences d s) (hone : One d s) (now : Fin 60) :
    ∃ (d' : Deployment) (s' : System),
      Ran (occurrences ++ [.crash (posted "Bearer secret") now 1, .start]) d' s' ∧ s'.Running ∧
      s'.service.store.entries.length = 1 ∧ s'.handlers = [] ∧
      d'.past = d.past ++ s.handlers ++ [.ended none] := by
  obtain ⟨store, hservice⟩ := hone.service
  obtain ⟨bytes, hfile, hjournal, hclean⟩ := hone.journal
  have hallowed := allowed_posted now store
  rw [← hservice] at hallowed
  have hfailed := LogStore.append_failed serdeJson_conforms hjournal
    { request now "dpp:1" with commitment := digest [1] } 1 "crash"
  rw [take_one_line] at hfailed
  have hserve := serve_posted s "Bearer secret" now (.failed 1 "crash")
  rw [System.commit, hallowed] at hserve
  simp only [hone.running.unpoisoned, hfailed] at hserve
  have hcrash : d.step guardedConfig (.crash (posted "Bearer secret") now 1) =
      some ⟨some (bytes ++ encode ['{']), none, d.past ++ s.handlers ++ [.ended none]⟩ := by
    simp only [Deployment.step, h.running, Option.bind_eq_bind, Option.bind_some, hserve]
    rfl
  have hinstep : d.InStep (.crash (posted "Bearer secret") now 1) := by
    rintro t ht _ _ _ - -
    obtain rfl := Option.some.inj (h.running.symm.trans ht)
    rw [hfile, hone.length]
    exact ⟨hclean, by decide⟩
  let torn : LogStore := { s.service.store with journal := some (bytes ++ encode ['{']) }
  have hvalid : torn.Valid := hone.running.valid.withJournal _
  have hopen : LogStore.open (some (some (bytes ++ encode ['{']))) = some (.ok torn) :=
    LogStore.open_eq_ok_iff.mpr ⟨recovers_brace recordTextForms serdeJson_conforms hclean
      (LogStore.inSequence_nextRecord s.service.store (request now "dpp:1")), hvalid, rfl⟩
  have hstart : Deployment.step guardedConfig
      ⟨some (bytes ++ encode ['{']), none, d.past ++ s.handlers ++ [.ended none]⟩ .start =
        some ⟨some (bytes ++ encode ['{']), some (.init { guardedService with store := torn }),
          d.past ++ s.handlers ++ [.ended none]⟩ := by
    simp only [Deployment.step, new_guarded hopen, Option.bind_eq_bind, Option.bind_some]
    rfl
  have hrun := Transition.run_snoc h.run hcrash
  have hidle : Deployment.InStep
      ⟨some (bytes ++ encode ['{']), none, d.past ++ s.handlers ++ [.ended none]⟩ .start :=
    fun t ht => by simp at ht
  have halong := Transition.along_snoc (Transition.along_snoc h.along h.run hinstep) hrun hidle
  rw [List.append_assoc] at halong
  have hrun' := Transition.run_snoc hrun hstart
  rw [List.append_assoc] at hrun'
  exact ⟨_, _, ⟨hrun', halong, rfl⟩, ⟨hvalid, rfl, signs⟩, hone.length, rfl, rfl⟩

/-- The two sessions, with what was answered in them. -/
theorem exists_sessions (now : Fin 60) :
    ∃ (d : Deployment) (s : System) (created shown shown' : Response),
      Ran (sessions now) d s ∧
      d.past.map Handler.answer = [some created, some shown, none] ∧
      d.handlers.map Handler.answer = [some created, some shown, none, some shown'] ∧
      created.status = 201 ∧ s.service.store.entries.length = 1 := by
  obtain ⟨one, s, created, hone, hs, hpast, hstatus, hhandlers⟩ := exists_one now
  have hlen : s.handlers.length = 1 := by simpa using congrArg List.length hhandlers
  obtain ⟨seen, t, head, shown, hseen, hservice, hpoisoned, hseenPast, hfile, ht⟩ :=
    hone.getHead hs.running (by rw [hs.length]; decide) now
  have hs' : One seen t := by
    obtain ⟨bytes, -, hjournal, hclean⟩ := hs.journal
    refine ⟨⟨?_, ?_, ?_⟩, ?_, ?_, bytes, by rw [hfile, hjournal], ?_⟩
    · rw [hservice]; exact hs.running.valid
    · rw [hpoisoned]; exact hs.running.unpoisoned
    · rw [hservice]; exact hs.running.signs
    · rw [hservice]; exact hs.service
    · rw [hservice]; exact hs.length
    · rw [hservice]; exact ⟨hjournal, hclean⟩
  obtain ⟨up, u, hup, hrunning, hlength, hnone, hupPast⟩ := hseen.crash hs' now
  obtain ⟨last, v, head', shown', hlast, hservice', -, hlastPast, -, hv⟩ :=
    hup.getHead hrunning (by rw [hlength]; decide) now
  have hpast' : last.past.map Handler.answer = [some created, some shown, none] := by
    rw [hlastPast, hupPast, hseenPast, hpast, ht]
    simp [hhandlers, Handler.answer]
  refine ⟨last, v, created, shown, shown', ?_, hpast', ?_, hstatus, by rw [hservice', hlength]⟩
  · rw [hlen, hnone] at hlast
    simpa [sessions] using hlast
  · rw [Deployment.handlers, hlast.running, List.map_append, hpast']
    simp [hv, hnone, Handler.answer]

end UnidppLog.Sample
