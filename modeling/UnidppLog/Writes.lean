/-
# Writes are all or nothing

What a request does to the entries and the tree, and what it is answered with. Only a
commit that is answered with 201 has changed them, and it has added the one record that its
body asked for. A commit may have a token to present; the other routes never write.
-/

import UnidppLog.Router
import UnidppLog.Verification

namespace UnidppLog

open Json (Value)
open Unidpp
open Text (trim encode)

section

theorem exists_of_reqStr {v : Value} {key s : String} (h : reqStr v key = .ok s) :
    ∃ raw, v.get key = some (.string raw) ∧ s = String.ofList (trim raw.toList) ∧ s ≠ "" := by
  rw [reqStr, okOr_eq_ok_iff, Option.map_eq_some_iff] at h
  obtain ⟨trimmed, hfilter, rfl⟩ := h
  obtain ⟨htrim, hne⟩ := Option.filter_eq_some_iff.mp hfilter
  obtain ⟨raw, hraw, rfl⟩ := Option.map_eq_some_iff.mp htrim
  obtain ⟨value, hvalue, hstr⟩ := Option.bind_eq_some_iff.mp hraw
  refine ⟨raw, ?_, rfl, fun hempty => ?_⟩
  · cases value <;> simp_all [Value.asStr]
  · have hnil := congrArg String.toList hempty
    rw [String.toList_ofList] at hnil
    simp [hnil] at hne

theorem of_optU64 {v : Value} {key : String} {value : Option UInt64}
    (h : optU64 v key = .ok value) :
    (v.get key = none ∨ v.get key = some .null) ∧ value = none ∨
      ∃ n k, v.get key = some (.number n) ∧ n.asU64 = some k ∧ value = some k := by
  rw [optU64] at h
  split at h
  · next hnone => exact .inl ⟨.inl hnone, (Except.ok.inj h).symm⟩
  · next hnull => exact .inl ⟨.inr hnull, (Except.ok.inj h).symm⟩
  · next n hnumber =>
    cases hu64 : n.asU64 with
    | none => simp [hu64, Except.map] at h
    | some k =>
        rw [hu64, okOr_some] at h
        exact .inr ⟨n, k, hnumber, hu64, (Except.ok.inj h).symm⟩
  · simp at h

variable [Unidpp]

theorem LogStore.Valid.tree_append {store store' : LogStore} (hvalid : store.Valid)
    (hvalid' : store'.Valid) {record : CommitRecord}
    (hentries : store'.entries = store.entries ++ [record]) :
    store.tree.append record.commitment = some store'.tree := by
  have hrun := hvalid'.tree_eq
  rw [LogStore.commitments, hentries, List.map_append, MerkleTree.appendAll, List.foldlM_append,
    ← LogStore.commitments, ← MerkleTree.appendAll, hvalid.tree_eq] at hrun
  simpa using hrun

/-- A commit that may append presents the token, if there is one. -/
theorem AppState.authorization_of_allowsAppend {app : AppState} {authorization : Option String}
    (h : app.allowsAppend authorization = true) {token : String}
    (htoken : app.appendToken = some token) :
    ∃ text, authorization = some text ∧ text.toList = ("Bearer " ++ token).toList := by
  rw [AppState.allowsAppend, htoken] at h
  obtain ⟨text, rfl, hstrip⟩ := Option.bind_eq_some_iff.mp (of_decide_eq_true h)
  exact ⟨text, rfl, by rw [eq_append_of_stripPrefix hstrip, String.toList_append]⟩

variable [SerdeJson]

/-- A body's JSON asks for this record: for its subject and its commitment without the
blanks around their texts, and for its salt reference. -/
structure Asks (v : Value) (record : CommitRecord) : Prop where
  subject : ∃ s, v.get "subject" = some (.string s) ∧
    record.subject = String.ofList (trim s.toList) ∧ record.subject ≠ ""
  length : (encode record.subject.toList).length ≤ 512
  commitment : ∃ s, v.get "commitment" = some (.string s) ∧
    fromHex (String.ofList (trim s.toList)) = some record.commitment
  saltRef :
    (v.get "salt_ref" = none ∨ v.get "salt_ref" = some .null) ∧ record.saltRef = none ∨
      ∃ n k, v.get "salt_ref" = some (.number n) ∧ n.asU64 = some k ∧ record.saltRef = some k

/-- What a body is parsed to is what its JSON asks for. -/
theorem asks_of_parseCommit {body : String} {now : Timestamp} {request : AppendRequest}
    (h : parseCommit body now = .ok request) (store : LogStore) :
    ∃ v, SerdeJson.fromStr body = .ok v ∧ Asks v (store.nextRecord request) ∧
      request.loggedAt = now := by
  rw [parseCommit, bind_eq_ok_iff] at h
  obtain ⟨v, hv, h⟩ := h
  have hread : SerdeJson.fromStr body = .ok v := by
    rw [parseBody] at hv
    split at hv
    · next hread => rw [hread, Except.ok.inj hv]
    · simp at hv
  obtain ⟨subject, hsubject, h⟩ := bind_eq_ok_iff.mp h
  split at h
  · simp at h
  · next hlength =>
    dsimp only at h
    obtain ⟨commitment, hcommitment, h⟩ := bind_eq_ok_iff.mp h
    obtain ⟨saltRef, hsalt, h⟩ := bind_eq_ok_iff.mp h
    obtain rfl := Except.ok.inj h
    rw [reqCommitment, bind_eq_ok_iff] at hcommitment
    obtain ⟨text, htext, hhex⟩ := hcommitment
    obtain ⟨raw, hraw, rfl, -⟩ := exists_of_reqStr htext
    exact ⟨v, hread, ⟨exists_of_reqStr hsubject, Nat.not_lt.mp hlength,
      ⟨raw, hraw, okOr_eq_ok_iff.mp hhex⟩, of_optU64 hsalt⟩, rfl⟩

/-- The record that a request has sequenced, and its receipt: the record carries the number
behind the last entry, the time, and what the body asked for; entries and tree have grown by
it and nothing else; and if there is a token, the request presented it. -/
structure Sequences (app app' : AppState) (request : HttpRequest) (now : Timestamp)
    (record : CommitRecord) (receipt : Receipt) : Prop where
  method : request.method = .post
  path : request.path = "/commitments"
  body : ∃ text v, encode text.toList = request.body ∧ SerdeJson.fromStr text = .ok v ∧
    Asks v record
  token : ∀ token, app.appendToken = some token →
    headerGet request.headers "authorization" = some (encode ("Bearer " ++ token).toList)
  seq : record.seq.toNat = app.store.entries.length
  loggedAt : record.loggedAt = now
  entries : app'.store.entries = app.store.entries ++ [record]
  tree : app.store.tree.append record.commitment = some app'.store.tree
  receipted : Receipt.of app'.store record.seq app.operator.logId app.operator.key =
    some (some receipt)
  of_record : receipt.record = record

/-- What the handler that a request brings has found, and has done to the log: it panicked,
left the entries and the tree alone, failed to write, or sequenced a record. -/
inductive Arrives (app app' : AppState) (request : HttpRequest) (now : Timestamp) :
    Handler → Prop
  | panicked : Arrives app app' request now (.ended none)
  | unchanged {handler : Handler} (houtcome : handler.outcome = none)
      (hentries : app'.store.entries = app.store.entries)
      (htree : app'.store.tree = app.store.tree) : Arrives app app' request now handler
  | failed {handler : Handler} {e : StoreError} (houtcome : handler.outcome = some (.error e))
      (hentries : app'.store.entries = app.store.entries)
      (htree : app'.store.tree = app.store.tree) : Arrives app app' request now handler
  | sequenced {handler : Handler} {record : CommitRecord} {receipt : Receipt}
      (houtcome : handler.outcome = some (.ok (receipt.toJson app.operator.info)))
      (hsequences : Sequences app app' request now record receipt) :
      Arrives app app' request now handler

/-- A failed append leaves the entries and the tree alone. -/
theorem LogStore.Valid.of_append_error (hjson : SerdeJson.Conforms) {store store' : LogStore}
    (hvalid : store.Valid) {request : AppendRequest} {outcome : WriteOutcome} {e : StoreError}
    (hrun : store.append request outcome = some (.error e, store')) :
    store'.entries = store.entries ∧ store'.tree = store.tree := by
  rcases hvalid.append_cases hjson hrun with ⟨hresult, -⟩ | ⟨_, _, _, -, -, -, rfl⟩
  · simp at hresult
  · exact ⟨rfl, rfl⟩

namespace System

variable {s s' t : System}

/-- What a commit does, by what its body and its header ask for. -/
theorem arrives_commit (hjson : SerdeJson.Conforms) (hvalid : s.service.store.Valid)
    {request : HttpRequest} (hmethod : request.method = .post)
    (hpath : request.path = "/commitments") {body : String}
    (hbody : encode body.toList = request.body) (now : Timestamp) (outcome : WriteOutcome) :
    ∃ handler,
      (s.commit (authorizationOf request.headers) body now outcome).handlers =
        s.handlers ++ [handler] ∧
      Arrives s.service.toAppState
        (s.commit (authorizationOf request.headers) body now outcome).service.toAppState
        request now handler := by
  rw [commit]
  split
  · next response _ => exact ⟨_, rfl, .unchanged rfl rfl rfl⟩
  · next append hrequest =>
    rw [AppState.commitRequest] at hrequest
    split at hrequest
    · simp at hrequest
    next hallows =>
    split at hrequest
    · simp at hrequest
    next _ hparse =>
    obtain rfl := Except.ok.inj hrequest
    split
    · exact ⟨_, rfl, .panicked⟩
    · split
      · exact ⟨_, rfl, .panicked⟩
      · next e store happend =>
        obtain ⟨hentries, htree⟩ := hvalid.of_append_error hjson happend
        exact ⟨_, rfl, .failed (Service.outcome_afterAppend _ _) hentries htree⟩
      · next record store happend =>
        obtain ⟨rfl, hvalid', hentries, -⟩ := hvalid.append hjson happend
        obtain ⟨hseq, hrecord⟩ := hvalid.getElem?_of_append hjson happend
        dsimp only
        split
        · next receipt hreceipt =>
          obtain ⟨v, hread, hasks, hnow⟩ := asks_of_parseCommit hparse s.service.store
          refine ⟨_, rfl, .sequenced (Service.outcome_afterAppend _ _)
            ⟨hmethod, hpath, ⟨body, v, hbody, hread, hasks⟩, fun token htoken => ?_, hseq, hnow,
              hentries, hvalid.tree_append hvalid' hentries, hreceipt, ?_⟩⟩
          · obtain ⟨text, htext, hchars⟩ :=
              AppState.authorization_of_allowsAppend (by simpa using hallows) htoken
            obtain ⟨value, hvalue, hstr⟩ := Option.bind_eq_some_iff.mp htext
            rw [hvalue, ← encode_of_headerToStr hstr, hchars]
          · obtain ⟨found, slot, hfound, -, hfields⟩ := hvalid'.exists_of_receipt hreceipt
            rw [hfields]
            exact Option.some.inj (hfound.symm.trans hrecord)
        · exact ⟨_, rfl, .panicked⟩

variable [Axum] [ExternalAnchoring]

/-- What a request does. -/
theorem arrives_request (hjson : SerdeJson.Conforms) (haxum : Axum.Conforms)
    (hvalid : s.service.store.Valid) {request : HttpRequest} {now : Timestamp}
    {outcome : WriteOutcome} (hserve : s.serve (.request request now outcome) = some s') :
    ∃ handler, s'.handlers = s.handlers ++ [handler] ∧
      Arrives s.service.toAppState s'.service.toAppState request now handler := by
  have hrouted := routed_router haxum request now outcome
  rw [serve] at hserve
  generalize router request now outcome = routed at hserve hrouted
  cases hrouted with
  | rejected hstatus =>
      obtain rfl := Option.some.inj hserve
      exact ⟨_, rfl, .unchanged rfl rfl rfl⟩
  | treeHead =>
      cases steps_of_step hvalid hserve with
      | unread => exact ⟨_, rfl, .panicked⟩
      | read hhead => exact ⟨_, rfl, .unchanged rfl rfl rfl⟩
  | get read =>
      cases steps_of_step hvalid hserve with
      | served => exact ⟨_, rfl, .unchanged rfl rfl rfl⟩
  | commit hmethod hpath hbody =>
      obtain rfl := Option.some.inj hserve
      exact arrives_commit hjson hvalid hmethod hpath hbody now outcome

/-- However requests and handlers interleave, a request that is answered with anything but
201 has left the entries and the tree as they were, and one that is answered with 201 has
added the one record that it asked for, with the token if there is one, and is answered with
the record's receipt. Until another request comes, the store stays so. -/
theorem writes_all_or_nothing (hjson : SerdeJson.Conforms) (haxum : Axum.Conforms)
    {config : Config} {journal : Option JournalFile} {service : Service}
    (hnew : Service.new config journal = some (.ok service)) {events more : List ServerEvent}
    (hreach : (init service).serves events = some s) {request : HttpRequest} {now : Timestamp}
    {outcome : WriteOutcome} (hserve : s.serve (.request request now outcome) = some s')
    (hmore : s'.serves more = some t) {response : Response}
    (hanswer : t.answerOf s.handlers.length = some response) :
    (response.status ≠ 201 → s'.service.store.entries = s.service.store.entries ∧
      s'.service.store.tree = s.service.store.tree) ∧
    (response.status = 201 → ∃ record receipt,
      Sequences s.service.toAppState s'.service.toAppState request now record receipt ∧
        jsonResponse 201 (receipt.toJson s.service.operator.info) = some response ∧
          SerdeJson.fromStr response.body = .ok (receipt.toJson s.service.operator.info)) ∧
    ((∀ event ∈ more, event.isRequest = false) → t.service.store = s'.service.store) := by
  have hserving : Serving (init service) s :=
    (Serving.refl (sound_init hnew) (agrees_init service)).serves haxum hreach
  have hserving' := hserving.serve haxum hserve
  have hlater : Serving s' t :=
    (Serving.refl hserving'.sound hserving'.agrees).serves haxum hmore
  obtain ⟨handler, hhandlers, harrives⟩ :=
    arrives_request hjson haxum hserving.sound.valid hserve
  obtain ⟨later, hfound, horigin, hagrees⟩ := hlater.exists_handler hhandlers
  rw [answerOf, hfound, Option.bind_some] at hanswer
  have houtcome : later.outcome = handler.outcome := by
    rw [← Handler.outcome_origin, horigin, Handler.outcome_origin]
  refine ⟨?_, ?_, fun hproceeds =>
    store_of_proceeds haxum hserving'.sound hserving'.agrees hproceeds hmore⟩
  · intro hstatus
    cases harrives with
    | panicked => simp [Handler.eq_ended_of_origin horigin, Handler.answer] at hanswer
    | unchanged _ hentries htree => exact ⟨hentries, htree⟩
    | failed _ hentries htree => exact ⟨hentries, htree⟩
    | sequenced hsequenced _ =>
        have hresponse := hagrees.respond_of_outcome (houtcome.trans hsequenced) hanswer
        exact absurd (status_of_jsonResponse hresponse) hstatus
  · intro hstatus
    cases harrives with
    | panicked => simp [Handler.eq_ended_of_origin horigin, Handler.answer] at hanswer
    | unchanged hnone _ _ =>
        exact absurd hstatus (hagrees.status_ne (houtcome.trans hnone) hanswer)
    | failed hfailed _ _ =>
        have hresponse := hagrees.respond_of_outcome (houtcome.trans hfailed) hanswer
        rw [status_of_jsonResponse hresponse] at hstatus
        simp at hstatus
    | @sequenced _ record receipt hsequenced hsequences =>
        have hresponse := hagrees.respond_of_outcome (houtcome.trans hsequenced) hanswer
        obtain ⟨hplain, hdepth⟩ := s.service.operator.plain_receipt receipt
        exact ⟨record, receipt, hsequences, hresponse,
          fromStr_body hjson hplain (by omega) hresponse⟩

end System

end

namespace Sample

/-- The library's extractors, as far as a body, a segment without escapes and a query of one
parameter go. -/
scoped instance axum : Axum where
  notFound := { status := 404, contentType := "", body := "" }
  methodNotAllowed := { status := 405, contentType := "", body := "" }
  bodyText request :=
    match Text.decode request.body with
    | some cs => .ok (String.ofList cs)
    | none => .error { status := 400, contentType := "text/plain; charset=utf-8"
                       body := "Request body didn't contain valid UTF-8" }
  segmentText segment := .ok segment
  queryParams query := .ok fun key => query.bind (stripPrefix (key ++ "="))

theorem axum_conforms : Axum.Conforms where
  notFound := rfl
  methodNotAllowed := rfl
  body_rejected request response h := by
    simp only [Axum.bodyText] at h
    split at h
    · simp at h
    · obtain rfl := Except.error.inj h
      decide
  segment_rejected _ _ h := by simp [Axum.segmentText] at h
  query_rejected _ _ h := by simp [Axum.queryParams] at h
  body_text request text h := by
    simp only [Axum.bodyText] at h
    split at h
    · next cs hdecode =>
      obtain rfl := Except.ok.inj h
      rw [String.toList_ofList]
      exact (Text.decode_eq_some_iff.mp hdecode).symm
    · simp at h

theorem bodyText_of_encode {request : HttpRequest} {text : String}
    (hbody : request.body = encode text.toList) : Axum.bodyText request = .ok text := by
  simp only [Axum.bodyText, hbody, Text.decode_encode, String.ofList_toList]

/-- The sample service, where an append has to present a token. -/
def guardedService : Service :=
  { service none with appendToken := some "secret" }

def guardedConfig : Config :=
  { config none with appendToken := some "secret" }

theorem new_guardedService :
    Service.new guardedConfig (some none) = some (.ok guardedService) :=
  rfl

/-- A commit, with this `Authorization` header. -/
def posted (authorization : String) : HttpRequest where
  method := .post
  path := "/commitments"
  query := none
  headers := [("authorization", encode authorization.toList)]
  body := encode (body "dpp:1" (digest [1])).toList

theorem router_posted (authorization : String) (now : Fin 60) (outcome : WriteOutcome) :
    router (posted authorization) now outcome =
      .ok (.commit (headerToStr (encode authorization.toList)) (body "dpp:1" (digest [1])) now
        outcome) := by
  have hheader : authorizationOf (posted authorization).headers =
      headerToStr (encode authorization.toList) := by
    simp [authorizationOf, headerGet, posted]
  have hbody : Axum.bodyText (posted authorization) = .ok (body "dpp:1" (digest [1])) :=
    bodyText_of_encode (by rw [posted])
  rw [router_commitments rfl rfl hbody, hheader]

theorem serve_posted (s : System) (authorization : String) (now : Fin 60)
    (outcome : WriteOutcome) :
    s.serve (.request (posted authorization) now outcome) =
      some (s.commit (headerToStr (encode authorization.toList)) (body "dpp:1" (digest [1])) now
        outcome) := by
  rw [System.serve, router_posted]
  rfl

/-- With the token, the commit is sequenced and answered with 201; with another one, it is
answered with 401 and the log stays empty. -/
theorem writes_of_token :
    (∃ (written : System) (response : Response) (record : CommitRecord) (receipt : Receipt),
      (System.init guardedService).serve
        (.request (posted "Bearer secret") ⟨1, by decide⟩ .written) = some written ∧
      written.answerOf 0 = some response ∧ response.status = 201 ∧
      Sequences guardedService.toAppState written.service.toAppState (posted "Bearer secret")
        ⟨1, by decide⟩ record receipt) ∧
    ∃ (refused : System) (response : Response),
      (System.init guardedService).serve
        (.request (posted "Bearer other") ⟨1, by decide⟩ .written) = some refused ∧
      refused.answerOf 0 = some response ∧ response.status = 401 ∧
      refused.service.store.entries = [] := by
  have hrunning : (System.init guardedService).Running := ⟨valid_empty, rfl, signs⟩
  have hparse := parseCommit_body (show Text.trim "dpp:1".toList = "dpp:1".toList by decide)
    (by decide) (by decide) (digest [1]) ⟨1, by decide⟩
  constructor
  · have hallows : guardedService.allowsAppend
        (headerToStr (encode "Bearer secret".toList)) = true := by decide
    have hrequest : guardedService.commitRequest (headerToStr (encode "Bearer secret".toList))
        (body "dpp:1" (digest [1])) ⟨1, by decide⟩ =
          .ok { request ⟨1, by decide⟩ "dpp:1" with commitment := digest [1] } := by
      rw [AppState.commitRequest, if_neg (by rw [hallows]; decide), hparse]
    obtain ⟨receipt, store, -, -, -, hcommit⟩ :=
      hrunning.commit serdeJson_conforms hrequest (by decide)
    obtain ⟨response, hresponse⟩ := exists_jsonResponse serdeJson_conforms 201
      (guardedService.operator.plain_receipt receipt).1
    have hserve := serve_posted (System.init guardedService) "Bearer secret" ⟨1, by decide⟩
      .written
    rw [hcommit] at hserve
    have hanswered := System.answerOf_push ({ (System.init guardedService).withStore store with
        sequenced := (System.init guardedService).sequenced ++
          [(System.init guardedService).service.store.nextRecord
            { request ⟨1, by decide⟩ "dpp:1" with commitment := digest [1] }] })
      (guardedService.afterAppend (.ok (receipt.toJson guardedService.operator.info)))
    have hanswer := hanswered.trans hresponse
    obtain ⟨-, hcreated, -⟩ := System.writes_all_or_nothing serdeJson_conforms axum_conforms
      new_guardedService Transition.run_nil hserve Transition.run_nil hanswer
    obtain ⟨record, found, hsequences, -⟩ := hcreated (status_of_jsonResponse hresponse)
    exact ⟨_, response, record, found, hserve, hanswer, status_of_jsonResponse hresponse,
      hsequences⟩
  · obtain ⟨response, hresponse⟩ : ∃ response, unauthorized = some response :=
      exists_jsonResponse serdeJson_conforms 401 (Value.plain_ofFields (by simp [Value.Plain]))
    have hdenied : (System.init guardedService).service.allowsAppend
        (headerToStr (encode "Bearer other".toList)) = false := by decide
    have hserve := serve_posted (System.init guardedService) "Bearer other" ⟨1, by decide⟩
      .written
    rw [System.commit, AppState.commitRequest, if_pos hdenied, hresponse] at hserve
    have hanswer := System.answerOf_push (System.init guardedService) (.ended (some response))
    have hstatus : response.status = 401 := status_of_jsonResponse hresponse
    obtain ⟨hunchanged, -⟩ := System.writes_all_or_nothing serdeJson_conforms axum_conforms
      new_guardedService Transition.run_nil hserve Transition.run_nil hanswer
    exact ⟨_, response, hserve, hanswer, hstatus, (hunchanged (by simp [hstatus])).1⟩

end Sample

end UnidppLog
