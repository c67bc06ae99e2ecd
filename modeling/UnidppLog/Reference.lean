/-
# The reference log

What the service is to its clients: a list of records that grows at its end, and
answers that are functions of the records of one moment. There is no cached tree, no
journal, no lock and no handler in flight here, and nothing panics: receipts, heads and
consistency proofs are those of RFC 6962 over the leaves. The store's reads are related
to it one by one.
-/

import UnidppLog.Router

namespace UnidppLog

open Json (Value)
open Unidpp
open Text (trim)

section

variable [Unidpp]

/-- What the answers depend on beside the records. A log whose records are journaled
refuses an append that the journal does not take. -/
structure Reference where
  appendToken : Option String
  operator : Operator
  buildId : Option String
  journaled : Bool

namespace Reference

/-- Whoever appends presents the token, if there is one. -/
def Authorized (log : Reference) (authorization : Option String) : Prop :=
  ∀ token ∈ log.appendToken, authorization = some ("Bearer " ++ token)

instance (log : Reference) (authorization : Option String) :
    Decidable (log.Authorized authorization) :=
  inferInstanceAs (Decidable (∀ token ∈ log.appendToken, _))

def leaves (records : List CommitRecord) : List Hash :=
  records.map CommitRecord.commitment

/-- The record that an append adds: the next number, and what was asked for. -/
def sequenced (records : List CommitRecord) (request : AppendRequest) : CommitRecord where
  seq := UInt64.ofNat records.length
  loggedAt := request.loggedAt
  subject := request.subject
  commitment := request.commitment
  saltRef := request.saltRef

/-- Why a record is not written, if it is not. -/
def writeError (log : Reference) : WriteOutcome → Option String
  | .written => none
  | .failed _ reason => if log.journaled then some reason else none

/-- The head over all records, at the time of the last one. -/
def head (log : Reference) (records : List CommitRecord) : Option SignedTreeHead :=
  records.getLast?.bind fun last =>
    SignedTreeHead.over log.operator.logId log.operator.key (leaves records) last.loggedAt

/-- The receipt of a record, over the records up to it. -/
def receipt (log : Reference) (records : List CommitRecord) (seq : ℕ) : Option Receipt :=
  records[seq]?.bind fun record =>
    Receipt.over log.operator.logId log.operator.key ((leaves records).take (seq + 1)) record

theorem authorized_iff {log : Reference} {app : AppState}
    (htoken : app.appendToken = log.appendToken) (authorization : Option String) :
    log.Authorized authorization ↔ app.allowsAppend authorization = true := by
  rw [Authorized, AppState.allowsAppend, htoken]
  cases log.appendToken with
  | none => simp
  | some token =>
      simp only [Option.mem_def, Option.some.injEq, forall_eq', decide_eq_true_eq,
        Option.bind_eq_some_iff]
      constructor
      · rintro rfl
        refine ⟨_, rfl, ?_⟩
        rw [stripPrefix, String.toList_append, if_pos (List.prefix_append _ _), List.drop_left,
          String.ofList_toList]
      · rintro ⟨text, rfl, hstrip⟩
        have htext := eq_append_of_stripPrefix hstrip
        rw [← String.toList_append] at htext
        rw [String.toList_inj.mp htext]

theorem leaves_entries (store : LogStore) : leaves store.entries = store.commitments :=
  rfl

theorem currentHead_eq {store : LogStore} (log : Reference) (hvalid : store.Valid) :
    currentHead store log.operator.logId log.operator.key = some (log.head store.entries) := by
  rw [head]
  cases hlast : store.entries.getLast? with
  | none =>
      rw [currentHead_empty (List.getLast?_eq_none_iff.mp hlast)]
      rfl
  | some record =>
      rw [hvalid.currentHead_eq hlast]
      rfl

theorem receipt_eq {store : LogStore} (log : Reference) (hvalid : store.Valid) (seq : UInt64) :
    Receipt.of store seq log.operator.logId log.operator.key =
      some (log.receipt store.entries seq.toNat) := by
  rw [receipt]
  cases hrecord : store.entries[seq.toNat]? with
  | none =>
      rw [receipt_eq_none hrecord]
      rfl
  | some record =>
      rw [hvalid.receipt_eq _ _ hrecord]
      rfl

/-- What a consistency answer is put together from. -/
theorem consistency_eq {store : LogStore} (hvalid : store.Valid) {oldSize : UInt64}
    (hle : ¬ store.size < oldSize) :
    store.root = some (rootOf (leaves store.entries)) ∧
      store.rootAtSize oldSize = some (rootOf ((leaves store.entries).take oldSize.toNat)) ∧
        store.consistencyPath oldSize =
          some (Rfc6962.proof scheme oldSize.toNat (leaves store.entries)) := by
  have hrep := hvalid.represents
  have hnat : oldSize.toNat ≤ store.commitments.length := by
    rw [UInt64.lt_iff_toNat_lt, hvalid.size_toNat] at hle
    rw [LogStore.length_commitments]
    omega
  refine ⟨?_, ?_, hrep.consistencyPath hnat⟩
  · rw [LogStore.root, MerkleTree.root, hrep.size_eq, hrep.rootAtSize le_rfl, List.take_length]
    rfl
  · rw [LogStore.rootAtSize, if_neg hle, hrep.rootAtSize hnat]
    rfl

variable [SerdeJson]

/-- `POST /commitments`: the records behind it, and the answer. -/
def commit (log : Reference) (records : List CommitRecord) (authorization : Option String)
    (body : String) (now : Timestamp) (outcome : WriteOutcome) :
    List CommitRecord × Option Response :=
  if log.Authorized authorization then
    match parseCommit body now with
    | .error msg => (records, badRequest msg)
    | .ok request =>
      match log.writeError outcome with
      | some reason => (records, storeError (.journal s!"journal write failed: {reason}"))
      | none =>
        let records' := records ++ [sequenced records request]
        (records', (log.receipt records' records.length).bind fun receipt =>
          jsonResponse 201 (receipt.toJson log.operator.info))
  else (records, unauthorized)

/-- `GET /receipt/{seq}`. -/
def receiptResponse (log : Reference) (records : List CommitRecord) (seq : String) :
    Option Response :=
  match parseU64 (trim seq.toList) with
  | none => badRequest "`seq` must be an unsigned integer"
  | some seq =>
    match log.receipt records seq.toNat with
    | some receipt => jsonResponse 200 (receipt.toJson log.operator.info)
    | none => notFound s!"no receipt for seq {seq}"

/-- `GET /tree/consistency?from=N`. -/
def consistencyResponse (log : Reference) (records : List CommitRecord)
    (params : String → Option String) : Option Response :=
  match (params "from").map fun s => trim s.toList with
  | none => badRequest "`from` is required (the pinned tree size)"
  | some [] => badRequest "`from` is required (the pinned tree size)"
  | some s =>
    match parseU64 s with
    | none => badRequest "`from` must be an unsigned integer"
    | some oldSize =>
      let size := UInt64.ofNat records.length
      if size < oldSize then
        badRequest s!"`from` ({oldSize}) is larger than the current tree size ({size})"
      else
        let path := Rfc6962.proof scheme oldSize.toNat (leaves records)
        jsonResponse 200 (.ofFields [
          ("log_id", .string log.operator.logId),
          ("old_size", .number (.posInt oldSize)),
          ("old_root", AppState.rootJson (rootOf ((leaves records).take oldSize.toNat))),
          ("new_size", .number (.posInt size)),
          ("new_root", AppState.rootJson (rootOf (leaves records))),
          ("path", .array (path.map fun h => .string (hex h))),
          ("operator", log.operator.info)])

/-- The answer to a read. -/
def get (log : Reference) (records : List CommitRecord) : Get → Option Response
  | .discovery => jsonResponse 200 (discoveryJson log.operator log.buildId)
  | .healthz => some { status := 200, contentType := "text/plain", body := "ok" }
  | .consistency params => log.consistencyResponse records params
  | .receipt seq => log.receiptResponse records seq

/-- The records behind a request. -/
def after (log : Reference) (records : List CommitRecord) : Action → List CommitRecord
  | .commit authorization body now outcome =>
    (log.commit records authorization body now outcome).1
  | _ => records

/-- The answers that a request may be given. A head is shown beside what is known of its
external anchor, which the log does not determine. -/
def Answers (log : Reference) (records : List CommitRecord) : Action → Response → Prop
  | .commit authorization body now outcome, response =>
    (log.commit records authorization body now outcome).2 = some response
  | .treeHead, response =>
    ∃ tsa, treeHeadResponse log.operator (log.head records) tsa = some response
  | .get read, response => log.get records read = some response
  | _, _ => False

section

variable [Axum]

/-- The records behind a request to the service. -/
def afterRequest (log : Reference) (records : List CommitRecord) (request : HttpRequest)
    (now : Timestamp) (outcome : WriteOutcome) : List CommitRecord :=
  match router request now outcome with
  | .error _ => records
  | .ok action => log.after records action

/-- The answers that a request to the service may be given. -/
def AnswersRequest (log : Reference) (records : List CommitRecord) (request : HttpRequest)
    (now : Timestamp) (outcome : WriteOutcome) (response : Response) : Prop :=
  match router request now outcome with
  | .error rejection => response = rejection
  | .ok action => log.Answers records action response

end

section

variable {log : Reference} {app : AppState} {authorization : Option String} {body : String}
  {now : Timestamp}

/-- A commit that the service refuses, the log refuses in the same way. -/
theorem commit_of_refused (htoken : app.appendToken = log.appendToken)
    {response : Option Response}
    (hrefused : app.commitRequest authorization body now = .error response)
    (records : List CommitRecord) (outcome : WriteOutcome) :
    log.commit records authorization body now outcome = (records, response) := by
  have hiff := authorized_iff htoken authorization
  rw [AppState.commitRequest] at hrefused
  by_cases hauthorized : log.Authorized authorization
  · rw [commit, if_pos hauthorized]
    rw [if_neg (by simp [hiff.mp hauthorized])] at hrefused
    cases hparse : parseCommit body now with
    | error msg =>
        rw [hparse] at hrefused
        obtain rfl := Except.error.inj hrefused
        rfl
    | ok request =>
        rw [hparse] at hrefused
        simp at hrefused
  · have hdenied : app.allowsAppend authorization = false := by simpa [hiff] using hauthorized
    rw [if_pos hdenied] at hrefused
    obtain rfl := Except.error.inj hrefused
    rw [commit, if_neg hauthorized]

theorem exists_of_commitRequest (htoken : app.appendToken = log.appendToken)
    {request : AppendRequest}
    (hrequest : app.commitRequest authorization body now = .ok request) :
    log.Authorized authorization ∧ parseCommit body now = .ok request := by
  rw [AppState.commitRequest] at hrequest
  split at hrequest
  · simp at hrequest
  · next hallowed =>
    split at hrequest
    · simp at hrequest
    · next hparse =>
      obtain rfl := Except.ok.inj hrequest
      exact ⟨(authorized_iff htoken _).mpr (by simpa using hallowed), hparse⟩

/-- A commit whose write fails leaves the records alone. -/
theorem commit_of_failed (hauthorized : log.Authorized authorization) {request : AppendRequest}
    (hparse : parseCommit body now = .ok request) {outcome : WriteOutcome} {reason : String}
    (hfailed : log.writeError outcome = some reason) (records : List CommitRecord) :
    log.commit records authorization body now outcome =
      (records, storeError (.journal s!"journal write failed: {reason}")) := by
  simp only [commit, if_pos hauthorized, hparse, hfailed]

/-- A commit whose write does not fail adds its record. -/
theorem commit_of_sequenced (hauthorized : log.Authorized authorization)
    {request : AppendRequest} (hparse : parseCommit body now = .ok request)
    {outcome : WriteOutcome} (hwritten : log.writeError outcome = none)
    (records : List CommitRecord) :
    log.commit records authorization body now outcome =
      (records ++ [sequenced records request],
        (log.receipt (records ++ [sequenced records request]) records.length).bind fun receipt =>
          jsonResponse 201 (receipt.toJson log.operator.info)) := by
  simp only [commit, if_pos hauthorized, hparse, hwritten]

end

variable {log : Reference} {store : LogStore}

theorem receiptResponse_eq {app : AppState} (hvalid : app.store.Valid)
    (hoperator : app.operator = log.operator) (seq : String) :
    app.receipt seq = log.receiptResponse app.store.entries seq := by
  rw [AppState.receipt, receiptResponse, hoperator]
  cases parseU64 (trim seq.toList) with
  | none => rfl
  | some seq =>
      exact (congrArg (· >>= _) (log.receipt_eq hvalid seq)).trans rfl

theorem consistencyResponse_eq {app : AppState} (hvalid : app.store.Valid)
    (hoperator : app.operator = log.operator) (params : String → Option String) :
    app.treeConsistency params = log.consistencyResponse app.store.entries params := by
  rw [AppState.treeConsistency, consistencyResponse, hoperator]
  generalize (params "from").map (fun s => trim s.toList) = text
  cases text with
  | none => rfl
  | some cs =>
      cases cs with
      | nil => rfl
      | cons c cs =>
          cases hparse : parseU64 (c :: cs) with
          | none => simp only [hparse]
          | some oldSize =>
              by_cases hlarge : app.store.size < oldSize
              · simp only [hparse, if_pos hlarge,
                  show UInt64.ofNat app.store.entries.length < oldSize from hlarge, if_true]
                rfl
              · obtain ⟨hroot, hold, hpath⟩ := consistency_eq hvalid hlarge
                simp only [hparse, if_neg hlarge, hroot, hold, hpath, Option.bind_eq_bind,
                  Option.bind_some, leaves_entries,
                  show ¬ UInt64.ofNat app.store.entries.length < oldSize from hlarge, if_false]
                rfl

theorem get_eq {service : Service} (hvalid : service.store.Valid)
    (hoperator : service.operator = log.operator) (hbuild : service.buildId = log.buildId)
    (read : Get) : service.get read = log.get service.store.entries read := by
  cases read with
  | discovery => rw [Service.get, get, hoperator, hbuild]
  | healthz => rfl
  | consistency params => exact consistencyResponse_eq hvalid hoperator params
  | receipt seq => exact receiptResponse_eq hvalid hoperator seq

end Reference

end

end UnidppLog
