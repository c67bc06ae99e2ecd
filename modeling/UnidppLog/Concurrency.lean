/-
# Requests in flight

Any number of handlers over one shared state, interleaved at the boundaries of
their critical sections. A commit appends and derives its receipt under the
store's lock, takes the lock again to read the head it anchors, waits for the
time-stamp authority, and stores the record under the lock of the record. A
`GET /tree/head` reads the head under the one lock and the record under the
other. A panic under the store's lock poisons it, and whoever takes a poisoned
lock panics. The lock of the record is never held over a panic.
-/

import UnidppLog.Service
import UnidppLog.Transition.Run

namespace UnidppLog

open Json (Value)
open Unidpp

section

variable [Unidpp]

/-- Where a commit stands behind its append. Without an answer, the connection
ended: the handler panicked, or its client went away while it waited. -/
inductive CommitPhase
  | appended
  | submitting (head : SignedTreeHead)
  | answered (response : Option Response)

/-- A handler: a commit with the outcome of its append, a `GET /tree/head` between
its two locks and behind them, a read that was served, and a handler that ended
without reaching the store's lock or by finding it poisoned. -/
inductive Handler
  | commit (outcome : Except StoreError Value) (phase : CommitPhase)
  | viewing (head : Option SignedTreeHead)
  | viewed (head : Option SignedTreeHead) (response : Option Response)
  | served (request : Get) (response : Option Response)
  | ended (response : Option Response)

/-- The shared state, whether its store's lock is poisoned, and the handlers in
the order in which they came to it. What has happened so far is kept along: the
records of the appends that succeeded, the heads that were submitted, and the
replies to them. -/
structure System where
  service : Service
  poisoned : Bool
  handlers : List Handler
  sequenced : List CommitRecord
  submitted : List SignedTreeHead
  replies : List (SignedTreeHead × List UInt8)

/-- One handler's next critical section. A commit brings its request, the time and
what becomes of the journal write; a recorded submission, the time and what the
exchange returned. -/
inductive Action
  | commit (authorization : Option String) (body : String) (now : Timestamp)
      (outcome : WriteOutcome)
  | readHead (i : ℕ)
  | record (i : ℕ) (now : Timestamp) (reply : Except String (List UInt8))
  | leave (i : ℕ)
  | treeHead
  | view (i : ℕ)
  | get (request : Get)

namespace System

/-- The service when it has just come up. -/
def init (service : Service) : System where
  service := service
  poisoned := false
  handlers := []
  sequenced := []
  submitted := []
  replies := []

/-- A handler that comes to the shared state. -/
def push (s : System) (handler : Handler) : System :=
  { s with handlers := s.handlers ++ [handler] }

/-- A handler that has moved on. -/
def set (s : System) (i : ℕ) (handler : Handler) : System :=
  { s with handlers := s.handlers.set i handler }

def withStore (s : System) (store : LogStore) : System :=
  { s with service := { s.service with store } }

/-- A panic under the store's lock. -/
def poison (s : System) : System :=
  { s with poisoned := true }

end System

variable [SerdeJson]

/-- The request of a commit that may append, or the answer to one that may not. -/
def AppState.commitRequest (app : AppState) (authorization : Option String) (body : String)
    (now : Timestamp) : Except (Option Response) AppendRequest :=
  if app.allowsAppend authorization = false then .error unauthorized
  else
    match parseCommit body now with
    | .error msg => .error (badRequest msg)
    | .ok request => .ok request

/-- The answer to a commit, by the outcome of its append. -/
def respond (outcome : Except StoreError Value) : Option Response :=
  match outcome with
  | .ok receipt => jsonResponse 201 receipt
  | .error e => storeError e

/-- A commit behind its append: it goes on to the external anchor, or answers. -/
def Service.afterAppend (service : Service) (outcome : Except StoreError Value) : Handler :=
  match service.externalTsaUrl with
  | some _ => .commit outcome .appended
  | none => .commit outcome (.answered (respond outcome))

namespace System

/-- `POST /commitments`, up to the release of the store's lock. A store that an
append panicked in is not read again: its lock is poisoned. -/
def commit (s : System) (authorization : Option String) (body : String) (now : Timestamp)
    (outcome : WriteOutcome) : System :=
  match s.service.toAppState.commitRequest authorization body now with
  | .error response => s.push (.ended response)
  | .ok request =>
    if s.poisoned then s.push (.ended none)
    else
      match s.service.store.append request outcome with
      | none => s.poison.push (.ended none)
      | some (.error e, store) =>
        (s.withStore store).push (s.service.afterAppend (.error e))
      | some (.ok record, store) =>
        let s := { s.withStore store with sequenced := s.sequenced ++ [record] }
        match Receipt.of store record.seq s.service.operator.logId s.service.operator.key with
        | some (some receipt) =>
          s.push (s.service.afterAppend (.ok (receipt.toJson s.service.operator.info)))
        | _ => s.poison.push (.ended none)

/-- A commit takes the store's lock again, to read the head that it submits. -/
def readHead (s : System) (i : ℕ) (outcome : Except StoreError Value) : System :=
  if s.poisoned then s.set i (.commit outcome (.answered none))
  else
    match currentHead s.service.store s.service.operator.logId s.service.operator.key with
    | none => s.poison.set i (.commit outcome (.answered none))
    | some none => s.set i (.commit outcome (.answered (respond outcome)))
    | some (some head) =>
      { s.set i (.commit outcome (.submitting head)) with submitted := s.submitted ++ [head] }

/-- `GET /tree/head`, up to the release of the store's lock. -/
def treeHead (s : System) : System :=
  if s.poisoned then s.push (.ended none)
  else
    match currentHead s.service.store s.service.operator.logId s.service.operator.key with
    | none => s.poison.push (.ended none)
    | some head => s.push (.viewing head)

/-- A read that takes one lock or none. -/
def get (s : System) (request : Get) : System :=
  if s.poisoned && Service.locks request then s.push (.served request none)
  else
    let s := if s.service.panicsLocked request then s.poison else s
    s.push (.served request (s.service.get request))

variable [ExternalAnchoring]

/-- The exchange with the authority returns, and the outcome becomes the record. -/
def record (s : System) (i : ℕ) (outcome : Except StoreError Value) (head : SignedTreeHead)
    (tsaUrl : String) (now : Timestamp) (reply : Except String (List UInt8)) : System :=
  let replies :=
    match reply with
    | .ok response => s.replies ++ [(head, response)]
    | .error _ => s.replies
  match submitAnchor head.anchoredExternally tsaUrl now reply with
  | none => { s.set i (.commit outcome (.answered none)) with replies }
  | some record =>
    { s.set i (.commit outcome (.answered (respond outcome))) with
      service := { s.service with tsa := some { record with treeSize := head.treeSize } }
      replies }

/-- One critical section, or `none` where no handler is about to enter it. -/
def step (s : System) : Action → Option System
  | .commit authorization body now outcome => some (s.commit authorization body now outcome)
  | .readHead i =>
    match s.handlers[i]? with
    | some (.commit outcome .appended) => some (s.readHead i outcome)
    | _ => none
  | .record i now reply =>
    match s.handlers[i]?, s.service.externalTsaUrl with
    | some (.commit outcome (.submitting head)), some tsaUrl =>
      some (s.record i outcome head tsaUrl now reply)
    | _, _ => none
  | .leave i =>
    match s.handlers[i]? with
    | some (.commit outcome (.submitting _)) => some (s.set i (.commit outcome (.answered none)))
    | _ => none
  | .treeHead => some s.treeHead
  | .view i =>
    match s.handlers[i]? with
    | some (.viewing head) =>
      some (s.set i (.viewed head (treeHeadResponse s.service.operator head s.service.tsa)))
    | _ => none
  | .get request => some (s.get request)

/-- A run of critical sections. -/
def run (s : System) (actions : List Action) : Option System :=
  Transition.run step s actions

end System

end

section

/-- An answer to a commit that is a 201 is its receipt. -/
theorem exists_of_respond [SerdeJson] {outcome : Except StoreError Value} {response : Response}
    (h : respond outcome = some response) (hstatus : response.status = 201) :
    ∃ v, outcome = .ok v ∧ jsonResponse 201 v = some response := by
  cases outcome with
  | error e =>
      rw [status_of_jsonResponse h] at hstatus
      simp at hstatus
  | ok v => exact ⟨v, rfl, h⟩

variable [Unidpp]

theorem currentHead_ne_none {store : LogStore} (hvalid : store.Valid) (logId : String)
    (operator : KeyPair) : currentHead store logId operator ≠ none := by
  cases hlast : store.entries.getLast? with
  | none => simp [currentHead_empty (List.getLast?_eq_none_iff.mp hlast)]
  | some record => simp [hvalid.currentHead_eq hlast]

/-- No read panics over a store that is what its entries determine. -/
theorem Service.panicsLocked_eq_false {service : Service} (hvalid : service.store.Valid)
    (request : Get) :
    service.panicsLocked request = false := by
  cases request with
  | discovery => rfl
  | healthz => rfl
  | consistency params =>
      simp only [Service.panicsLocked]
      split
      · rfl
      · next oldSize _ =>
        split
        · rfl
        · next hnot =>
          obtain ⟨root, oldRoot, path, hroot, hold, hpath⟩ := hvalid.consistency_total hnot
          simp [hroot, hold, hpath]
  | receipt text =>
      simp only [Service.panicsLocked]
      split
      · rfl
      · next seq _ =>
        cases hrecord : service.store.entries[seq.toNat]? with
        | none => simp [receipt_eq_none hrecord]
        | some record => simp [hvalid.receipt_eq _ _ hrecord]

namespace System

variable {s : System}

theorem mem_push {handler handler' : Handler} (h : handler' ∈ (s.push handler).handlers) :
    handler' ∈ s.handlers ∨ handler' = handler := by
  simpa [push] using h

theorem mem_set {i : ℕ} {handler handler' : Handler}
    (h : handler' ∈ (s.set i handler).handlers) : handler' ∈ s.handlers ∨ handler' = handler :=
  List.mem_or_eq_of_mem_set h

theorem getElem?_push {i : ℕ} {handler handler' : Handler}
    (h : (s.push handler).handlers[i]? = some handler') :
    s.handlers[i]? = some handler' ∨ handler' = handler := by
  rw [push, List.getElem?_append] at h
  split at h
  · exact .inl h
  · have hmem := List.mem_of_getElem? h
    exact .inr (List.mem_singleton.mp hmem)

theorem getElem?_set {i j : ℕ} {handler handler' : Handler}
    (h : (s.set i handler).handlers[j]? = some handler') :
    s.handlers[j]? = some handler' ∨ i = j ∧ handler' = handler := by
  rw [set, List.getElem?_set] at h
  split at h
  · next hij =>
    split at h
    · exact .inr ⟨hij, (Option.some.inj h).symm⟩
    · simp at h
  · exact .inl h

/-- What a handler keeps as it moves on, the list of handlers keeps. -/
theorem map_set {β : Type*} {f : Handler → β} {i : ℕ} {old handler : Handler}
    (hi : s.handlers[i]? = some old) (heq : f handler = f old) :
    (s.set i handler).handlers.map f = s.handlers.map f := by
  obtain ⟨hlt, rfl⟩ := List.getElem?_eq_some_iff.mp hi
  have hself : (s.handlers.map f).set i (f s.handlers[i]) = s.handlers.map f := by
    rw [← List.map_set, List.set_getElem_self]
  rw [set, List.map_set, heq, hself]

end System

variable [SerdeJson]

theorem Service.afterAppend_of_some {service : Service} {tsaUrl : String}
    (hurl : service.externalTsaUrl = some tsaUrl) (outcome : Except StoreError Value) :
    service.afterAppend outcome = .commit outcome .appended := by
  rw [afterAppend, hurl]

theorem Service.afterAppend_of_none {service : Service} (hurl : service.externalTsaUrl = none)
    (outcome : Except StoreError Value) :
    service.afterAppend outcome = .commit outcome (.answered (respond outcome)) := by
  rw [afterAppend, hurl]

/-- A request that may not append is answered, if at all, with an error of its own. -/
theorem AppState.status_of_commitRequest {app : AppState} {authorization : Option String}
    {body : String} {now : Timestamp} {response : Response}
    (h : app.commitRequest authorization body now = .error (some response)) :
    response.status ≠ 201 := by
  rw [commitRequest] at h
  split at h
  · rw [status_of_jsonResponse (Except.error.inj h)]
    decide
  · split at h
    · rw [status_of_jsonResponse (Except.error.inj h)]
      decide
    · simp at h

namespace System

variable {s s' : System}

/-- A read finds the lock poisoned, or is served. -/
theorem get_eq (hvalid : s.service.store.Valid) (request : Get) :
    s.get request = s.push (.served request
      (if s.poisoned && Service.locks request then none else s.service.get request)) := by
  rw [System.get, Service.panicsLocked_eq_false hvalid]
  split <;> simp

/-- Without an authority, a commit that finds the lock as it should be answers what the
handler alone does, and leaves the shared state that it does. -/
theorem commit_agrees (hurl : s.service.externalTsaUrl = none) (hpoisoned : s.poisoned = false)
    {authorization : Option String} {body : String} {now : Timestamp} {outcome : WriteOutcome}
    {response : Response} {app : AppState}
    (h : s.service.toAppState.commit authorization body now outcome = some (response, app)) :
    (s.commit authorization body now outcome).service.toAppState = app ∧
    (s.commit authorization body now outcome).poisoned = false ∧
      ∃ handler, (s.commit authorization body now outcome).handlers = s.handlers ++ [handler] ∧
        (handler = .ended (some response) ∨
          ∃ result, handler = .commit result (.answered (some response))) := by
  rw [AppState.commit] at h
  rw [System.commit, AppState.commitRequest]
  by_cases hallows : s.service.allowsAppend authorization = false
  · rw [if_pos hallows] at h ⊢
    obtain ⟨answer, hanswer, hrest⟩ := Option.bind_eq_some_iff.mp h
    obtain ⟨rfl, rfl⟩ := Prod.mk.inj (Option.some.inj hrest)
    exact ⟨rfl, hpoisoned, _, rfl, .inl (by rw [hanswer])⟩
  · rw [if_neg hallows] at h ⊢
    cases hparse : parseCommit body now with
    | error msg =>
        rw [hparse] at h
        obtain ⟨answer, hanswer, hrest⟩ := Option.bind_eq_some_iff.mp h
        obtain ⟨rfl, rfl⟩ := Prod.mk.inj (Option.some.inj hrest)
        exact ⟨rfl, hpoisoned, _, rfl, .inl (by rw [hanswer])⟩
    | ok request =>
        rw [hparse] at h
        obtain ⟨⟨result, store⟩, happend, h⟩ := Option.bind_eq_some_iff.mp h
        simp only [hpoisoned, happend, Service.afterAppend_of_none hurl]
        cases result with
        | error e =>
            obtain ⟨answer, hanswer, hrest⟩ := Option.bind_eq_some_iff.mp h
            obtain ⟨rfl, rfl⟩ := Prod.mk.inj (Option.some.inj hrest)
            exact ⟨rfl, hpoisoned, _, rfl, .inr ⟨_, by rw [← hanswer]; rfl⟩⟩
        | ok record =>
            simp only [Option.bind_eq_bind, Option.bind_eq_some_iff, Option.pure_def,
              Option.some.injEq, Prod.mk.injEq] at h
            obtain ⟨_, hfound, receipt, rfl, answer, hanswer, rfl, rfl⟩ := h
            simp only [withStore, hfound]
            refine ⟨rfl, hpoisoned, _, rfl, .inr ⟨.ok (receipt.toJson s.service.operator.info), ?_⟩⟩
            refine (Service.afterAppend_of_none hurl _).trans ?_
            rw [respond, hanswer]

/-! ## What a step does -/

/-- The reply of an exchange, kept beside the head it is for. -/
def arrived (head : SignedTreeHead) (reply : Except String (List UInt8)) :
    List (SignedTreeHead × List UInt8) :=
  match reply with
  | .ok response => [(head, response)]
  | .error _ => []

variable [ExternalAnchoring]

/-- What a critical section does to a valid state, case by case: a commit is
refused, panics over a full log, fails to write, sequences a record, or cannot
prove it; it finds no head, or submits one; its submission panics, or is recorded,
or is abandoned; a head is not read, or read, or shown; a read is served. -/
inductive Steps (s : System) : Action → System → Prop
  | refused {authorization body now outcome} {response : Option Response}
      (hstatus : ∀ r, response = some r → r.status ≠ 201) :
      Steps s (.commit authorization body now outcome) (s.push (.ended response))
  | overflowed {authorization body now outcome} {request : AppendRequest}
      (happend : s.service.store.append request outcome = none) :
      Steps s (.commit authorization body now outcome) (s.poison.push (.ended none))
  | failed {authorization body now outcome} {request : AppendRequest} {e : StoreError}
      {store : LogStore}
      (happend : s.service.store.append request outcome = some (.error e, store)) :
      Steps s (.commit authorization body now outcome)
        ((s.withStore store).push (s.service.afterAppend (.error e)))
  | sequenced {authorization body now outcome} {request : AppendRequest} {record : CommitRecord}
      {store : LogStore} {receipt : Receipt}
      (happend : s.service.store.append request outcome = some (.ok record, store))
      (hreceipt : Receipt.of store record.seq s.service.operator.logId s.service.operator.key =
        some (some receipt)) :
      Steps s (.commit authorization body now outcome)
        ({ s.withStore store with sequenced := s.sequenced ++ [record] }.push
          (s.service.afterAppend (.ok (receipt.toJson s.service.operator.info))))
  | unprovable {authorization body now outcome} {request : AppendRequest} {record : CommitRecord}
      {store : LogStore}
      (happend : s.service.store.append request outcome = some (.ok record, store))
      (hnone : ∀ receipt, Receipt.of store record.seq s.service.operator.logId
        s.service.operator.key ≠ some (some receipt)) :
      Steps s (.commit authorization body now outcome)
        ({ s.withStore store with sequenced := s.sequenced ++ [record] }.poison.push (.ended none))
  | headless {i} {outcome : Except StoreError Value} {response : Option Response}
      (hi : s.handlers[i]? = some (.commit outcome .appended))
      (hhead : s.poisoned = true ∨ currentHead s.service.store s.service.operator.logId
        s.service.operator.key = some none)
      (hresponse : ∀ r, response = some r → respond outcome = some r) :
      Steps s (.readHead i) (s.set i (.commit outcome (.answered response)))
  | submitted {i} {outcome : Except StoreError Value} {head : SignedTreeHead}
      (hi : s.handlers[i]? = some (.commit outcome .appended))
      (hhead : currentHead s.service.store s.service.operator.logId s.service.operator.key =
        some (some head)) :
      Steps s (.readHead i)
        { s.set i (.commit outcome (.submitting head)) with submitted := s.submitted ++ [head] }
  | dropped {i now reply} {outcome : Except StoreError Value} {head : SignedTreeHead}
      (hi : s.handlers[i]? = some (.commit outcome (.submitting head))) :
      Steps s (.record i now reply)
        { s.set i (.commit outcome (.answered none)) with
          replies := s.replies ++ arrived head reply }
  | recorded {i now reply} {outcome : Except StoreError Value} {head : SignedTreeHead}
      {tsaUrl : String} {record : TsaRecord}
      (hi : s.handlers[i]? = some (.commit outcome (.submitting head)))
      (hsubmit : submitAnchor head.anchoredExternally tsaUrl now reply = some record) :
      Steps s (.record i now reply)
        { s.set i (.commit outcome (.answered (respond outcome))) with
          service := { s.service with tsa := some { record with treeSize := head.treeSize } }
          replies := s.replies ++ arrived head reply }
  | abandoned {i} {outcome : Except StoreError Value} {head : SignedTreeHead}
      (hi : s.handlers[i]? = some (.commit outcome (.submitting head))) :
      Steps s (.leave i) (s.set i (.commit outcome (.answered none)))
  | unread : Steps s .treeHead (s.push (.ended none))
  | read {head : Option SignedTreeHead}
      (hhead : currentHead s.service.store s.service.operator.logId s.service.operator.key =
        some head) :
      Steps s .treeHead (s.push (.viewing head))
  | shown {i} {head : Option SignedTreeHead} (hi : s.handlers[i]? = some (.viewing head)) :
      Steps s (.view i)
        (s.set i (.viewed head (treeHeadResponse s.service.operator head s.service.tsa)))
  | served {request} :
      Steps s (.get request) (s.push (.served request
        (if s.poisoned && Service.locks request then none else s.service.get request)))

theorem steps_commit (s : System) (authorization : Option String) (body : String)
    (now : Timestamp) (outcome : WriteOutcome) :
    s.Steps (.commit authorization body now outcome) (s.commit authorization body now outcome) := by
  rw [commit]
  split
  · next response hrefused =>
    refine .refused fun r hr => ?_
    rw [hr] at hrefused
    exact AppState.status_of_commitRequest hrefused
  · next request _ =>
    split
    · exact .refused (by simp)
    · split
      · next happend => exact .overflowed happend
      · next e store happend => exact .failed happend
      · next record store happend =>
        dsimp only
        split
        · next receipt hreceipt => exact .sequenced happend hreceipt
        · next hnone => exact .unprovable happend hnone

theorem steps_readHead (hvalid : s.service.store.Valid) {i : ℕ}
    {outcome : Except StoreError Value}
    (hi : s.handlers[i]? = some (.commit outcome .appended)) :
    s.Steps (.readHead i) (s.readHead i outcome) := by
  rw [readHead]
  split
  · next hpoisoned => exact .headless hi (.inl hpoisoned) (by simp)
  · split
    · next hnone => exact absurd hnone (currentHead_ne_none hvalid _ _)
    · next hnone => exact .headless hi (.inr hnone) fun r hr => hr
    · next head hhead => exact .submitted hi hhead

theorem steps_record {i : ℕ} {outcome : Except StoreError Value} {head : SignedTreeHead}
    (hi : s.handlers[i]? = some (.commit outcome (.submitting head))) (tsaUrl : String)
    (now : Timestamp) (reply : Except String (List UInt8)) :
    s.Steps (.record i now reply) (s.record i outcome head tsaUrl now reply) := by
  have hrecord : s.record i outcome head tsaUrl now reply =
      match submitAnchor head.anchoredExternally tsaUrl now reply with
      | none =>
        { s.set i (.commit outcome (.answered none)) with
          replies := s.replies ++ arrived head reply }
      | some record =>
        { s.set i (.commit outcome (.answered (respond outcome))) with
          service := { s.service with tsa := some { record with treeSize := head.treeSize } }
          replies := s.replies ++ arrived head reply } := by
    cases reply <;> simp [record, arrived]
  rw [hrecord]
  split
  · exact .dropped hi
  · next record hsubmit => exact .recorded hi hsubmit

theorem steps_treeHead (hvalid : s.service.store.Valid) : s.Steps .treeHead s.treeHead := by
  rw [treeHead]
  split
  · exact .unread
  · split
    · next hnone => exact absurd hnone (currentHead_ne_none hvalid _ _)
    · next head hhead => exact .read hhead

/-- Every step of a valid state is one of these. -/
theorem steps_of_step (hvalid : s.service.store.Valid) {action : Action}
    (hstep : s.step action = some s') : s.Steps action s' := by
  cases action with
  | commit authorization body now outcome =>
      obtain rfl := Option.some.inj hstep
      exact s.steps_commit authorization body now outcome
  | readHead i =>
      simp only [System.step] at hstep
      split at hstep
      · next outcome hi =>
        obtain rfl := Option.some.inj hstep
        exact steps_readHead hvalid hi
      · simp at hstep
  | record i now reply =>
      simp only [System.step] at hstep
      split at hstep
      · next outcome head tsaUrl hi _ =>
        obtain rfl := Option.some.inj hstep
        exact steps_record hi tsaUrl now reply
      · simp at hstep
  | leave i =>
      simp only [System.step] at hstep
      split at hstep
      · next outcome head hi =>
        obtain rfl := Option.some.inj hstep
        exact .abandoned hi
      · simp at hstep
  | treeHead =>
      obtain rfl := Option.some.inj hstep
      exact steps_treeHead hvalid
  | view i =>
      simp only [System.step] at hstep
      split at hstep
      · next head hi =>
        obtain rfl := Option.some.inj hstep
        exact .shown hi
      · simp at hstep
  | get request =>
      obtain rfl := Option.some.inj hstep
      rw [get_eq hvalid]
      exact .served

end System

end

end UnidppLog
