/-
# What the reads disclose

Two services that sequence the same commitments under subjects of their own answer
every read alike. The discovery document, liveness, the head and the consistency
proofs are the same; a receipt is the same but for the subject, which it carries to
whoever asks for it by its number.
-/

import UnidppLog.Sample.Service
import UnidppLog.Subjects
import UnidppLog.Transition.Client

namespace UnidppLog

open Json (Value)
open Unidpp
open Text (trim encode)

section

variable [Unidpp]

/-- Services with the same configuration and record of the external anchor, and with
the same entries but for their subjects. -/
structure Service.Alike (service service' : Service) : Prop where
  appendToken : service.appendToken = service'.appendToken
  operator : service.operator = service'.operator
  store : service.store.withoutSubjects = service'.store.withoutSubjects
  externalTsaUrl : service.externalTsaUrl = service'.externalTsaUrl
  buildId : service.buildId = service'.buildId
  tsa : service.tsa = service'.tsa

namespace Service

variable {service service' : Service}

theorem Alike.refl (service : Service) : service.Alike service :=
  ⟨rfl, rfl, rfl, rfl, rfl, rfl⟩

theorem Alike.withoutSubjects (halike : service.Alike service') :
    service.withoutSubjects = service'.withoutSubjects := by
  obtain ⟨⟨token, operator, store⟩, url, build, tsa⟩ := service
  obtain ⟨htoken, hoperator, hstore, hurl, hbuild, htsa⟩ := halike
  subst htoken hoperator hurl hbuild htsa
  rw [Service.withoutSubjects, Service.withoutSubjects, hstore]

theorem panicsLocked_withoutSubjects (service : Service) (request : Get) :
    service.withoutSubjects.panicsLocked request = service.panicsLocked request := by
  cases request with
  | discovery => rfl
  | healthz => rfl
  | consistency params =>
      simp only [panicsLocked, withoutSubjects, LogStore.size_withoutSubjects,
        LogStore.root_withoutSubjects, LogStore.rootAtSize_withoutSubjects,
        LogStore.consistencyPath_withoutSubjects]
  | receipt text =>
      simp only [panicsLocked, withoutSubjects, Receipt.of_withoutSubjects, Option.isNone_map]

end Service

variable [SerdeJson]

/-- Whether a body names a subject that is sequenced. -/
def subjectFits (v : Value) : Bool :=
  match reqStr v "subject" with
  | .ok subject => (encode subject.toList).length ≤ 512
  | .error _ => false

/-- The same body, or bodies that differ in the subject only, which is accepted in both
or refused in both. -/
def BodiesAlike (body body' : String) : Prop :=
  body = body' ∨ ∃ v v', SerdeJson.fromStr body = .ok v ∧ SerdeJson.fromStr body' = .ok v' ∧
    subjectFits v = subjectFits v' ∧ ∀ key, key ≠ "subject" → v.get key = v'.get key

/-- The same action, but for the subject of a commit. -/
inductive Action.Alike : Action → Action → Prop
  | commit (authorization : Option String) {body body' : String} (now : Timestamp)
      (outcome : WriteOutcome) (h : BodiesAlike body body') :
      Alike (.commit authorization body now outcome) (.commit authorization body' now outcome)
  | same (action : Action) : Alike action action

/-- A read that anyone may make. -/
inductive Read
  | treeHead
  | get (request : Get)

def Read.action : Read → Action
  | .treeHead => .treeHead
  | .get request => .get request

/-- The same answer to a read, or the same receipt but for its subject. -/
inductive AnswersAlike : Read → Option Response → Option Response → Prop
  | same (read : Read) (answer : Option Response) : AnswersAlike read answer answer
  | receipt (seq : String) {receipt receipt' : Receipt} (info : Value)
      (h : receipt.withoutSubject = receipt'.withoutSubject) :
      AnswersAlike (.get (.receipt seq)) (jsonResponse 200 (receipt.toJson info))
        (jsonResponse 200 (receipt'.toJson info))

/-- The phases of two commits that have come as far. -/
inductive CommitPhase.Alike : CommitPhase → CommitPhase → Prop
  | appended : Alike .appended .appended
  | submitting (head : SignedTreeHead) : Alike (.submitting head) (.submitting head)
  | answered (response response' : Option Response) :
      Alike (.answered response) (.answered response')

/-- Handlers that have come as far, and have answered alike if they are reads. -/
inductive Handler.Alike : Handler → Handler → Prop
  | commit (outcome outcome' : Except StoreError Value) {phase phase' : CommitPhase}
      (h : phase.Alike phase') : Alike (.commit outcome phase) (.commit outcome' phase')
  | viewing (head : Option SignedTreeHead) : Alike (.viewing head) (.viewing head)
  | viewed (head : Option SignedTreeHead) (response : Option Response) :
      Alike (.viewed head response) (.viewed head response)
  | served (request : Get) {response response' : Option Response}
      (h : AnswersAlike (.get request) response response') :
      Alike (.served request response) (.served request response')
  | ended (response response' : Option Response) : Alike (.ended response) (.ended response')

/-- States that differ in subjects only. -/
structure System.Alike (s t : System) : Prop where
  service : s.service.Alike t.service
  poisoned : s.poisoned = t.poisoned
  handlers : List.Forall₂ Handler.Alike s.handlers t.handlers

/-- What a body asks for, but for the subject. -/
theorem parseCommit_withoutSubject {body : String} {v : Value}
    (hread : SerdeJson.fromStr body = .ok v) (now : Timestamp) :
    (parseCommit body now).toOption.map AppendRequest.withoutSubject =
      if subjectFits v then
        (reqCommitment v).toOption.bind fun commitment =>
          (optU64 v "salt_ref").toOption.map fun saltRef =>
            { subject := "", commitment, saltRef, loggedAt := now }
      else none := by
  rw [parseCommit, parseBody, hread]
  cases hsubject : reqStr v "subject" with
  | error e =>
      have hfits : subjectFits v = false := by rw [subjectFits, hsubject]
      rw [if_neg (by simp [hfits])]
      simp only [ok_bind, hsubject]
      rfl
  | ok subject =>
      have hfits : subjectFits v = decide ((encode subject.toList).length ≤ 512) := by
        rw [subjectFits, hsubject]
      by_cases hlength : 512 < (encode subject.toList).length
      · rw [if_neg (by simpa [hfits] using hlength)]
        simp only [ok_bind, hsubject, if_pos hlength]
        rfl
      · rw [if_pos (by simpa [hfits] using hlength)]
        simp only [ok_bind, hsubject, if_neg hlength]
        cases reqCommitment v with
        | error e => rfl
        | ok commitment => cases optU64 v "salt_ref" <;> rfl

/-- Bodies that are alike ask for appends that are. -/
theorem BodiesAlike.parseCommit {body body' : String} (h : BodiesAlike body body')
    (now : Timestamp) :
    (parseCommit body now).toOption.map AppendRequest.withoutSubject =
      (UnidppLog.parseCommit body' now).toOption.map AppendRequest.withoutSubject := by
  rcases h with rfl | ⟨v, v', hread, hread', hsubject, hrest⟩
  · rfl
  · rw [parseCommit_withoutSubject hread, parseCommit_withoutSubject hread', hsubject,
      reqCommitment, reqCommitment, reqStr, reqStr, optU64, optU64, hrest "commitment" (by decide),
      hrest "salt_ref" (by decide)]

namespace Service

variable {service service' : Service}

theorem treeConsistency_withoutSubjects (service : Service) (params : String → Option String) :
    service.withoutSubjects.toAppState.treeConsistency params =
      service.toAppState.treeConsistency params := by
  simp only [AppState.treeConsistency, withoutSubjects, LogStore.size_withoutSubjects,
    LogStore.root_withoutSubjects, LogStore.rootAtSize_withoutSubjects,
    LogStore.consistencyPath_withoutSubjects]

/-- Every read is answered alike. -/
theorem Alike.get (halike : service.Alike service') (request : Get) :
    AnswersAlike (.get request) (service.get request) (service'.get request) := by
  cases request with
  | discovery =>
      rw [Service.get, Service.get, halike.operator, halike.buildId]
      exact .same _ _
  | healthz => exact .same _ _
  | consistency params =>
      rw [Service.get, Service.get, ← treeConsistency_withoutSubjects,
        ← treeConsistency_withoutSubjects service', halike.withoutSubjects]
      exact .same _ _
  | receipt text =>
      rw [Service.get, Service.get, AppState.receipt, AppState.receipt, halike.operator]
      cases parseU64 (trim text.toList) with
      | none => exact .same _ _
      | some seq =>
          have hreceipt := Receipt.of_alike halike.store seq service'.operator.logId
            service'.operator.key
          simp only
          generalize Receipt.of service.store _ _ _ = found at *
          generalize Receipt.of service'.store _ _ _ = found' at *
          rcases found with _ | _ | receipt <;> rcases found' with _ | _ | receipt' <;>
            simp only [Option.map_none, Option.map_some, Option.some.injEq,
              reduceCtorEq] at hreceipt
          · exact .same _ _
          · exact .same _ _
          · exact .receipt _ _ hreceipt

/-- A receipt discloses the subject of its record. -/
theorem subject_of_receipt (hjson : SerdeJson.Conforms) (hvalid : service.store.Valid)
    {seq : UInt64} {receipt : Receipt}
    (hreceipt : Receipt.of service.store seq service.operator.logId service.operator.key =
      some (some receipt)) (text : String) (htext : parseU64 (trim text.toList) = some seq) :
    ∃ response v record, service.get (.receipt text) = some response ∧
      SerdeJson.fromStr response.body = .ok v ∧ service.store.record seq = some record ∧
        v.get "subject" = some (.string record.subject) := by
  obtain ⟨record, slot, hrecord, -, hfields⟩ := hvalid.exists_of_receipt hreceipt
  obtain ⟨hplain, hdepth⟩ := service.operator.plain_receipt receipt
  obtain ⟨response, hresponse⟩ := exists_jsonResponse hjson 200 hplain
  refine ⟨response, _, record, ?_, fromStr_body hjson hplain (by omega) hresponse, hrecord, ?_⟩
  · rw [Service.get, AppState.receipt, htext]
    simp only [hreceipt, Option.bind_eq_bind, Option.bind_some, hresponse]
  · rw [hfields]
    simp [Receipt.toJson, Value.get_ofFields, Json.lookup_cons]

end Service

/-- A handler of the one state is met by one of the other. -/
theorem exists_alike_getElem? {handlers handlers' : List Handler}
    (h : List.Forall₂ Handler.Alike handlers handlers') {i : ℕ} {handler : Handler}
    (hi : handlers[i]? = some handler) :
    ∃ handler', handlers'[i]? = some handler' ∧ handler.Alike handler' := by
  obtain ⟨hlt, rfl⟩ := List.getElem?_eq_some_iff.mp hi
  have hlt' : i < handlers'.length := h.length_eq ▸ hlt
  exact ⟨handlers'[i], List.getElem?_eq_getElem hlt', h.get hlt hlt'⟩

theorem forall₂_set {handlers handlers' : List Handler}
    (h : List.Forall₂ Handler.Alike handlers handlers') {handler handler' : Handler}
    (hnew : handler.Alike handler') (i : ℕ) :
    List.Forall₂ Handler.Alike (handlers.set i handler) (handlers'.set i handler') := by
  induction h generalizing i with
  | nil => exact .nil
  | cons hhead htail ih =>
      cases i with
      | zero => exact .cons hnew htail
      | succ i => exact .cons hhead (ih i)

namespace System

variable {s t : System}

theorem Alike.push (h : s.Alike t) {handler handler' : Handler} (hnew : handler.Alike handler') :
    (s.push handler).Alike (t.push handler') :=
  ⟨h.service, h.poisoned, List.rel_append h.handlers (.cons hnew .nil)⟩

theorem Alike.set (h : s.Alike t) {handler handler' : Handler} (hnew : handler.Alike handler')
    (i : ℕ) : (s.set i handler).Alike (t.set i handler') :=
  ⟨h.service, h.poisoned, forall₂_set h.handlers hnew i⟩

theorem Alike.poison (h : s.Alike t) : s.poison.Alike t.poison :=
  ⟨h.service, rfl, h.handlers⟩

theorem Alike.withStore (h : s.Alike t) {store store' : LogStore}
    (hstore : store.withoutSubjects = store'.withoutSubjects) :
    (s.withStore store).Alike (t.withStore store') :=
  ⟨{ h.service with store := hstore }, h.poisoned, h.handlers⟩

theorem Alike.afterAppend (h : s.Alike t) (outcome outcome' : Except StoreError Value) :
    (s.service.afterAppend outcome).Alike (t.service.afterAppend outcome') := by
  rw [Service.afterAppend, Service.afterAppend, h.service.externalTsaUrl]
  cases t.service.externalTsaUrl with
  | none => exact .commit _ _ (.answered _ _)
  | some url => exact .commit _ _ .appended

/-- Commits that are alike may append alike. -/
theorem Alike.commitRequest (h : s.Alike t) {body body' : String} (hbodies : BodiesAlike body body')
    (authorization : Option String) (now : Timestamp) :
    (s.service.commitRequest authorization body now).toOption.map
        AppendRequest.withoutSubject =
      (t.service.commitRequest authorization body' now).toOption.map
        AppendRequest.withoutSubject := by
  have hallows : s.service.allowsAppend authorization = t.service.allowsAppend authorization := by
    rw [AppState.allowsAppend, AppState.allowsAppend, h.service.appendToken]
  rw [AppState.commitRequest, AppState.commitRequest, hallows]
  split
  · rfl
  · have hparse := hbodies.parseCommit now
    generalize parseCommit body now = parsed at *
    generalize parseCommit body' now = parsed' at *
    rcases parsed with e | request <;> rcases parsed' with e' | request' <;> exact hparse

theorem Alike.commit (hjson : SerdeJson.Conforms) (h : s.Alike t) {body body' : String}
    (hbodies : BodiesAlike body body') (authorization : Option String) (now : Timestamp)
    (outcome : WriteOutcome) :
    (s.commit authorization body now outcome).Alike (t.commit authorization body' now outcome) := by
  have hallowed := h.commitRequest hbodies authorization now
  rw [System.commit, System.commit]
  generalize s.service.commitRequest authorization body now = admitted at *
  generalize t.service.commitRequest authorization body' now = admitted' at *
  rcases admitted with refusal | request <;> rcases admitted' with refusal' | request' <;>
    simp only [Except.toOption, Option.map_none, Option.map_some, Option.some.injEq,
      reduceCtorEq] at hallowed
  · exact h.push (.ended _ _)
  · simp only [h.poisoned]
    split
    · exact h.push (.ended _ _)
    · have happend := LogStore.append_alike hjson h.service.store hallowed outcome
      generalize s.service.store.append request outcome = appended at *
      generalize t.service.store.append request' outcome = appended' at *
      rcases appended with _ | ⟨e | record, store⟩ <;>
        rcases appended' with _ | ⟨e' | record', store'⟩ <;>
        simp only [Option.map_none, Option.map_some, Prod.map_apply, Except.map, Option.some.injEq,
          Prod.mk.injEq, Except.error.injEq, Except.ok.injEq, reduceCtorEq, false_and] at happend
      · exact h.poison.push (.ended _ _)
      · exact (h.withStore happend.2).push (h.afterAppend _ _)
      · obtain ⟨hrecord, hstore⟩ := happend
        have hseq := congrArg (fun r : CommitRecord => r.seq) hrecord
        have hoperator : (s.withStore store).service.operator =
            (t.withStore store').service.operator := h.service.operator
        have hsequenced : Alike { s.withStore store with sequenced := s.sequenced ++ [record] }
            { t.withStore store' with sequenced := t.sequenced ++ [record'] } :=
          ⟨(h.withStore hstore).service, h.poisoned, h.handlers⟩
        have hreceipt := Receipt.of_alike hstore record'.seq
          (t.withStore store').service.operator.logId (t.withStore store').service.operator.key
        simp only [CommitRecord.withoutSubject] at hseq
        simp only [hoperator, hseq]
        generalize Receipt.of store _ _ _ = found at *
        generalize Receipt.of store' _ _ _ = found' at *
        rcases found with _ | _ | receipt <;> rcases found' with _ | _ | receipt' <;>
          simp only [Option.map_none, Option.map_some, Option.some.injEq, reduceCtorEq] at hreceipt
        · exact hsequenced.poison.push (.ended _ _)
        · exact hsequenced.poison.push (.ended _ _)
        · exact hsequenced.push (h.afterAppend _ _)

theorem Alike.readHead (h : s.Alike t) (i : ℕ) (outcome outcome' : Except StoreError Value) :
    (s.readHead i outcome).Alike (t.readHead i outcome') := by
  rw [System.readHead, System.readHead, h.poisoned, h.service.operator,
    currentHead_alike h.service.store]
  split
  · exact h.set (.commit _ _ (.answered _ _)) i
  · split
    · exact h.poison.set (.commit _ _ (.answered _ _)) i
    · exact h.set (.commit _ _ (.answered _ _)) i
    · next head _ =>
      have hset := h.set (.commit outcome outcome' (.submitting head)) i
      exact ⟨hset.service, hset.poisoned, hset.handlers⟩

theorem Alike.treeHead (h : s.Alike t) : s.treeHead.Alike t.treeHead := by
  rw [System.treeHead, System.treeHead, h.poisoned, h.service.operator,
    currentHead_alike h.service.store]
  split
  · exact h.push (.ended _ _)
  · split
    · exact h.poison.push (.ended _ _)
    · exact h.push (.viewing _)

theorem Alike.get (h : s.Alike t) (request : Get) : (s.get request).Alike (t.get request) := by
  rw [System.get, System.get, h.poisoned, ← s.service.panicsLocked_withoutSubjects,
    h.service.withoutSubjects, t.service.panicsLocked_withoutSubjects]
  split
  · exact h.push (.served request (.same _ none))
  · simp only
    split
    · exact h.poison.push (.served request (h.service.get request))
    · exact h.push (.served request (h.service.get request))

/-- A commit of the one state is met by one of the other that has come as far. -/
theorem Alike.exists_commit (h : s.Alike t) {i : ℕ} {outcome : Except StoreError Value}
    {phase : CommitPhase} (hi : s.handlers[i]? = some (.commit outcome phase)) :
    ∃ outcome' phase', t.handlers[i]? = some (.commit outcome' phase') ∧ phase.Alike phase' := by
  obtain ⟨handler, hi', halike⟩ := exists_alike_getElem? h.handlers hi
  cases halike with
  | commit _ outcome' hphase => exact ⟨outcome', _, hi', hphase⟩

variable [ExternalAnchoring]

theorem Alike.record (h : s.Alike t) (i : ℕ) (outcome outcome' : Except StoreError Value)
    (head : SignedTreeHead) (tsaUrl : String) (now : Timestamp)
    (reply : Except String (List UInt8)) :
    (s.record i outcome head tsaUrl now reply).Alike
      (t.record i outcome' head tsaUrl now reply) := by
  have hset := fun response response' =>
    h.set (.commit outcome outcome' (.answered response response')) i
  simp only [System.record]
  split
  · exact ⟨(hset none none).service, h.poisoned, (hset none none).handlers⟩
  · have hanswered := hset (respond outcome) (respond outcome')
    exact ⟨{ h.service with tsa := rfl }, h.poisoned, hanswered.handlers⟩

/-- Actions that are alike keep states alike. -/
theorem Alike.step (hjson : SerdeJson.Conforms) (h : s.Alike t) {action action' : Action}
    (hactions : action.Alike action') {next : System} (hstep : s.step action = some next) :
    ∃ next', t.step action' = some next' ∧ next.Alike next' := by
  cases hactions with
  | commit authorization now outcome hbodies =>
      obtain rfl := Option.some.inj hstep
      exact ⟨_, rfl, h.commit hjson hbodies authorization now outcome⟩
  | same =>
      cases action with
      | commit authorization body now outcome =>
          obtain rfl := Option.some.inj hstep
          exact ⟨_, rfl, h.commit hjson (.inl rfl) authorization now outcome⟩
      | readHead i =>
          simp only [System.step] at hstep
          split at hstep
          · next outcome hi =>
            obtain rfl := Option.some.inj hstep
            obtain ⟨outcome', phase', hi', hphase⟩ := h.exists_commit hi
            cases hphase
            refine ⟨_, ?_, h.readHead i outcome outcome'⟩
            rw [System.step, hi']
          · simp at hstep
      | record i now reply =>
          simp only [System.step] at hstep
          split at hstep
          · next outcome head tsaUrl hi hurl =>
            obtain rfl := Option.some.inj hstep
            obtain ⟨outcome', phase', hi', hphase⟩ := h.exists_commit hi
            cases hphase
            refine ⟨_, ?_, h.record i outcome outcome' head tsaUrl now reply⟩
            rw [System.step, hi', ← h.service.externalTsaUrl, hurl]
          · simp at hstep
      | leave i =>
          simp only [System.step] at hstep
          split at hstep
          · next outcome head hi =>
            obtain rfl := Option.some.inj hstep
            obtain ⟨outcome', phase', hi', hphase⟩ := h.exists_commit hi
            cases hphase
            refine ⟨_, ?_, h.set (.commit outcome outcome' (.answered none none)) i⟩
            rw [System.step, hi']
          · simp at hstep
      | treeHead =>
          obtain rfl := Option.some.inj hstep
          exact ⟨_, rfl, h.treeHead⟩
      | view i =>
          simp only [System.step] at hstep
          split at hstep
          · next head hi =>
            obtain rfl := Option.some.inj hstep
            obtain ⟨handler, hi', halike⟩ := exists_alike_getElem? h.handlers hi
            cases halike with
            | viewing =>
                refine ⟨_, ?_, h.set (.viewed head _) i⟩
                rw [System.step, hi', h.service.operator, h.service.tsa]
          · simp at hstep
      | get request =>
          obtain rfl := Option.some.inj hstep
          exact ⟨_, rfl, h.get request⟩

end System

/-! ## A client that reads -/

/-- A read with its answer, if the handler is one that was answered. -/
def Handler.exchange : Handler → Option (Read × Option Response)
  | .viewed _ response => some (.treeHead, response)
  | .served request response => some (.get request, response)
  | _ => none

/-- What has been read so far. -/
def System.exchanges (s : System) : List (Read × Option Response) :=
  s.handlers.filterMap Handler.exchange

/-- The same reads, with the same answers but for the subjects of receipts. -/
def ExchangesAlike (seen seen' : List (Read × Option Response)) : Prop :=
  List.Forall₂ (fun e e' => e.1 = e'.1 ∧ AnswersAlike e.1 e.2 e'.2) seen seen'

theorem Handler.Alike.exchange {handler handler' : Handler} (h : handler.Alike handler') :
    Option.Rel (fun e e' => e.1 = e'.1 ∧ AnswersAlike e.1 e.2 e'.2) handler.exchange
      handler'.exchange := by
  cases h with
  | commit => exact .none
  | viewing => exact .none
  | viewed => exact .some ⟨rfl, .same _ _⟩
  | served request hanswers => exact .some ⟨rfl, hanswers⟩
  | ended => exact .none

theorem System.Alike.exchanges {s t : System} (h : s.Alike t) :
    ExchangesAlike s.exchanges t.exchanges :=
  List.rel_filterMap (R := Handler.Alike) (fun _ _ h => h.exchange) h.handlers

variable [ExternalAnchoring]

/-- A run of the service with a client that reads by what has been read so far. -/
def System.play (client : List (Read × Option Response) → Read) (s : System)
    (moves : List (Transition.Move Action)) : Option System :=
  Transition.run (Transition.playStep step exchanges fun seen => (client seen).action) s moves

/-- Whatever is in flight and however it interleaves, services with the same log but
for its subjects, asked for the same appends but for their subjects, give a client
that does not look at the subject of a receipt the same answers but for that. -/
theorem System.exchanges_alike (hjson : SerdeJson.Conforms) {service service' : Service}
    (halike : service.Alike service') {client : List (Read × Option Response) → Read}
    (hblind : ∀ seen seen', ExchangesAlike seen seen' → client seen = client seen')
    {moves moves' : List (Transition.Move Action)}
    (hmoves : List.Forall₂ (Transition.Move.Alike Action.Alike) moves moves') {s : System}
    (hrun : (init service).play client moves = some s) :
    ∃ s', (init service').play client moves' = some s' ∧
      ExchangesAlike s.exchanges s'.exchanges := by
  have hinit : (init service).Alike (init service') := ⟨halike, rfl, .nil⟩
  obtain ⟨s', hrun', hs'⟩ := Transition.play_lockstep
    (fun _ _ _ _ _ h hactions hstep => h.step hjson hactions hstep)
    (fun s t h => by rw [hblind _ _ h.exchanges]; exact .same _) hinit hmoves hrun
  exact ⟨s', hrun', hs'.exchanges⟩

end

namespace Sample

/-- A commit under a subject, and a read of its receipt. -/
def commitAs (second : Fin 60) (subject : String) : List (Transition.Move Action) :=
  [.given (.commit none (body subject (digest [1])) second .written), .choice]

/-- A client that asks for the first receipt. -/
def askFirst (_ : List (Read × Option Response)) : Read :=
  .get (.receipt "0")

/-- Bodies under subjects without blanks at their ends are alike. -/
theorem body_alike {subject subject' : String}
    (hfits : subjectFits (commitJson subject (digest [1])) =
      subjectFits (commitJson subject' (digest [1]))) :
    BodiesAlike (body subject (digest [1])) (body subject' (digest [1])) := by
  refine .inr ⟨_, _, read_body _ _, read_body _ _, hfits, fun key hkey => ?_⟩
  simp [commitJson, Value.get_ofFields, Json.lookup_cons, hkey]

theorem exists_disclosed (subject : String)
    (htrim : Text.trim subject.toList = subject.toList) (hne : subject.toList ≠ [])
    (hlength : (Text.encode subject.toList).length ≤ 512) :
    ∃ (s : System) (response : Response) (v : Value),
      (System.init (service none)).play askFirst (commitAs 1 subject) = some s ∧
      s.exchanges = [(.get (.receipt "0"), some response)] ∧
      SerdeJson.fromStr response.body = .ok v ∧ v.get "subject" = some (.string subject) := by
  obtain ⟨one, v, hone, hup, hentries, -, -, hhandlers, -⟩ :=
    (up_init none).commit (by decide) subject htrim hne hlength (digest [1]) 1
  obtain ⟨first, hfirst, hsubject⟩ : ∃ record : CommitRecord,
      one.service.store.entries[(0 : UInt64).toNat]? = some record ∧ record.subject = subject := by
    rw [hentries]
    exact ⟨_, rfl, rfl⟩
  obtain ⟨receipt, hreceipt⟩ := hup.running.valid.exists_receipt hup.running.signs
    one.service.operator.logId hfirst
  obtain ⟨response, w, record, hget, hread, hfound, hdisclosed⟩ :=
    Service.subject_of_receipt serdeJson_conforms hup.running.valid hreceipt
      "0" (by rfl)
  obtain rfl := Option.some.inj (hfirst.symm.trans hfound)
  have hserved := System.get_eq hup.running.valid (.receipt "0")
  rw [hup.running.unpoisoned, hget] at hserved
  refine ⟨one.get (.receipt "0"), response, w, ?_, ?_, hread, hdisclosed.trans (by rw [hsubject])⟩
  · rw [System.play, commitAs, Transition.run_cons, Transition.playStep, hone]
    rfl
  · rw [hserved, System.exchanges, System.push, hhandlers]
    rfl

theorem commitAs_alike :
    List.Forall₂ (Transition.Move.Alike Action.Alike)
      (commitAs 1 "dpp:1") (commitAs 1 "dpp:2") := by
  refine .cons (.given (.commit none _ _ (body_alike ?_))) (.cons .choice .nil)
  have hone := reqStr_of_get (subject_commitJson "dpp:1" (digest [1])) (by decide) (by decide)
  have htwo := reqStr_of_get (subject_commitJson "dpp:2" (digest [1])) (by decide) (by decide)
  rw [subjectFits, subjectFits, hone, htwo]
  decide

/-- Who asks for the receipt of another's commit learns the subject of it: two runs of
the same commits that differ in the subjects answer the same read differently. -/
theorem subject_disclosed :
    List.Forall₂ (Transition.Move.Alike Action.Alike) (commitAs 1 "dpp:1") (commitAs 1 "dpp:2") ∧
    ∃ (s s' : System) (response response' : Response) (v v' : Value),
      (System.init (service none)).play askFirst (commitAs 1 "dpp:1") = some s ∧
      (System.init (service none)).play askFirst (commitAs 1 "dpp:2") = some s' ∧
      s.exchanges = [(.get (.receipt "0"), some response)] ∧
      s'.exchanges = [(.get (.receipt "0"), some response')] ∧ response ≠ response' ∧
      SerdeJson.fromStr response.body = .ok v ∧ v.get "subject" = some (.string "dpp:1") ∧
      SerdeJson.fromStr response'.body = .ok v' ∧ v'.get "subject" = some (.string "dpp:2") := by
  obtain ⟨s, response, v, hplay, hseen, hread, hsubject⟩ :=
    exists_disclosed "dpp:1" (by decide) (by decide) (by decide)
  obtain ⟨s', response', v', hplay', hseen', hread', hsubject'⟩ :=
    exists_disclosed "dpp:2" (by decide) (by decide) (by decide)
  refine ⟨commitAs_alike, s, s', response, response', v, v', hplay, hplay', hseen, hseen', ?_,
    hread, hsubject, hread', hsubject'⟩
  rintro rfl
  obtain rfl := Except.ok.inj (hread.symm.trans hread')
  simp [hsubject] at hsubject'

/-- The two answers are alike but for the subject. -/
theorem exchanges_alike_of_commit :
    ∃ s s', (System.init (service none)).play askFirst (commitAs 1 "dpp:1") = some s ∧
      (System.init (service none)).play askFirst (commitAs 1 "dpp:2") = some s' ∧
      s.exchanges.length = 1 ∧ ExchangesAlike s.exchanges s'.exchanges := by
  obtain ⟨s, response, -, hplay, hseen, -⟩ :=
    exists_disclosed "dpp:1" (by decide) (by decide) (by decide)
  obtain ⟨s', hplay', halike⟩ := System.exchanges_alike serdeJson_conforms
    (Service.Alike.refl (service none)) (fun _ _ _ => rfl) commitAs_alike hplay
  exact ⟨s, s', hplay, hplay', by rw [hseen]; rfl, halike⟩

end Sample

end UnidppLog
