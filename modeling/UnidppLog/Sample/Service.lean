/-
# A sample service

The service over the sample log, with an external anchor whose digest is that of
the head's bytes and an authority that answers with the digest in an octet string.
-/

import UnidppLog.Soundness
import UnidppLog.Sample.Requests

namespace UnidppLog.Sample

open Json (Value)

scoped instance anchoring : ExternalAnchoring where
  hashBytes h := h.val
  timestampSecs t := t.val
  timestampFromSecs n := ⟨(n % 60).toNat, by omega⟩
  anchorDigest := digest
  anchorPayload bytes := bytes

def config (externalTsaUrl : Option String) : Config where
  operator := operatorConfig
  appendToken := none
  externalTsaUrl := externalTsaUrl
  buildId := none

/-- The service on a journal that is not there yet. -/
def service (externalTsaUrl : Option String) : Service where
  toAppState := app empty
  externalTsaUrl := externalTsaUrl
  buildId := none
  tsa := none

theorem new_service (externalTsaUrl : Option String) :
    Service.new (config externalTsaUrl) (some none) = some (.ok (service externalTsaUrl)) :=
  rfl

def tsaUrl : String :=
  "http://tsa.example/tsr"

/-- A commit that is written. -/
def commitAt (second : Fin 60) : Action :=
  .commit none (body "dpp:1" (digest [1])) second .written

/-- The reply of an authority: a sequence with the status in front and the digest
in an octet string behind it. -/
def reply (digest : Hash) : List UInt8 :=
  [0x30, 41, 0x30, 3, 2, 1, 0, 0x30, 34, 0x04, 0x20] ++ digest.val

def sevens : Hash :=
  ⟨List.replicate 32 7, List.length_replicate⟩

def nines : Hash :=
  ⟨List.replicate 32 9, List.length_replicate⟩

/-- A response of a granted status and some more. -/
theorem framed_granted (more trailing : List UInt8) (hlength : more.length < 123) :
    Framed ([0x30, UInt8.ofNat (more.length + 5), 0x30, 3, 2, 1, 0] ++ (more ++ trailing))
      more trailing := by
  have hcontent : ([0x30, 3, 2, 1, 0] ++ more).length = more.length + 5 := by simp
  have htop := Asn1.IsElement.short 4 0x30
    (show ([0x30, 3, 2, 1, 0] ++ more).length < 128 by omega)
  have hstatus : Asn1.IsElement 4 0x30 [2, 1, 0] [0x30, 3, 2, 1, 0] :=
    Asn1.IsElement.short 4 0x30 (by decide)
  rw [hcontent] at htop
  exact ⟨_, _, _, htop, hstatus, by simp⟩

/-- The reply is accepted for the digest that it carries. -/
theorem verify_reply (digest : Hash) :
    verifyTimestampResponse (reply digest) digest = some (.ok ()) := by
  have hframed : Framed (reply digest) ([0x30, 34] ++ octetString digest.val) [] := by
    have hgranted := framed_granted ([0x30, 34] ++ octetString digest.val) []
      (by simp [octetString, digest.property])
    simpa [octetString, digest.property, reply] using hgranted
  rw [verifyTimestampResponse_eq_ok_iff _ digest.property]
  refine ⟨⟨_, _, hframed⟩, [0x30, 41, 0x30, 3, 2, 1, 0, 0x30, 34], [], ?_⟩
  simp [octetString, reply, ExternalAnchoring.hashBytes]

theorem signs (bytes : List UInt8) :
    ∃ slot, Unidpp.sign operator .treeHead bytes = .ok slot :=
  ⟨_, rfl⟩

/-- The sample service with so many entries and nothing to hinder it. -/
structure Up (externalTsaUrl : Option String) (n : ℕ) (s : System) : Prop where
  running : s.Running
  token : s.service.appendToken = none
  url : s.service.externalTsaUrl = externalTsaUrl
  length : s.service.store.entries.length = n
  journaled : ∃ bytes, s.service.store.journal = some bytes

theorem up_init (externalTsaUrl : Option String) :
    Up externalTsaUrl 0 (System.init (service externalTsaUrl)) where
  running := ⟨valid_empty, rfl, signs⟩
  token := rfl
  url := rfl
  length := rfl
  journaled := ⟨[], rfl⟩

variable {externalTsaUrl : Option String} {n : ℕ} {s : System}

/-- A commit under a subject without blanks at its ends is sequenced. -/
theorem Up.commitRequest (h : Up externalTsaUrl n s) (subject : String)
    (htrim : Text.trim subject.toList = subject.toList) (hne : subject.toList ≠ [])
    (hlength : (Text.encode subject.toList).length ≤ 512) (commitment : Hash)
    (second : Fin 60) : s.service.commitRequest none (body subject commitment) second =
      .ok { request second subject with commitment } := by
  rw [AppState.commitRequest, AppState.allowsAppend, h.token, parseCommit_body htrim hne hlength]
  rfl

theorem Up.commit (h : Up externalTsaUrl n s) (hn : n < 2 ^ 32) (subject : String)
    (htrim : Text.trim subject.toList = subject.toList) (hne : subject.toList ≠ [])
    (hlength : (Text.encode subject.toList).length ≤ 512) (commitment : Hash)
    (second : Fin 60) :
    ∃ (t : System) (v : Value),
      s.step (.commit none (body subject commitment) second .written) = some t ∧
      Up externalTsaUrl (n + 1) t ∧
      t.service.store.entries = s.service.store.entries ++
        [s.service.store.nextRecord { request second subject with commitment }] ∧
      t.service.operator = s.service.operator ∧ t.service.tsa = s.service.tsa ∧
      t.handlers = s.handlers ++ [s.service.afterAppend (.ok v)] ∧
      t.sequenced = s.sequenced ++
        [s.service.store.nextRecord { request second subject with commitment }] ∧
      t.submitted = s.submitted ∧ t.replies = s.replies := by
  obtain ⟨receipt, store, hvalid, hentries, hjournal, hcommit⟩ :=
    h.running.commit serdeJson_conforms
      (h.commitRequest subject htrim hne hlength commitment second) (by rw [h.length]; omega)
  obtain ⟨bytes, hbytes⟩ := h.journaled
  rw [hbytes, Option.map_some] at hjournal
  refine ⟨_, _, congrArg some hcommit, ⟨⟨hvalid, h.running.unpoisoned, h.running.signs⟩, h.token,
    h.url, ?_, _, hjournal⟩, hentries, rfl, rfl, rfl, rfl, rfl, rfl⟩
  have hlen := congrArg List.length hentries
  rw [List.length_append, h.length] at hlen
  exact hlen

/-- A commit comes back for the head of a nonempty log and submits it. -/
theorem Up.readHead (h : Up externalTsaUrl n s) (hpos : 0 < n) (i : ℕ)
    (outcome : Except StoreError Value)
    (hi : s.handlers[i]? = some (.commit outcome .appended)) :
    ∃ head : SignedTreeHead, head.treeSize.toNat = n ∧
      s.step (.readHead i) = some { s.set i (.commit outcome (.submitting head)) with
        submitted := s.submitted ++ [head] } ∧
      Up externalTsaUrl n { s.set i (.commit outcome (.submitting head)) with
        submitted := s.submitted ++ [head] } := by
  obtain ⟨head, hsize, -, hread⟩ := h.running.readHead (by rw [h.length]; exact hpos) i outcome
  refine ⟨head, hsize.trans h.length, ?_, ⟨h.running.valid, h.running.unpoisoned,
    h.running.signs⟩, h.token, h.url, h.length,
    h.journaled⟩
  rw [System.step, hi]
  exact congrArg some hread

/-- The head of a nonempty log is read. -/
theorem Up.treeHead (h : Up externalTsaUrl n s) (hpos : 0 < n) :
    ∃ head : SignedTreeHead, head.treeSize.toNat = n ∧
      s.step .treeHead = some (s.push (.viewing (some head))) := by
  obtain ⟨head, hsize, -, hread⟩ := h.running.treeHead (by rw [h.length]; exact hpos)
  exact ⟨head, hsize.trans h.length, congrArg some hread⟩

/-- The outcome of a submission is recorded for its head. -/
theorem Up.record (h : Up (some tsaUrl) n s) (i : ℕ) (outcome : Except StoreError Value)
    (head : SignedTreeHead) (hi : s.handlers[i]? = some (.commit outcome (.submitting head)))
    {second : Fin 60}
    {answer : Except String (List UInt8)} {record : TsaRecord}
    (hsubmit : submitAnchor head.anchoredExternally tsaUrl second answer = some record) :
    ∃ t : System, s.step (.record i second answer) = some t ∧ Up (some tsaUrl) n t ∧
      t.service.store = s.service.store ∧ t.service.operator = s.service.operator ∧
      t.service.tsa = some { record with treeSize := head.treeSize } ∧
      t.handlers = s.handlers.set i (.commit outcome (.answered (respond outcome))) ∧
      t.submitted = s.submitted ∧ t.sequenced = s.sequenced ∧
      t.replies = s.replies ++ (answer.toOption.map fun response => (head, response)).toList := by
  have hstep : s.step (.record i second answer) =
      some (s.record i outcome head tsaUrl second answer) := by
    rw [System.step, hi, h.url]
  refine ⟨_, hstep, ?_⟩
  simp only [System.record, hsubmit]
  refine ⟨⟨⟨h.running.valid, h.running.unpoisoned, h.running.signs⟩, h.token, h.url, h.length,
    h.journaled⟩, ?_⟩
  cases answer <;> simp [Except.toOption, System.set]

/-- A submission that fails degrades. -/
theorem exists_unreachable (anchor : ExternalAnchor) (second : Fin 60)
    (why : String) :
    ∃ record, submitAnchor anchor tsaUrl second (.error why) = some record ∧
      record.status = "unreachable" := by
  have hsecs : @ExternalAnchoring.timestampSecs _ anchoring second = second.val := rfl
  have hlt := second.isLt
  obtain ⟨record, hrecord⟩ := TsaRecord.exists_degraded anchor.digest tsaUrl second
    (by rw [hsecs, TsaRecord.retryAfterSecs]; omega)
    (by rw [hsecs, TsaRecord.retryAfterSecs]; omega)
  exact ⟨record, hrecord, (TsaRecord.of_degraded hrecord).2⟩

/-- A submission that is accepted is anchored. -/
theorem exists_anchored (anchor : ExternalAnchor) (second : Fin 60) :
    ∃ record, submitAnchor anchor tsaUrl second (.ok (reply anchor.digest)) = some record ∧
      record.status = "anchored" :=
  ⟨_, submitAnchor_of_accepted (verify_reply anchor.digest) tsaUrl second, rfl⟩

/-- A commit that waits for the authority. -/
theorem Up.commitAt (h : Up (some tsaUrl) n s) (hn : n < 2 ^ 32) (second : Fin 60) :
    ∃ (t : System) (v : Value) (record : CommitRecord), s.step (commitAt second) = some t ∧
      Up (some tsaUrl) (n + 1) t ∧ t.service.tsa = s.service.tsa ∧
      t.handlers = s.handlers ++ [.commit (.ok v) .appended] ∧ record.seq.toNat = n ∧
      t.sequenced = s.sequenced ++ [record] ∧ t.submitted = s.submitted ∧
      t.replies = s.replies := by
  obtain ⟨t, v, hstep, hup, -, -, htsa, hhandlers, hsequenced, hsubmitted, hreplies⟩ :=
    h.commit hn "dpp:1" (by decide) (by decide) (by decide) (digest [1]) second
  rw [Service.afterAppend_of_some h.url] at hhandlers
  refine ⟨t, v, _, hstep, hup, htsa, hhandlers, ?_, hsequenced, hsubmitted, hreplies⟩
  rw [LogStore.nextRecord, UInt64.toNat_ofNat', Nat.mod_eq_of_lt h.running.valid.length_lt,
    h.length]

/-- A commit that was not written and waits for the authority. -/
theorem Up.commit_failed (h : Up (some tsaUrl) n s) (second : Fin 60) :
    ∃ (t : System) (e : StoreError),
      s.step (.commit none (body "dpp:1" (digest [1])) second (.failed 0 "disk full")) = some t ∧
      Up (some tsaUrl) n t ∧ t.service.tsa = s.service.tsa ∧
      t.handlers = s.handlers ++ [.commit (.error e) .appended] := by
  obtain ⟨bytes, hbytes⟩ := h.journaled
  obtain ⟨e, hcommit⟩ := h.running.commit_failed serdeJson_conforms
    (h.commitRequest "dpp:1" (by decide) (by decide) (by decide) (digest [1]) second) hbytes
    "disk full"
  rw [Service.afterAppend_of_some h.url] at hcommit
  exact ⟨_, e, congrArg some hcommit, ⟨⟨h.running.valid, h.running.unpoisoned, h.running.signs⟩,
    h.token, h.url, h.length, h.journaled⟩, rfl, rfl⟩

/-- One commit, up to the exchange with the authority. -/
theorem exists_submitting :
    ∃ (s : System) (v : Value) (head : SignedTreeHead),
      (System.init (service (some tsaUrl))).run [Sample.commitAt 1, .readHead 0] = some s ∧
      Up (some tsaUrl) 1 s ∧ s.handlers = [.commit (.ok v) (.submitting head)] ∧
      head.treeSize.toNat = 1 ∧ s.submitted = [head] ∧ s.replies = [] ∧ s.service.tsa = none := by
  obtain ⟨one, v, -, hone, hup, htsa, hhandlers, -, -, hsubmitted, hreplies⟩ :=
    (up_init (some tsaUrl)).commitAt (by decide) 1
  have hfirst : one.handlers[0]? = some (.commit (.ok v) .appended) := by
    rw [hhandlers]
    rfl
  obtain ⟨head, hsize, hread, hup'⟩ := hup.readHead (by decide) 0 _ hfirst
  refine ⟨_, v, head, ?_, hup', ?_, hsize, ?_, hreplies, htsa⟩
  · rw [System.run, Transition.run_cons, hone, Option.bind_some, Transition.run_cons, hread]
    rfl
  · rw [System.set, hhandlers]
    rfl
  · rw [hsubmitted]
    rfl

/-- A handler shows the head it has read. -/
theorem exists_view {head : Option SignedTreeHead} (hi : s.handlers[i]? = some (.viewing head)) :
    ∃ (t : System) (response : Response), s.step (.view i) = some t ∧
      t.handlers[i]? = some (.viewed head (some response)) := by
  obtain ⟨hlt, -⟩ := List.getElem?_eq_some_iff.mp hi
  obtain ⟨response, hresponse⟩ : ∃ response,
      treeHeadResponse s.service.operator head s.service.tsa = some response := ⟨_, rfl⟩
  refine ⟨_, response, by rw [System.step, hi], ?_⟩
  rw [System.set, List.getElem?_set_self hlt, hresponse]

end UnidppLog.Sample
