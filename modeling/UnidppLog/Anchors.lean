/-
# External anchors as they are reported

What `GET /tree/head` says of the external anchor, under every interleaving. A
record that is shown as anchored is of the very head beside it, since heads of one
size are one head. A stale report is of an earlier anchored head if the slot holds
one, and says nothing otherwise; a missing record is no missing authority.
-/

import UnidppLog.Sample.Service

namespace UnidppLog

open Json (Value)
open Unidpp

section

variable [Unidpp]

section

variable {operator : Operator} {sth : SignedTreeHead} {tsa : Option TsaRecord}
  {record : TsaRecord}

theorem field_treeHeadJson_anchor (path : List String) :
    (treeHeadJson operator (some sth) tsa).field ("external_anchor" :: path) =
      (externalAnchorView tsa sth).field path := by
  rw [treeHeadJson, Value.field_ofFields]
  simp [Json.lookup_cons]

/-- The head in the body is the one that was read. -/
theorem field_treeHeadJson (operator : Operator) (sth : SignedTreeHead) (tsa : Option TsaRecord) :
    (treeHeadJson operator (some sth) tsa).field ["log_id"] = some (.string sth.logId) ∧
    (treeHeadJson operator (some sth) tsa).field ["tree_size"] =
      some (.number (.posInt sth.treeSize)) ∧
    (treeHeadJson operator (some sth) tsa).field ["timestamp"] =
      some (.string (timestampToString sth.timestamp)) ∧
    (treeHeadJson operator (some sth) tsa).field ["root"] = some (.string (hex sth.root)) := by
  simp [treeHeadJson, Value.field_ofFields, Json.lookup_cons]

/-- An empty log has no external anchor to report. -/
theorem field_treeHeadJson_none (path : List String) :
    (treeHeadJson operator none tsa).field ("external_anchor" :: path) = none := by
  simp [treeHeadJson, Value.field_ofFields, Json.lookup_cons]

theorem not_configured_iff :
    (externalAnchorView tsa sth).field ["status"] = some (.string "not-configured") ↔
      tsa = none := by
  cases tsa with
  | none => simp [externalAnchorView, Value.field_ofFields, Json.lookup_cons]
  | some record =>
      rw [externalAnchorView]
      split
      · simp [Value.field_ofFields, Json.lookup_cons]
      · simp [Value.field_ofFields, Json.lookup_cons]

/-- A stale report is of a record for another size. -/
theorem exists_of_stale {k : UInt64}
    (hstatus : (externalAnchorView tsa sth).field ["status"] = some (.string "stale"))
    (hsize : (externalAnchorView tsa sth).field ["anchored_tree_size"] =
      some (.number (.posInt k))) :
    ∃ record, tsa = some record ∧ record.treeSize = k ∧ k ≠ sth.treeSize := by
  cases tsa with
  | none => simp [externalAnchorView, Value.field_ofFields, Json.lookup_cons] at hstatus
  | some record =>
      rw [externalAnchorView] at hstatus hsize
      split at hsize
      · next hne =>
        obtain rfl : record.treeSize = k := by
          simpa [Value.field_ofFields, Json.lookup_cons] using hsize
        exact ⟨record, rfl, rfl, hne⟩
      · next heq =>
        rw [if_neg heq] at hstatus
        simp [Value.field_ofFields, Json.lookup_cons] at hstatus

/-- A record for another size is reported as stale. -/
theorem field_stale (hne : record.treeSize ≠ sth.treeSize) :
    (externalAnchorView (some record) sth).field ["status"] = some (.string "stale") ∧
    (externalAnchorView (some record) sth).field ["anchored_tree_size"] =
      some (.number (.posInt record.treeSize)) := by
  simp [externalAnchorView, hne, Value.field_ofFields, Json.lookup_cons]

/-- The record for the head's own size is shown. -/
theorem field_submission (heq : record.treeSize = sth.treeSize) (path : List String) :
    (externalAnchorView (some record) sth).field ("submission" :: path) =
      record.toWire.field path := by
  simp [externalAnchorView, heq, Value.field_ofFields, Json.lookup_cons]

/-- A submission that is shown is the record for the head's own size. -/
theorem exists_of_submission {path : List String} {w : Value}
    (hshown : (externalAnchorView tsa sth).field ("submission" :: path) = some w) :
    ∃ record, tsa = some record ∧ record.treeSize = sth.treeSize ∧
      (externalAnchorView tsa sth).field ["digest"] = some (.string (hex record.digest)) := by
  cases tsa with
  | none => simp [externalAnchorView, Value.field_ofFields, Json.lookup_cons] at hshown
  | some record =>
      by_cases heq : record.treeSize = sth.treeSize
      · refine ⟨record, rfl, heq, ?_⟩
        simp [externalAnchorView, heq, Value.field_ofFields, Json.lookup_cons]
      · simp [externalAnchorView, heq, Value.field_ofFields, Json.lookup_cons] at hshown

theorem field_toWire :
    record.toWire.field ["status"] = some (.string record.status) ∧
    (∀ bytes, record.response = some bytes →
      record.toWire.field ["response"] = some (.string (base64 bytes))) := by
  refine ⟨?_, fun bytes hbytes => ?_⟩
  · simp [TsaRecord.toWire, Value.field_ofFields, Json.lookup_cons]
  · simp [TsaRecord.toWire, Value.field_ofFields, Json.lookup_cons, hbytes]

end

variable [SerdeJson] [ExternalAnchoring]

namespace System

variable {s s' mid : System} {config : Config} {journal : Option JournalFile} {service : Service}
  {actions : List Action}

/-! ## Anchored heads -/

/-- What a handler shows is the head it read beside the record of the moment. -/
theorem exists_of_view {i : ℕ} {head : Option SignedTreeHead} {response : Response}
    (hjson : SerdeJson.Conforms) (hvalid : s.service.store.Valid)
    (hview : s.step (.view i) = some s')
    (hi : s'.handlers[i]? = some (.viewed head (some response))) :
    s.handlers[i]? = some (.viewing head) ∧
      SerdeJson.fromStr response.body =
        .ok (treeHeadJson s.service.operator head s.service.tsa) := by
  cases steps_of_step hvalid hview with
  | shown hviewing =>
      obtain ⟨hlt, -⟩ := List.getElem?_eq_some_iff.mp hviewing
      rw [set, List.getElem?_set_self hlt, Option.some.injEq, Handler.viewed.injEq] at hi
      obtain ⟨rfl, hresponse⟩ := hi
      exact ⟨hviewing, fromStr_treeHeadResponse hjson hresponse⟩

/-- Behind every start and every run, a head that is shown as anchored is the head
of the record: its digest is that of the head in the body, and the response was
obtained for it and accepted. -/
theorem anchored_sound (hjson : SerdeJson.Conforms)
    (hnew : Service.new config journal = some (.ok service))
    (hrun : (init service).run actions = some s) {i : ℕ} {head : Option SignedTreeHead}
    {response : Response} (hview : s.step (.view i) = some s')
    (hi : s'.handlers[i]? = some (.viewed head (some response))) :
    ∃ v, SerdeJson.fromStr response.body = .ok v ∧
      (v.field ["external_anchor", "submission", "status"] = some (.string "anchored") →
        ∃ (sth : SignedTreeHead) (bytes : List UInt8),
          v.field ["log_id"] = some (.string sth.logId) ∧
          v.field ["tree_size"] = some (.number (.posInt sth.treeSize)) ∧
          v.field ["timestamp"] = some (.string (timestampToString sth.timestamp)) ∧
          v.field ["root"] = some (.string (hex sth.root)) ∧
          v.field ["external_anchor", "digest"] =
            some (.string (hex sth.anchoredExternally.digest)) ∧
          v.field ["external_anchor", "submission", "response"] =
            some (.string (base64 bytes)) ∧
          (sth, bytes) ∈ s.replies ∧
          verifyTimestampResponse bytes sth.anchoredExternally.digest = some (.ok ())) := by
  obtain ⟨hsound, -⟩ := (sound_init hnew).run hrun
  obtain ⟨hviewing, hread⟩ := exists_of_view hjson hsound.valid hview hi
  refine ⟨_, hread, fun hstatus => ?_⟩
  cases head with
  | none => simp [field_treeHeadJson_none] at hstatus
  | some sth =>
      rw [field_treeHeadJson_anchor] at hstatus
      obtain ⟨record, htsa, hsize, hdigest⟩ := exists_of_submission hstatus
      have hanchored : record.status = "anchored" := by
        rw [htsa, field_submission hsize, field_toWire.1] at hstatus
        simpa using hstatus
      obtain ⟨minted, hminted, hsize', hdigest', haccepted⟩ := hsound.records record htsa
      obtain rfl : minted = sth :=
        hminted.unique hsound.valid (hsound.minted _ (List.mem_of_getElem? hviewing) sth rfl)
          (hsize'.symm.trans hsize)
      obtain ⟨bytes, hbytes, hreply, hverify⟩ := haccepted hanchored
      obtain ⟨hlogId, hsizeField, htimestamp, hroot⟩ :=
        field_treeHeadJson s.service.operator minted s.service.tsa
      refine ⟨minted, bytes, hlogId, hsizeField, htimestamp, hroot, ?_, ?_, hreply, ?_⟩
      · rw [field_treeHeadJson_anchor, hdigest, hdigest']
      · rw [field_treeHeadJson_anchor, htsa, field_submission hsize, field_toWire.2 bytes hbytes]
      · rwa [← hdigest']

end System

end

/-- A run to where the first head is anchored, and what is shown then. -/
theorem Sample.exists_anchored_view :
    ∃ (s s' : System) (head sth : SignedTreeHead) (response : Response) (record : TsaRecord),
      (System.init (service (some tsaUrl))).run [commitAt 1, .readHead 0,
        .record 0 (2 : Fin 60) (.ok (reply head.anchoredExternally.digest)), .treeHead] = some s ∧
      s.step (.view 1) = some s' ∧ s'.handlers[1]? = some (.viewed (some sth) (some response)) ∧
      s.replies = [(head, reply head.anchoredExternally.digest)] ∧
      s.service.tsa = some record ∧ record.treeSize = sth.treeSize ∧
      record.status = "anchored" ∧
      record.response = some (reply head.anchoredExternally.digest) ∧
      SerdeJson.fromStr response.body =
        .ok (treeHeadJson s.service.operator (some sth) s.service.tsa) := by
  obtain ⟨one, w, head, hone, hup, hhandlers, hsize, -, hreplies, -⟩ := exists_submitting
  have hsubmit := submitAnchor_of_accepted (verify_reply head.anchoredExternally.digest) tsaUrl
    (2 : Fin 60)
  obtain ⟨two, htwo, hup', -, -, htsa, hhandlers', -, -, hreplies'⟩ :=
    hup.record 0 (.ok _) head (by rw [hhandlers]; rfl) hsubmit
  obtain ⟨sth, hsize', hread⟩ := hup'.treeHead (by decide)
  have hrun := Transition.run_snoc (Transition.run_snoc hone htwo) hread
  simp only [List.cons_append, List.nil_append] at hrun
  have hviewing : (two.push (.viewing (some sth))).handlers[1]? =
      some (.viewing (some sth)) := by
    rw [System.push, hhandlers', hhandlers]
    rfl
  obtain ⟨three, response, hview, hshown⟩ := exists_view hviewing
  obtain ⟨-, hbody⟩ := System.exists_of_view serdeJson_conforms
    (show (two.push (.viewing (some sth))).service.store.Valid from hup'.running.valid) hview hshown
  have heq : head.treeSize = sth.treeSize := by rw [← UInt64.toNat_inj, hsize, hsize']
  refine ⟨_, three, head, sth, response, _, hrun, hview, hshown, ?_, htsa, heq, rfl, rfl, hbody⟩
  rw [System.push, hreplies', hreplies]
  rfl

/-- The first head, anchored and shown. -/
theorem Sample.anchored_sound_of_one :
    ∃ (s s' : System) (head sth : SignedTreeHead) (response : Response) (v : Value)
      (bytes : List UInt8),
      (System.init (service (some tsaUrl))).run [commitAt 1, .readHead 0,
        .record 0 (2 : Fin 60) (.ok (reply head.anchoredExternally.digest)), .treeHead] = some s ∧
      s.step (.view 1) = some s' ∧ s'.handlers[1]? = some (.viewed (some sth) (some response)) ∧
      SerdeJson.fromStr response.body = .ok v ∧
      v.field ["external_anchor", "submission", "status"] = some (.string "anchored") ∧
      v.field ["external_anchor", "digest"] =
        some (.string (hex head.anchoredExternally.digest)) ∧
      (head, bytes) ∈ s.replies ∧
      verifyTimestampResponse bytes head.anchoredExternally.digest = some (.ok ()) := by
  obtain ⟨s, s', head, sth, response, record, hrun, hview, hshown, hreplies, htsa, hsize, hstatus,
    -, hbody⟩ := exists_anchored_view
  obtain ⟨v, hv, hsound⟩ := System.anchored_sound serdeJson_conforms (new_service (some tsaUrl))
    hrun hview hshown
  obtain rfl := Except.ok.inj (hv.symm.trans hbody)
  have hanchored : (treeHeadJson s.service.operator (some sth) s.service.tsa).field
      ["external_anchor", "submission", "status"] = some (.string "anchored") := by
    rw [field_treeHeadJson_anchor, htsa, field_submission hsize, field_toWire.1, hstatus]
  obtain ⟨anchored, bytes, -, -, -, -, hdigest, -, hreply, hverify⟩ := hsound hanchored
  rw [hreplies, List.mem_singleton] at hreply
  obtain ⟨rfl, rfl⟩ := Prod.mk.inj hreply
  exact ⟨s, s', anchored, sth, response, _, _, hrun, hview, hshown, hv, hanchored, hdigest,
    by rw [hreplies]; exact List.mem_singleton_self _, hverify⟩

section

variable [Unidpp] [SerdeJson] [ExternalAnchoring]

namespace System

variable {s s' : System} {config : Config} {journal : Option JournalFile} {service : Service}
  {actions : List Action} {i : ℕ}

/-! ## Stale records -/

/-- No submission is recorded for a later head than one that is about to be shown, and
a record beside another head than its own is anchored when it is shown. -/
def Timely (s : System) : Action → Prop
  | .record i _ _ => ∀ outcome head sth,
      s.handlers[i]? = some (.commit outcome (.submitting head)) →
        .viewing (some sth) ∈ s.handlers → head.treeSize ≤ sth.treeSize
  | .view i => ∀ sth record, s.handlers[i]? = some (.viewing (some sth)) →
      s.service.tsa = some record → record.treeSize ≠ sth.treeSize → record.status = "anchored"
  | _ => True

/-- The record is of no later head than one that is about to be shown. -/
def NotOvertaken (s : System) : Prop :=
  ∀ record sth, s.service.tsa = some record → .viewing (some sth) ∈ s.handlers →
    record.treeSize ≤ sth.treeSize

theorem NotOvertaken.step (h : s.NotOvertaken) (hsound : s.Sound) {action : Action}
    (htimely : s.Timely action) (hstep : s.step action = some s') : s'.NotOvertaken := by
  intro record sth hrecord hviewing
  obtain ⟨j, hj⟩ := List.mem_iff_getElem?.mp hviewing
  have hpending := pending_step hsound.valid hstep hj rfl
  rcases tsa_step hsound.valid hstep with hsame |
    ⟨i, now, reply, outcome, head, tsaUrl, stored, rfl, hi, -, hstored⟩
  · rw [hsame] at hrecord
    rcases hpending with hold | ⟨-, hread⟩
    · exact h record sth hrecord (List.mem_of_getElem? hold)
    · -- The head is read now, and covers everything that was recorded.
      obtain ⟨minted, hminted, hsize, -⟩ := hsound.records record hrecord
      obtain ⟨-, hlength⟩ := AppState.minted_of_currentHead hsound.valid hread
      rw [UInt64.le_iff_toNat_le, hsize, hlength]
      exact hminted.le hsound.valid
  · rcases hpending with hold | ⟨hread, -⟩
    · obtain rfl := Option.some.inj (hstored.symm.trans hrecord)
      exact htimely outcome head sth hi (List.mem_of_getElem? hold)
    · simp at hread

/-- Behind every start and every run of timely steps, a report that a record is stale
is truthful: the record is of an earlier head, for which the response of an authority
has arrived and was accepted. -/
theorem stale_truthful (hjson : SerdeJson.Conforms)
    (hnew : Service.new config journal = some (.ok service))
    (halong : Transition.Along step Timely (init service) actions)
    (hrun : (init service).run actions = some s) (htimely : s.Timely (.view i))
    {head : Option SignedTreeHead} {response : Response} (hview : s.step (.view i) = some s')
    (hi : s'.handlers[i]? = some (.viewed head (some response))) :
    ∃ v, SerdeJson.fromStr response.body = .ok v ∧
      ∀ k, v.field ["external_anchor", "status"] = some (.string "stale") →
        v.field ["external_anchor", "anchored_tree_size"] = some (.number (.posInt k)) →
          ∃ (n : UInt64) (earlier : SignedTreeHead) (bytes : List UInt8),
            v.field ["tree_size"] = some (.number (.posInt n)) ∧ k < n ∧
            s.service.Minted earlier ∧ earlier.treeSize = k ∧ (earlier, bytes) ∈ s.replies ∧
            verifyTimestampResponse bytes earlier.anchoredExternally.digest =
              some (.ok ()) := by
  obtain ⟨hsound, hbehind⟩ : s.Sound ∧ s.NotOvertaken := by
    refine Transition.run_keeps (I := fun t => t.Sound ∧ t.NotOvertaken) ?_
      ⟨sound_init hnew, fun _ _ _ hviewing => by simp [init] at hviewing⟩ halong hrun
    rintro t action next ⟨ht, hbehind⟩ hallowed hstep
    exact ⟨(ht.step hstep).1, hbehind.step ht hallowed hstep⟩
  obtain ⟨hviewing, hread⟩ := exists_of_view hjson hsound.valid hview hi
  refine ⟨_, hread, fun k hstatus hsize => ?_⟩
  cases head with
  | none => simp [field_treeHeadJson_none] at hstatus
  | some sth =>
      rw [field_treeHeadJson_anchor] at hstatus hsize
      obtain ⟨record, htsa, rfl, hne⟩ := exists_of_stale hstatus hsize
      have hle := hbehind record sth htsa (List.mem_of_getElem? hviewing)
      have hlt : record.treeSize < sth.treeSize := UInt64.lt_of_le_of_ne hle hne
      obtain ⟨earlier, hminted, hsize', hdigest, haccepted⟩ := hsound.records record htsa
      obtain ⟨bytes, -, hreply, hverify⟩ := haccepted (htimely sth record hviewing htsa hne)
      exact ⟨sth.treeSize, earlier, bytes, (field_treeHeadJson _ _ _).2.1, hlt, hminted,
        hsize'.symm, hreply, hdigest ▸ hverify⟩

end System

end

namespace Sample

/-- The first head, anchored, then a second commit, up to the view of its head. -/
theorem exists_stale (answer : SignedTreeHead → Except String (List UInt8)) {status : String}
    (hanswer : ∀ head : SignedTreeHead, ∃ record,
      submitAnchor head.anchoredExternally tsaUrl (2 : Fin 60) (answer head) = some record ∧
        record.status = status) :
    ∃ (actions : List Action) (s : System) (head sth : SignedTreeHead) (record : TsaRecord),
      (System.init (service (some tsaUrl))).run actions = some s ∧
      Transition.Along System.step System.Timely (System.init (service (some tsaUrl))) actions ∧
      s.service.store.Valid ∧ s.handlers[2]? = some (.viewing (some sth)) ∧
      head.treeSize.toNat = 1 ∧ sth.treeSize.toNat = 2 ∧ s.service.tsa = some record ∧
      record.treeSize = head.treeSize ∧ record.status = status ∧
      s.replies = ((answer head).toOption.map fun response => (head, response)).toList := by
  obtain ⟨one, v, head, hone, hup, hhandlers, hsize, -, hreplies, -⟩ := exists_submitting
  obtain ⟨record, hsubmit, hstatus⟩ := hanswer head
  obtain ⟨two, htwo, hup₂, -, -, htsa, hhandlers₂, -, -, hreplies₂⟩ :=
    hup.record 0 (.ok _) head (by rw [hhandlers]; rfl) hsubmit
  obtain ⟨three, w, -, hthree, hup₃, htsa₃, hhandlers₃, -, -, -, hreplies₃⟩ :=
    hup₂.commitAt (by decide) 3
  obtain ⟨sth, hsize', hread⟩ := hup₃.treeHead (by decide)
  have hrun₂ := Transition.run_snoc hone htwo
  have hrun₃ := Transition.run_snoc hrun₂ hthree
  have halong : Transition.Along System.step System.Timely (System.init (service (some tsaUrl)))
      [commitAt 1, .readHead 0] := ⟨trivial, fun _ _ => ⟨trivial, fun _ _ => trivial⟩⟩
  have hidle : one.Timely (.record 0 (2 : Fin 60) (answer head)) := by
    intro _ _ _ _ hviewing
    simp [hhandlers] at hviewing
  have halong₂ := Transition.along_snoc halong hone hidle
  refine ⟨_, _, head, sth, _, Transition.run_snoc hrun₃ hread,
    Transition.along_snoc (Transition.along_snoc halong₂ hrun₂ trivial) hrun₃ trivial,
    hup₃.running.valid, ?_, hsize, hsize', htsa₃.trans htsa, rfl, hstatus, ?_⟩
  · rw [System.push, hhandlers₃, hhandlers₂, hhandlers]
    rfl
  · rw [System.push, hreplies₃, hreplies₂, hreplies]
    rfl

/-- A submission that failed is reported as the stale anchor of its head, and no
authority has answered at all. -/
theorem stale_untruthful :
    ∃ (actions : List Action) (s s' : System) (sth : SignedTreeHead) (response : Response)
      (v : Value),
      (System.init (service (some tsaUrl))).run actions = some s ∧
      s.step (.view 2) = some s' ∧ s'.handlers[2]? = some (.viewed (some sth) (some response)) ∧
      SerdeJson.fromStr response.body = .ok v ∧
      v.field ["external_anchor", "status"] = some (.string "stale") ∧
      v.field ["external_anchor", "anchored_tree_size"] = some (.number (.posInt 1)) ∧
      s.replies = [] := by
  obtain ⟨actions, s, head, sth, record, hrun, -, hvalid, hi, hsize, hsize', htsa, hrecord, -,
    hreplies⟩ := exists_stale (fun _ => .error "timeout") fun head =>
      exists_unreachable head.anchoredExternally 2 "timeout"
  obtain ⟨t, response, hview, hshown⟩ := exists_view hi
  obtain ⟨-, hread⟩ := System.exists_of_view serdeJson_conforms hvalid hview hshown
  have hone : record.treeSize = 1 := by rw [hrecord, ← UInt64.toNat_inj, hsize]; rfl
  have hne : record.treeSize ≠ sth.treeSize := by
    rw [hrecord, ne_eq, ← UInt64.toNat_inj, hsize, hsize']
    decide
  refine ⟨actions, s, t, sth, response, _, hrun, hview, hshown, hread, ?_, ?_, hreplies⟩
  · rw [field_treeHeadJson_anchor, htsa]
    exact (field_stale hne).1
  · rw [field_treeHeadJson_anchor, htsa, ← hone]
    exact (field_stale hne).2

/-- The first head was anchored, and is reported as the stale one. -/
theorem stale_truthful_of_one :
    ∃ (actions : List Action) (s s' : System) (sth earlier : SignedTreeHead)
      (response : Response) (v : Value) (n : UInt64) (bytes : List UInt8),
      (System.init (service (some tsaUrl))).run actions = some s ∧
      s.step (.view 2) = some s' ∧ s'.handlers[2]? = some (.viewed (some sth) (some response)) ∧
      SerdeJson.fromStr response.body = .ok v ∧
      v.field ["external_anchor", "status"] = some (.string "stale") ∧
      v.field ["tree_size"] = some (.number (.posInt n)) ∧ 1 < n ∧ earlier.treeSize = 1 ∧
      (earlier, bytes) ∈ s.replies ∧
      verifyTimestampResponse bytes earlier.anchoredExternally.digest = some (.ok ()) := by
  obtain ⟨actions, s, head, sth, record, hrun, halong, hvalid, hi, hsize, hsize', htsa, hrecord,
    hstatus, -⟩ := exists_stale (fun head => .ok (reply head.anchoredExternally.digest)) fun head =>
      exists_anchored head.anchoredExternally 2
  obtain ⟨t, response, hview, hshown⟩ := exists_view hi
  obtain ⟨-, hread⟩ := System.exists_of_view serdeJson_conforms hvalid hview hshown
  have hone : record.treeSize = 1 := by rw [hrecord, ← UInt64.toNat_inj, hsize]; rfl
  have hlt : record.treeSize < sth.treeSize := by
    rw [hrecord, UInt64.lt_iff_toNat_lt, hsize, hsize']
    decide
  have htimely : s.Timely (.view 2) := by
    intro other stored hother hstored hne
    obtain rfl := Option.some.inj (htsa.symm.trans hstored)
    exact hstatus
  obtain ⟨v, hv, htruthful⟩ := System.stale_truthful serdeJson_conforms
    (new_service (some tsaUrl)) halong hrun htimely hview hshown
  obtain rfl := Except.ok.inj (hv.symm.trans hread)
  have hfields : (externalAnchorView (some record) sth).field ["status"] =
      some (.string "stale") ∧ (externalAnchorView (some record) sth).field
        ["anchored_tree_size"] = some (.number (.posInt 1)) :=
    hone ▸ field_stale (UInt64.ne_of_lt hlt)
  rw [htsa] at htruthful hv
  obtain ⟨n, earlier, bytes, hn, hk, -, hearlier, hreply, hverify⟩ := htruthful 1
    (by rw [field_treeHeadJson_anchor]; exact hfields.1)
    (by rw [field_treeHeadJson_anchor]; exact hfields.2)
  exact ⟨actions, s, t, sth, earlier, response, _, n, bytes, hrun, hview, hshown, hv,
    by rw [field_treeHeadJson_anchor]; exact hfields.1, hn, hk, hearlier, hreply, hverify⟩

end Sample

section

variable [Unidpp] [SerdeJson] [ExternalAnchoring]

namespace System

variable {s s' : System} {config : Config} {journal : Option JournalFile} {service : Service}
  {actions : List Action} {i : ℕ}

/-! ## Missing records -/

/-- Behind every start and every run, a head is shown with `not-configured` beside it
for want of an authority exactly if there is none, or a submission has been recorded
since the start. -/
theorem not_configured_truthful_iff (hjson : SerdeJson.Conforms)
    (hnew : Service.new config journal = some (.ok service))
    (hrun : (init service).run actions = some s) {sth : SignedTreeHead} {response : Response}
    (hview : s.step (.view i) = some s')
    (hi : s'.handlers[i]? = some (.viewed (some sth) (some response))) :
    ∃ v, SerdeJson.fromStr response.body = .ok v ∧
      ((v.field ["external_anchor", "status"] = some (.string "not-configured") →
          config.externalTsaUrl = none) ↔
        (config.externalTsaUrl = none ∨ s.service.tsa ≠ none)) := by
  obtain ⟨hsound, -⟩ := (sound_init hnew).run hrun
  obtain ⟨-, hread⟩ := exists_of_view hjson hsound.valid hview hi
  refine ⟨_, hread, ?_⟩
  rw [field_treeHeadJson_anchor, not_configured_iff]
  constructor
  · intro htruthful
    by_cases hempty : s.service.tsa = none
    · exact .inl (htruthful hempty)
    · exact .inr hempty
  · rintro (hurl | hrecord) hempty
    · exact hurl
    · exact absurd hempty hrecord

end System

end

namespace Sample

/-- The first head while its commit is on its way to the authority. -/
theorem exists_pending :
    ∃ (s : System) (sth : SignedTreeHead),
      (System.init (service (some tsaUrl))).run [commitAt 1, .treeHead] = some s ∧
      s.service.store.Valid ∧ s.handlers[1]? = some (.viewing (some sth)) ∧
      s.service.tsa = none := by
  obtain ⟨one, v, -, hone, hup, htsa, hhandlers, -⟩ :=
    (up_init (some tsaUrl)).commitAt (by decide) 1
  obtain ⟨sth, -, hread⟩ := hup.treeHead (by decide)
  have hrun := Transition.run_snoc (Transition.run_one hone) hread
  simp only [List.nil_append, List.cons_append] at hrun
  refine ⟨_, sth, hrun, hup.running.valid, ?_, htsa⟩
  rw [System.push, hhandlers]
  rfl

/-- With an authority configured, `not-configured` is reported. -/
theorem not_configured_untruthful :
    ∃ (s s' : System) (sth : SignedTreeHead) (response : Response) (v : Value),
      (System.init (service (some tsaUrl))).run [commitAt 1, .treeHead] = some s ∧
      s.step (.view 1) = some s' ∧ s'.handlers[1]? = some (.viewed (some sth) (some response)) ∧
      SerdeJson.fromStr response.body = .ok v ∧
      v.field ["external_anchor", "status"] = some (.string "not-configured") ∧
      (config (some tsaUrl)).externalTsaUrl = some tsaUrl := by
  obtain ⟨s, sth, hrun, hvalid, hi, htsa⟩ := exists_pending
  obtain ⟨t, response, hview, hshown⟩ := exists_view hi
  obtain ⟨-, hread⟩ := System.exists_of_view serdeJson_conforms hvalid hview hshown
  refine ⟨s, t, sth, response, _, hrun, hview, hshown, hread, ?_, rfl⟩
  rw [field_treeHeadJson_anchor, not_configured_iff, htsa]

/-- With an authority configured and a submission recorded, even one that failed, a head is not
shown as one without an authority. -/
theorem not_configured_of_recorded :
    ∃ (actions : List Action) (s s' : System) (sth : SignedTreeHead) (response : Response)
      (v : Value),
      (System.init (service (some tsaUrl))).run actions = some s ∧
      s.step (.view 1) = some s' ∧ s'.handlers[1]? = some (.viewed (some sth) (some response)) ∧
      SerdeJson.fromStr response.body = .ok v ∧
      v.field ["external_anchor", "status"] ≠ some (.string "not-configured") := by
  obtain ⟨one, v, head, hone, hup, hhandlers, -⟩ := exists_submitting
  obtain ⟨record, hsubmit, -⟩ := exists_unreachable head.anchoredExternally 2 "timeout"
  obtain ⟨two, htwo, hup₂, -, -, htsa, hhandlers₂, -⟩ :=
    hup.record 0 (.ok v) head (by rw [hhandlers]; rfl) hsubmit
  obtain ⟨sth, -, hread⟩ := hup₂.treeHead (by decide)
  have hrun := Transition.run_snoc (Transition.run_snoc hone htwo) hread
  have hi : (two.push (.viewing (some sth))).handlers[1]? = some (.viewing (some sth)) := by
    rw [System.push, hhandlers₂, hhandlers]
    rfl
  obtain ⟨t, response, hview, hshown⟩ := exists_view hi
  obtain ⟨shown, hbody, htruthful⟩ := System.not_configured_truthful_iff serdeJson_conforms
    (new_service (some tsaUrl)) hrun hview hshown
  have hrecorded : (two.push (.viewing (some sth))).service.tsa ≠ none := by
    rw [System.push, htsa]
    simp
  refine ⟨_, _, t, sth, response, shown, hrun, hview, hshown, hbody, fun hstatus => ?_⟩
  have hnone := htruthful.mpr (.inr hrecorded) hstatus
  simp [config] at hnone

end Sample

end UnidppLog
