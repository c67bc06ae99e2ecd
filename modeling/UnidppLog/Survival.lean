/-
# What a restart does not change

What a client was told in one session, it is told in every later one. Both results are
read off the log of a deployment: a receipt that was acknowledged is served unchanged
after any number of crashes and restarts, and the heads of all sessions extend each
other.
-/

import UnidppLog.Sample.Deployment

namespace UnidppLog

open Json (Value)
open Unidpp
open Transition (Chain)
open Text (trim)

section

/-- The same body is sent with any status. -/
theorem jsonResponse_status [SerdeJson] {status : ℕ} {v : Value} {response : Response}
    (h : jsonResponse status v = some response) (status' : ℕ) :
    jsonResponse status' v = some { response with status := status' } := by
  rw [jsonResponse] at h ⊢
  split at h
  · simp at h
  · obtain rfl := Option.some.inj h
    rfl

variable [Unidpp]

/-- A receipt's JSON carries the number of its record. -/
theorem receiptSeq_receipt (receipt : Receipt) (operatorInfo : Value) :
    receiptSeq (receipt.toJson operatorInfo) = some receipt.record.seq := by
  rw [receiptSeq, Receipt.toJson, Value.get_ofFields]
  simp only [List.reverse_cons, List.reverse_nil, List.nil_append, List.cons_append,
    Json.lookup_cons]
  simp [Value.asU64, Json.Number.asU64]

/-- A head that another one extends: it is not larger, it is the other one if it is as large,
and there is a proof that it is consistent with it. -/
structure SignedTreeHead.ExtendedBy (head head' : SignedTreeHead) : Prop where
  size : head.treeSize ≤ head'.treeSize
  same : head.treeSize = head'.treeSize → head = head'
  consistent : ∃ nodes, Rfc6962.verifyConsistency scheme head.treeSize.toNat head.root
    head'.treeSize.toNat head'.root nodes = true

namespace Reference

variable {log : Reference} {records records' : List CommitRecord}

/-- A receipt does not change as the log grows. -/
theorem receipt_eq_of_isPrefix (log : Reference) (hinitial : records <+: records') {seq : ℕ}
    (hseq : seq < records.length) : log.receipt records' seq = log.receipt records seq := by
  obtain ⟨more, rfl⟩ := hinitial
  have hleaves : (leaves (records ++ more)).take (seq + 1) = (leaves records).take (seq + 1) := by
    rw [leaves, List.map_append, List.take_append_of_le_length (by simpa using hseq)]
    rfl
  rw [receipt, receipt, List.getElem?_append_left hseq, hleaves]

theorem record_of_receipt {seq : ℕ} {receipt : Receipt}
    (h : log.receipt records seq = some receipt) : records[seq]? = some receipt.record := by
  obtain ⟨record, hrecord, hover⟩ := Option.bind_eq_some_iff.mp h
  obtain ⟨head, -, rfl⟩ := Option.map_eq_some_iff.mp hover
  exact hrecord

/-- A head, field by field. -/
theorem of_head {head : SignedTreeHead} (h : log.head records = some head) :
    records ≠ [] ∧ head.treeSize = UInt64.ofNat records.length ∧
      head.root = Rfc6962.mth scheme (leaves records) := by
  obtain ⟨last, hlast, hover⟩ := Option.bind_eq_some_iff.mp h
  obtain ⟨slot, -, rfl⟩ := SignedTreeHead.over_eq_some_iff.mp hover
  refine ⟨?_, by simp [leaves], rfl⟩
  rintro rfl
  simp at hlast

theorem exists_head (log : Reference)
    (hsign : ∀ bytes, ∃ slot, sign log.operator.key .treeHead bytes = .ok slot)
    (hne : records ≠ []) : ∃ head, log.head records = some head := by
  obtain ⟨last, hlast⟩ : ∃ last, records.getLast? = some last :=
    ⟨_, List.getLast?_eq_some_getLast hne⟩
  obtain ⟨slot, hslot⟩ := hsign (canonicalBytes log.operator.logId
    (UInt64.ofNat (leaves records).length) last.loggedAt (Rfc6962.mth scheme (leaves records)))
  have hover := SignedTreeHead.over_eq_some_iff.mpr ⟨slot, hslot, rfl⟩
  exact ⟨_, by rw [head, hlast, Option.bind_some, hover]⟩

/-- The head of a longer log extends the one before. -/
theorem extendedBy_of_isPrefix (hinitial : records <+: records')
    (hroom : records'.length < 2 ^ 64) {head head' : SignedTreeHead}
    (hhead : log.head records = some head) (hhead' : log.head records' = some head') :
    head.ExtendedBy head' := by
  obtain ⟨hne, hsize, hroot⟩ := of_head hhead
  obtain ⟨-, hsize', hroot'⟩ := of_head hhead'
  have hle := hinitial.length_le
  have hpos := List.length_pos_iff.mpr hne
  have hnat : head.treeSize.toNat = records.length := by
    rw [hsize, UInt64.toNat_ofNat', Nat.mod_eq_of_lt (by omega)]
  have hnat' : head'.treeSize.toNat = records'.length := by
    rw [hsize', UInt64.toNat_ofNat', Nat.mod_eq_of_lt hroom]
  refine ⟨by rw [UInt64.le_iff_toNat_le, hnat, hnat']; exact hle, fun heq => ?_, ?_⟩
  · rw [← UInt64.toNat_inj, hnat, hnat'] at heq
    obtain rfl := hinitial.eq_of_length heq
    exact Option.some.inj (hhead.symm.trans hhead')
  · have hlen : (leaves records').length = records'.length := List.length_map _
    have htake : (leaves records').take records.length = leaves records := by
      obtain ⟨more, rfl⟩ := hinitial
      rw [leaves, List.map_append, List.take_left' (List.length_map _)]
      rfl
    have hproof := Rfc6962.verifyConsistency_proof scheme hpos
      (show records.length ≤ (leaves records').length by rwa [hlen])
    rw [htake, hlen, ← hroot, ← hroot', ← hnat, ← hnat'] at hproof
    exact ⟨_, hproof⟩

variable [SerdeJson]

theorem isPrefix_after (log : Reference) (records : List CommitRecord) (action : Action) :
    records <+: log.after records action := by
  cases action with
  | commit authorization body now outcome =>
      rw [after, commit]
      split
      · split
        · exact List.prefix_rfl
        · split
          · exact List.prefix_rfl
          · exact List.prefix_append _ _
      · exact List.prefix_rfl
  | _ => exact List.prefix_rfl

theorem status_of_get {read : Get} {response : Response}
    (h : log.get records read = some response) : response.status ≠ 201 := by
  cases read with
  | discovery => simp [status_of_jsonResponse h]
  | healthz =>
      obtain rfl := Option.some.inj h
      decide
  | consistency params =>
      simp only [get, consistencyResponse] at h
      split at h
      · simp [status_of_jsonResponse h]
      · simp [status_of_jsonResponse h]
      · split at h
        · simp [status_of_jsonResponse h]
        · split at h <;> simp [status_of_jsonResponse h]
  | receipt seq =>
      simp only [get, receiptResponse] at h
      split at h
      · simp [status_of_jsonResponse h]
      · split at h <;> simp [status_of_jsonResponse h]

/-- What is answered with 201 is the receipt of the record that was added. -/
theorem exists_of_created {action : Action} {response : Response}
    (hanswer : log.Answers records action response) (hstatus : response.status = 201) :
    ∃ request receipt, log.after records action = records ++ [sequenced records request] ∧
      log.receipt (log.after records action) records.length = some receipt ∧
        jsonResponse 201 (receipt.toJson log.operator.info) = some response := by
  cases action with
  | commit authorization body now outcome =>
      simp only [Answers, after, commit] at hanswer ⊢
      split at hanswer
      · split at hanswer
        · simp [status_of_jsonResponse hanswer] at hstatus
        · next request hparse =>
          split at hanswer
          · simp [status_of_jsonResponse hanswer] at hstatus
          · next hwritten =>
            obtain ⟨receipt, hreceipt, hresponse⟩ := Option.bind_eq_some_iff.mp hanswer
            rw [if_pos ‹_›]
            exact ⟨request, receipt, rfl, hreceipt, hresponse⟩
      · simp [status_of_jsonResponse hanswer] at hstatus
  | treeHead =>
      obtain ⟨tsa, hview⟩ := hanswer
      simp [status_of_jsonResponse hview] at hstatus
  | get read => exact absurd hstatus (status_of_get hanswer)
  | _ => exact hanswer.elim

variable [Axum] {ledger ledger' : Ledger} {event : ServerEvent} {handler : Handler}

theorem Survives.isPrefix {label : Option (ServerEvent × Handler)}
    (h : log.Survives ledger label ledger') : ledger.records <+: ledger'.records := by
  cases h with
  | call hserves =>
      cases hserves with
      | @effective request now outcome handler hanswer =>
          rw [afterRequest]
          split
          · exact List.prefix_rfl
          · exact isPrefix_after _ _ _
      | lost => exact List.prefix_rfl
  | dropped => exact List.prefix_rfl
  | recovered => exact List.prefix_append _ _

/-- A request that was answered was routed, and the answer is the log's. -/
theorem Survives.exists_of_answer (haxum : Axum.Conforms)
    (h : log.Survives ledger (some (event, handler)) ledger') {response : Response}
    (hanswer : handler.answer = some response) :
    ∃ request now outcome, event = .request request now outcome ∧
      ((router request now outcome = .error response ∧ 400 ≤ response.status) ∨
        ∃ action, router request now outcome = .ok action ∧
          log.Answers ledger.records action response ∧
            ledger'.records = log.after ledger.records action) := by
  cases h with
  | call hserves =>
      cases hserves with
      | @effective request now outcome _ hserved =>
          refine ⟨request, now, outcome, rfl, ?_⟩
          have hserved := hserved response hanswer
          have hrouted := routed_router haxum request now outcome
          rw [AnswersRequest] at hserved
          cases hrouter : router request now outcome with
          | error rejection =>
              rw [hrouter] at hserved hrouted
              obtain rfl : response = rejection := hserved
              cases hrouted with
              | rejected hstatus => exact .inl ⟨rfl, hstatus⟩
          | ok action =>
              rw [hrouter] at hserved
              exact .inr ⟨action, rfl, hserved, by simp only [afterRequest, hrouter]⟩
      | lost _ hnone => simp [hnone] at hanswer

/-- The receipt that a 201 carries is that of the record at the log's end. -/
theorem Survives.exists_of_created (haxum : Axum.Conforms)
    (h : log.Survives ledger (some (event, handler)) ledger') {response : Response}
    (hcreated : handler.created = some response) :
    ∃ receipt, ledger'.records.length = ledger.records.length + 1 ∧
      log.receipt ledger'.records ledger.records.length = some receipt ∧
        receipt.record.seq = UInt64.ofNat ledger.records.length ∧
          jsonResponse 201 (receipt.toJson log.operator.info) = some response := by
  obtain ⟨hanswer, hstatus⟩ := Handler.created_eq_some_iff.mp hcreated
  obtain ⟨request, now, outcome, -, ⟨-, herror⟩ | ⟨action, -, hserved, hrecords⟩⟩ :=
    h.exists_of_answer haxum hanswer
  · omega
  · obtain ⟨append, receipt, hafter, hreceipt, hresponse⟩ :=
      Reference.exists_of_created hserved hstatus
    rw [← hrecords] at hafter hreceipt
    have hrecord := record_of_receipt hreceipt
    rw [hafter, List.getElem?_concat_length] at hrecord
    refine ⟨receipt, by rw [hafter]; simp, hreceipt, ?_, hresponse⟩
    rw [← Option.some.inj hrecord]
    rfl

/-- A head that is shown is the log's. -/
theorem Survives.exists_of_viewed (haxum : Axum.Conforms) (hjson : SerdeJson.Conforms)
    {request : HttpRequest} {now : Timestamp} {outcome : WriteOutcome}
    (h : log.Survives ledger (some (.request request now outcome, handler)) ledger')
    (hrouted : router request now outcome = .ok .treeHead) {response : Response}
    (hanswer : handler.answer = some response) :
    ledger'.records = ledger.records ∧ ∃ tsa, SerdeJson.fromStr response.body =
      .ok (treeHeadJson log.operator (log.head ledger.records) tsa) := by
  obtain ⟨_, _, _, hevent, ⟨hrejected, -⟩ | ⟨action, haction, hserved, hrecords⟩⟩ :=
    h.exists_of_answer haxum hanswer
  · cases hevent
    simp [hrouted] at hrejected
  · cases hevent
    obtain rfl := Except.ok.inj (hrouted.symm.trans haction)
    obtain ⟨tsa, hview⟩ := hserved
    exact ⟨hrecords, tsa, fromStr_treeHeadResponse hjson hview⟩

/-- Where one of the requests stands in the chain. -/
theorem exists_call {history : List (Option (ServerEvent × Handler))}
    (h : Chain log.Survives ledger history ledger') {call : ServerEvent × Handler}
    (hcall : call ∈ history.reduceOption) :
    ∃ before after, log.Survives before (some call) after ∧ after.records <+: ledger'.records := by
  obtain ⟨label, hlabel, rfl⟩ := List.mem_filterMap.mp hcall
  obtain ⟨i, hi⟩ := List.mem_iff_getElem?.mp hlabel
  obtain ⟨before, after, -, hsurvives, hafter⟩ := h.exists_step hi
  have hle := hafter.le (r := fun a b => a.records <+: b.records)
    (fun _ => List.prefix_rfl) (fun _ _ _ => List.IsPrefix.trans) fun _ _ _ => Survives.isPrefix
  exact ⟨before, after, hsurvives, hle⟩

/-- What holds of any two requests, the one before the other. -/
theorem pairwise_calls {history : List (Option (ServerEvent × Handler))}
    (h : Chain log.Survives ledger history ledger')
    {P : ServerEvent × Handler → ServerEvent × Handler → Prop}
    (hP : ∀ a first b c second e, log.Survives a (some first) b → b.records <+: c.records →
      log.Survives c (some second) e → e.records <+: ledger'.records → P first second) :
    history.reduceOption.Pairwise P := by
  rw [List.reduceOption, List.pairwise_filterMap]
  refine h.pairwise (r := fun a b => a.records <+: b.records)
    (fun _ => List.prefix_rfl) (fun _ _ _ => List.IsPrefix.trans)
    (fun _ _ _ => Survives.isPrefix) ?_
  rintro a label b c label' e hfirst hle hsecond hafter first rfl second rfl
  exact hP _ _ _ _ _ _ hfirst hle hsecond hafter

end Reference

/-! ## Receipts and heads of all sessions -/

namespace Deployment

variable [SerdeJson] [Axum] [ExternalAnchoring] {config : Config} {operator : Operator}
  {occurrences : List Occurrence} {d : Deployment} {s : System}

/-- The log of a running deployment has room for its records. -/
theorem exists_history_of_running (hforms : RecordTextForms) (hjson : SerdeJson.Conforms)
    (haxum : Axum.Conforms) (hoperator : Operator.fromConfig config.operator = .ok operator)
    (halong : Transition.Along (step config) InStep init occurrences)
    (hrun : init.run config occurrences = some d) (hrunning : d.running = some s) :
    ∃ (history : List (Option (ServerEvent × Handler))) (ledger : Ledger),
      history.reduceOption.map Prod.fst = occurrences.filterMap Occurrence.request ∧
      history.reduceOption.map Prod.snd = d.handlers ∧
      Chain (Reference.ofConfig config operator).Survives ⟨[], []⟩ history ledger ∧
      s.service.store.Valid ∧ (Reference.ofConfig config operator).Describes s.service ∧
        s.service.store.entries = ledger.records := by
  have hinit : Deployment.init.Logged (.ofConfig config operator) [] :=
    .inl ⟨[], [], down_init _, rfl⟩
  obtain ⟨history, ledger, hrequests, hhandlers, hchain, -, hcurrent⟩ :=
    (hinit.run hforms hjson haxum hoperator halong hrun).exists_history
  exact ⟨history, ledger, hrequests, hhandlers, hchain, hcurrent s hrunning⟩

/-- Whatever sessions a deployment has been through, as long as every write was in step, one
log has served the requests of all of them in their order, and has given every answer that was
sent. Between two sessions it loses nothing, and gains at most one record, that of an append
whose write was cut short in the session that ended. The next start finds the same log. -/
theorem durably_linearizable (hforms : RecordTextForms) (hjson : SerdeJson.Conforms)
    (haxum : Axum.Conforms) (hoperator : Operator.fromConfig config.operator = .ok operator)
    {occurrences : List Occurrence}
    (halong : Transition.Along (step config) InStep init occurrences)
    (hrun : init.run config occurrences = some d) :
    ∃ (history : List (Option (ServerEvent × Handler))) (ledger : Ledger),
      history.reduceOption.map Prod.fst = occurrences.filterMap Occurrence.request ∧
      history.reduceOption.map Prod.snd = d.handlers ∧
      Chain (Reference.ofConfig config operator).Survives ⟨[], []⟩ history ledger ∧
      Reference.Opens d.file ledger ∧
      ∀ s, d.running = some s → s.service.store.entries = ledger.records := by
  have hinit : Deployment.init.Logged (.ofConfig config operator) [] :=
    .inl ⟨[], [], down_init _, rfl⟩
  obtain ⟨history, ledger, hrequests, hhandlers, hchain, hopens, hrunning⟩ :=
    (hinit.run hforms hjson haxum hoperator halong hrun).exists_history
  exact ⟨history, ledger, hrequests, hhandlers, hchain, hopens, fun s hs => (hrunning s hs).2.2⟩

end Deployment

end

/-- The log of the two sessions. -/
theorem Sample.durably_linearizable_of_sessions :
    ∃ (d : Deployment) (history : List (Option (ServerEvent × Handler))) (ledger : Ledger),
      Deployment.init.run guardedConfig (sessions (Fin.last 59)) = some d ∧
      history.reduceOption.map Prod.fst =
        (sessions (Fin.last 59)).filterMap Occurrence.request ∧
      history.reduceOption.map Prod.snd = d.handlers ∧
      Chain (Reference.ofConfig guardedConfig guardedService.operator).Survives ⟨[], []⟩ history
        ledger ∧
      Reference.Opens d.file ledger ∧
      ∀ s, d.running = some s → s.service.store.entries = ledger.records := by
  obtain ⟨d, s, created, shown, shown', hran, -⟩ := exists_sessions (Fin.last 59)
  obtain ⟨history, ledger, hledger⟩ := Deployment.durably_linearizable recordTextForms
    serdeJson_conforms axum_conforms
    (show Operator.fromConfig guardedConfig.operator = .ok guardedService.operator from rfl)
    hran.along hran.run
  exact ⟨d, history, ledger, hran.run, hledger⟩

section

namespace Deployment

variable [Unidpp] [SerdeJson] [Axum] [ExternalAnchoring] {config : Config} {operator : Operator}
  {occurrences : List Occurrence} {d : Deployment} {s : System}

/-- Whatever crashes and restarts have been in between, whoever was answered with 201 is
served the same receipt, and of two who were, in whatever sessions, the one that came first
has the smaller number. -/
theorem receipts_survive (hforms : RecordTextForms) (hjson : SerdeJson.Conforms)
    (haxum : Axum.Conforms) (hoperator : Operator.fromConfig config.operator = .ok operator)
    (halong : Transition.Along (step config) InStep init occurrences)
    (hrun : init.run config occurrences = some d) (hrunning : d.running = some s) :
    (∀ handler ∈ d.handlers, ∀ response, handler.created = some response →
      ∃ seq, response.Carries seq ∧ seq.toNat < s.service.store.entries.length ∧
        ∀ text : String, parseU64 (trim text.toList) = some seq →
          s.service.get (.receipt text) = some { response with status := 200 }) ∧
    d.handlers.Pairwise fun first second =>
      ∀ response response', first.created = some response → second.created = some response' →
        ∃ seq seq', response.Carries seq ∧ response'.Carries seq' ∧ seq < seq' := by
  obtain ⟨history, ledger, -, hhandlers, hchain, hvalid, hlog, hentries⟩ :=
    exists_history_of_running hforms hjson haxum hoperator halong hrun hrunning
  have hroom := hvalid.length_lt
  have hcarries : ∀ {receipt : Receipt} {response : Response} {seq : UInt64},
      receipt.record.seq = seq → jsonResponse 201
        (receipt.toJson (Reference.ofConfig config operator).operator.info) = some response →
      response.Carries seq := by
    rintro receipt response seq rfl hresponse
    obtain ⟨hplain, hdepth⟩ := operator.plain_receipt receipt
    exact ⟨_, fromStr_body hjson hplain (by omega) hresponse, receiptSeq_receipt _ _⟩
  rw [← hhandlers]
  constructor
  · intro handler hhandler response hcreated
    obtain ⟨⟨event, _⟩, hcall, rfl⟩ := List.mem_map.mp hhandler
    obtain ⟨before, after, hsurvives, hinitial⟩ := Reference.exists_call hchain hcall
    obtain ⟨receipt, hlength, hreceipt, hseq, hresponse⟩ :=
      hsurvives.exists_of_created haxum hcreated
    have hle := hinitial.length_le
    rw [← hentries] at hinitial hle
    have hnat : (UInt64.ofNat before.records.length).toNat = before.records.length := by
      rw [UInt64.toNat_ofNat', Nat.mod_eq_of_lt (by omega)]
    refine ⟨_, hcarries hseq hresponse, by rw [hnat]; omega, fun text htext => ?_⟩
    rw [Reference.get_eq hvalid hlog.operator hlog.buildId, Reference.get,
      Reference.receiptResponse, htext]
    have hcurrent := (Reference.ofConfig config operator).receipt_eq_of_isPrefix hinitial
      (show before.records.length < _ by omega)
    rw [hreceipt, ← hnat] at hcurrent
    simp only [hcurrent]
    exact jsonResponse_status hresponse 200
  · rw [List.pairwise_map]
    refine Reference.pairwise_calls hchain ?_
    rintro a ⟨event, first⟩ b c ⟨event', second⟩ e hfirst hle hsecond hafter response response'
      hcreated hcreated'
    obtain ⟨receipt, hlength, -, hseq, hresponse⟩ := hfirst.exists_of_created haxum hcreated
    obtain ⟨receipt', hlength', -, hseq', hresponse'⟩ :=
      hsecond.exists_of_created haxum hcreated'
    refine ⟨_, _, hcarries hseq hresponse, hcarries hseq' hresponse', ?_⟩
    have hle' := hle.length_le
    have hafter' := hafter.length_le
    rw [← hentries] at hafter'
    rw [UInt64.lt_iff_toNat_lt, UInt64.toNat_ofNat', UInt64.toNat_ofNat',
      Nat.mod_eq_of_lt (by omega), Nat.mod_eq_of_lt (by omega)]
    omega

end Deployment

end

/-- The receipt of the first session is served in the second one. -/
theorem Sample.receipts_survive_sessions :
    ∃ (d : Deployment) (s : System) (handler : Handler) (created : Response) (seq : UInt64),
      Deployment.init.run guardedConfig (sessions (Fin.last 59)) = some d ∧
      d.running = some s ∧ handler ∈ d.past ∧ handler.created = some created ∧
      created.Carries seq ∧ ∀ text : String, parseU64 (trim text.toList) = some seq →
        s.service.get (.receipt text) = some { created with status := 200 } := by
  obtain ⟨d, s, created, shown, shown', hran, hpast, hanswers, hstatus, -⟩ :=
    exists_sessions (Fin.last 59)
  obtain ⟨handler, hhandler, hanswer⟩ : ∃ handler ∈ d.past, handler.answer = some created := by
    have hmem : some created ∈ d.past.map Handler.answer := by
      rw [hpast]
      exact List.mem_cons_self
    simpa using hmem
  have hcreated := Handler.created_eq_some_iff.mpr ⟨hanswer, hstatus⟩
  obtain ⟨hserved, -⟩ := Deployment.receipts_survive recordTextForms serdeJson_conforms
    axum_conforms
    (show Operator.fromConfig guardedConfig.operator = .ok guardedService.operator from rfl)
    hran.along hran.run hran.running
  obtain ⟨seq, hcarries, -, hget⟩ :=
    hserved handler (List.mem_append_left _ hhandler) created hcreated
  exact ⟨d, s, handler, created, seq, hran.run, hran.running, hhandler, hcreated, hcarries, hget⟩

section

/-- Who was killed has no answer, so whoever has one came before. -/
theorem Handler.lt_of_answer_concat [Unidpp] {handlers : List Handler} {i : ℕ} {response : Response}
    (h : (handlers ++ [.ended none])[i]?.bind Handler.answer = some response) :
    i < handlers.length ∧ handlers[i]?.bind Handler.answer = some response := by
  rcases Nat.lt_or_ge i handlers.length with hlt | hge
  · rw [List.getElem?_append_left hlt] at h
    exact ⟨hlt, h⟩
  · obtain ⟨handler, hhandler, hanswer⟩ := Option.bind_eq_some_iff.mp h
    rw [List.getElem?_append_right hge] at hhandler
    obtain rfl := List.mem_singleton.mp (List.mem_of_getElem? hhandler)
    simp [Handler.answer] at hanswer

namespace Deployment

variable [Unidpp] [SerdeJson] [Axum] [ExternalAnchoring] {config : Config} {operator : Operator}
  {occurrences : List Occurrence} {d : Deployment} {s : System}

/-- Where the service does not run, nothing was asked of it, or the session has just ended in
which whoever has an answer was given it. -/
theorem exists_running_front (hforms : RecordTextForms) (hjson : SerdeJson.Conforms)
    (haxum : Axum.Conforms) (hoperator : Operator.fromConfig config.operator = .ok operator)
    (halong : Transition.Along (step config) InStep init occurrences)
    (hrun : init.run config occurrences = some d) (hstopped : d.running = none) :
    d.handlers = [] ∨ ∃ front mid s,
      Transition.Along (step config) InStep init front ∧ init.run config front = some mid ∧
      mid.running = some s ∧ ∀ (i : ℕ) (response : Response),
        d.handlers[i]?.bind Handler.answer = some response →
          mid.handlers[i]?.bind Handler.answer = some response ∧
            (front.filterMap Occurrence.request)[i]? =
              (occurrences.filterMap Occurrence.request)[i]? := by
  rcases List.eq_nil_or_concat occurrences with rfl | ⟨front, last, rfl⟩
  · obtain rfl := Option.some.inj hrun
    exact .inl rfl
  rw [List.concat_eq_append] at halong hrun ⊢
  rw [Deployment.run, Transition.run_concat] at hrun
  obtain ⟨mid, hfront, hlast⟩ := Option.bind_eq_some_iff.mp hrun
  have halong' := Transition.along_of_append halong
  cases last with
  | start =>
      simp only [step, Option.bind_eq_bind] at hlast
      split at hlast
      · simp at hlast
      · obtain ⟨result, -, hlast⟩ := Option.bind_eq_some_iff.mp hlast
        cases result with
        | error e => simp at hlast
        | ok service =>
            obtain rfl := Option.some.inj hlast
            simp at hstopped
  | serve event =>
      obtain ⟨s, -, hlast⟩ := Option.bind_eq_some_iff.mp hlast
      obtain ⟨next, -, hlast⟩ := Option.bind_eq_some_iff.mp hlast
      obtain rfl := Option.some.inj hlast
      simp at hstopped
  | stop =>
      obtain ⟨s, hmid, hlast⟩ := Option.bind_eq_some_iff.mp hlast
      obtain rfl := Option.some.inj hlast
      refine .inr ⟨front, mid, s, halong', hfront, hmid, fun i response hanswer => ⟨?_, ?_⟩⟩
      · simpa [handlers, hmid] using hanswer
      · have hnone : [Occurrence.stop].filterMap Occurrence.request = [] := rfl
        rw [List.filterMap_append, hnone, List.append_nil]
  | crash request now kept =>
      obtain ⟨s, hmid, hlast⟩ := Option.bind_eq_some_iff.mp hlast
      obtain ⟨torn, -, hlast⟩ := Option.bind_eq_some_iff.mp hlast
      obtain rfl := Option.some.inj hlast
      refine .inr ⟨front, mid, s, halong', hfront, hmid, fun i response hanswer => ?_⟩
      obtain ⟨history, -, hrequests, hhandlers, -⟩ :=
        exists_history_of_running hforms hjson haxum hoperator halong' hfront hmid
      have hlength : (front.filterMap Occurrence.request).length = mid.handlers.length := by
        rw [← hrequests, ← hhandlers, List.length_map, List.length_map]
      have hkilled : handlers ⟨torn.service.store.journal, none,
          mid.past ++ s.handlers ++ [.ended none]⟩ = mid.handlers ++ [.ended none] := by
        simp [handlers, hmid]
      rw [hkilled] at hanswer
      obtain ⟨hlt, hearlier⟩ := Handler.lt_of_answer_concat hanswer
      refine ⟨hearlier, ?_⟩
      rw [List.filterMap_append, List.getElem?_append_left (by rwa [hlength])]

/-- The heads that are shown up to some moment at which the service runs extend each other. -/
theorem extended_of_running (hforms : RecordTextForms) (hjson : SerdeJson.Conforms)
    (haxum : Axum.Conforms) (hoperator : Operator.fromConfig config.operator = .ok operator)
    (hsign : ∀ bytes, ∃ slot, sign operator.key .treeHead bytes = .ok slot)
    (halong : Transition.Along (step config) InStep init occurrences)
    (hrun : init.run config occurrences = some d) (hrunning : d.running = some s) {i j : ℕ}
    {request request' : HttpRequest} {now now' : Timestamp} {outcome outcome' : WriteOutcome}
    {response response' : Response} (hij : i < j)
    (hi : (occurrences.filterMap Occurrence.request)[i]? = some (.request request now outcome))
    (hrouted : router request now outcome = .ok .treeHead)
    (hanswer : d.handlers[i]?.bind Handler.answer = some response)
    (hj : (occurrences.filterMap Occurrence.request)[j]? =
      some (.request request' now' outcome'))
    (hrouted' : router request' now' outcome' = .ok .treeHead)
    (hanswer' : d.handlers[j]?.bind Handler.answer = some response') :
    ∃ head head' tsa tsa',
      SerdeJson.fromStr response.body = .ok (treeHeadJson operator head tsa) ∧
      SerdeJson.fromStr response'.body = .ok (treeHeadJson operator head' tsa') ∧
      ∀ sth, head = some sth → ∃ sth', head' = some sth' ∧ sth.ExtendedBy sth' := by
  obtain ⟨history, ledger, hrequests, hhandlers, hchain, hvalid, -, hentries⟩ :=
    exists_history_of_running hforms hjson haxum hoperator halong hrun hrunning
  have hroom := hvalid.length_lt
  have hpairwise : history.reduceOption.Pairwise fun first second =>
      ∀ response response', first.1 = .request request now outcome →
        first.2.answer = some response → second.1 = .request request' now' outcome' →
        second.2.answer = some response' → ∃ head head' tsa tsa',
          SerdeJson.fromStr response.body = .ok (treeHeadJson operator head tsa) ∧
          SerdeJson.fromStr response'.body = .ok (treeHeadJson operator head' tsa') ∧
          ∀ sth, head = some sth → ∃ sth', head' = some sth' ∧ sth.ExtendedBy sth' := by
    refine Reference.pairwise_calls hchain ?_
    rintro a ⟨_, first⟩ b c ⟨_, second⟩ e hfirst hle hsecond hafter response response' rfl
      hanswer rfl hanswer'
    obtain ⟨hsame, tsa, hread⟩ := hfirst.exists_of_viewed haxum hjson hrouted hanswer
    obtain ⟨hsame', tsa', hread'⟩ := hsecond.exists_of_viewed haxum hjson hrouted' hanswer'
    rw [hsame] at hle
    rw [hsame', ← hentries] at hafter
    refine ⟨_, _, tsa, tsa', hread, hread', fun sth hsth => ?_⟩
    obtain ⟨hne, -⟩ := Reference.of_head hsth
    have hne' : c.records ≠ [] := fun hnil => hne (List.prefix_nil.mp (hnil ▸ hle))
    obtain ⟨sth', hsth'⟩ := (Reference.ofConfig config operator).exists_head hsign hne'
    exact ⟨sth', hsth', Reference.extendedBy_of_isPrefix hle
      (hafter.length_le.trans_lt hroom) hsth hsth'⟩
  rw [← hrequests, List.getElem?_map, Option.map_eq_some_iff] at hi hj
  obtain ⟨first, hfirst, hevent⟩ := hi
  obtain ⟨second, hsecond, hevent'⟩ := hj
  rw [← hhandlers, List.getElem?_map] at hanswer hanswer'
  rw [hfirst] at hanswer
  rw [hsecond] at hanswer'
  obtain ⟨hlt, rfl⟩ := List.getElem?_eq_some_iff.mp hfirst
  obtain ⟨hlt', rfl⟩ := List.getElem?_eq_some_iff.mp hsecond
  exact List.pairwise_iff_getElem.mp hpairwise i j hlt hlt' hij response response' hevent
    hanswer hevent' hanswer'

/-- The heads that are shown extend each other, whatever crashes and restarts have been in
between: none is smaller than one before, two of one size are one, and there is a proof that
the later one is consistent with the earlier one. -/
theorem heads_survive (hforms : RecordTextForms) (hjson : SerdeJson.Conforms)
    (haxum : Axum.Conforms) (hoperator : Operator.fromConfig config.operator = .ok operator)
    (hsign : ∀ bytes, ∃ slot, sign operator.key .treeHead bytes = .ok slot)
    (halong : Transition.Along (step config) InStep init occurrences)
    (hrun : init.run config occurrences = some d) {i j : ℕ}
    {request request' : HttpRequest} {now now' : Timestamp} {outcome outcome' : WriteOutcome}
    {response response' : Response} (hij : i < j)
    (hi : (occurrences.filterMap Occurrence.request)[i]? = some (.request request now outcome))
    (hrouted : router request now outcome = .ok .treeHead)
    (hanswer : d.handlers[i]?.bind Handler.answer = some response)
    (hj : (occurrences.filterMap Occurrence.request)[j]? =
      some (.request request' now' outcome'))
    (hrouted' : router request' now' outcome' = .ok .treeHead)
    (hanswer' : d.handlers[j]?.bind Handler.answer = some response') :
    ∃ head head' tsa tsa',
      SerdeJson.fromStr response.body = .ok (treeHeadJson operator head tsa) ∧
      SerdeJson.fromStr response'.body = .ok (treeHeadJson operator head' tsa') ∧
      ∀ sth, head = some sth → ∃ sth', head' = some sth' ∧ sth.ExtendedBy sth' := by
  cases hrunning : d.running with
  | some s =>
      exact extended_of_running hforms hjson haxum hoperator hsign halong hrun hrunning hij hi
        hrouted hanswer hj hrouted' hanswer'
  | none =>
      rcases exists_running_front hforms hjson haxum hoperator halong hrun hrunning with
        hnil | ⟨front, mid, s, halong', hfront, hmid, hanswers⟩
      · simp [hnil] at hanswer
      · obtain ⟨hearlier, hsame⟩ := hanswers i response hanswer
        obtain ⟨hearlier', hsame'⟩ := hanswers j response' hanswer'
        rw [← hsame] at hi
        rw [← hsame'] at hj
        exact extended_of_running hforms hjson haxum hoperator hsign halong' hfront hmid hij hi
          hrouted hearlier hj hrouted' hearlier'

end Deployment

end

/-- The head of the second session extends that of the first, also once that one is over. -/
theorem Sample.heads_survive_sessions :
    ∃ (d : Deployment) (shown shown' : Response),
      Deployment.init.run guardedConfig (sessions (Fin.last 59) ++ [.stop]) = some d ∧
      d.running = none ∧
      d.handlers[1]?.bind Handler.answer = some shown ∧
      d.handlers[3]?.bind Handler.answer = some shown' ∧
      ∃ head head' tsa tsa',
        SerdeJson.fromStr shown.body = .ok (treeHeadJson guardedService.operator head tsa) ∧
        SerdeJson.fromStr shown'.body = .ok (treeHeadJson guardedService.operator head' tsa') ∧
        ∀ sth, head = some sth → ∃ sth', head' = some sth' ∧ sth.ExtendedBy sth' := by
  obtain ⟨d, s, created, shown, shown', hran, -, hanswers, -⟩ := exists_sessions (Fin.last 59)
  have hstop : d.step guardedConfig .stop = some ⟨d.file, none, d.past ++ s.handlers⟩ := by
    simp [Deployment.step, hran.running]
  have hrun := Transition.run_snoc hran.run hstop
  have halong := Transition.along_snoc hran.along hran.run
    (show d.InStep .stop from fun _ _ _ _ _ h => absurd h (by simp [Occurrence.request]))
  have hanswer : ∀ i : ℕ, (⟨d.file, none, d.past ++ s.handlers⟩ : Deployment).handlers[i]?.bind
      Handler.answer = [some created, some shown, none, some shown'][i]?.join := by
    intro i
    have hsame : (⟨d.file, none, d.past ++ s.handlers⟩ : Deployment).handlers = d.handlers := by
      simp [Deployment.handlers, hran.running]
    rw [hsame, ← hanswers, List.getElem?_map]
    cases d.handlers[i]? <;> rfl
  have hheads := Deployment.heads_survive recordTextForms serdeJson_conforms axum_conforms
    (show Operator.fromConfig guardedConfig.operator = .ok guardedService.operator from rfl) signs
    halong hrun (show 1 < 3 by decide) rfl
    (router_getHead (Fin.last 59) .written) (hanswer 1) rfl
    (router_getHead (Fin.last 59) .written) (hanswer 3)
  exact ⟨_, shown, shown', hrun, rfl, hanswer 1, hanswer 3, hheads⟩

end UnidppLog
