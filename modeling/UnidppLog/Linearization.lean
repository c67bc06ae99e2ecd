/-
# Commits in a line

However the handlers interleave, the appends are numbered in the order of their
critical sections. The numbers the commits hold increase with the order in which
they came to the store, a commit that is answered with 201 is answered with the
receipt of its record, and every later read of that receipt gets the same.
-/

import UnidppLog.Sample.Service

namespace UnidppLog

open Json (Value)
open Unidpp
open Text (trim)

section

variable [Unidpp]

/-- The sequence number in a receipt's JSON. -/
def receiptSeq (v : Value) : Option UInt64 :=
  (v.get "seq").bind Value.asU64

/-- The sequence number that an answer carries. -/
def Response.Carries [SerdeJson] (response : Response) (seq : UInt64) : Prop :=
  ∃ v, SerdeJson.fromStr response.body = .ok v ∧ receiptSeq v = some seq

namespace Handler

/-- What a handler has sent to its client. -/
def answer : Handler → Option Response
  | .commit _ (.answered response) => response
  | .commit _ _ => none
  | .viewing _ => none
  | .viewed _ response => response
  | .served _ response => response
  | .ended response => response

/-- The 201 that a handler has sent. -/
def created (handler : Handler) : Option Response :=
  handler.answer.filter fun response => response.status = 201

/-- The outcome of the append a handler has made. -/
def outcome : Handler → Option (Except StoreError Value)
  | .commit outcome _ => some outcome
  | _ => none

/-- The number that a handler's append was given. -/
def seq (handler : Handler) : Option UInt64 :=
  match handler.outcome with
  | some (.ok receipt) => receiptSeq receipt
  | _ => none

theorem created_eq_some_iff {handler : Handler} {response : Response} :
    handler.created = some response ↔ handler.answer = some response ∧ response.status = 201 := by
  simp [created, Option.filter_eq_some_iff]

theorem seq_of_outcome {handler : Handler} {v : Value} (h : handler.outcome = some (.ok v)) :
    handler.seq = receiptSeq v := by
  rw [seq, h]

theorem exists_of_seq {handler : Handler} {n : UInt64} (h : handler.seq = some n) :
    ∃ v, handler.outcome = some (.ok v) ∧ receiptSeq v = some n := by
  rw [Handler.seq] at h
  split at h
  · next v hv => exact ⟨v, hv, h⟩
  · simp at h

end Handler

@[simp]
theorem Service.outcome_afterAppend [SerdeJson] (service : Service)
    (outcome : Except StoreError Value) :
    (service.afterAppend outcome).outcome = some outcome := by
  rw [Service.afterAppend]
  split <;> rfl

theorem Service.answer_afterAppend [SerdeJson] {service : Service}
    {outcome : Except StoreError Value} {response : Response}
    (h : (service.afterAppend outcome).answer = some response) :
    respond outcome = some response := by
  rw [Service.afterAppend] at h
  split at h
  · simp [Handler.answer] at h
  · exact h

/-- A commit whose write reaches the journal whole or not at all. -/
def Action.Atomic : Action → Prop
  | .commit _ _ _ (.failed kept _) => kept = 0
  | _ => True

/-- A start without a line in the journal. -/
def Fresh (journal : Option JournalFile) : Prop :=
  ∀ bytes, journal = some (some bytes) → bytes = []

theorem open_fresh [SerdeJson] {journal : Option JournalFile} {store : LogStore}
    (hfresh : Fresh journal) (hopen : LogStore.open journal = some (.ok store)) :
    store.entries = [] ∧ store.journal = journal.map fun _ => [] := by
  rcases journal with - | - | bytes
  · obtain rfl : _ = store := by simpa [LogStore.open] using hopen
    exact ⟨rfl, rfl⟩
  · obtain rfl : _ = store := by simpa [LogStore.open] using hopen
    exact ⟨rfl, rfl⟩
  · obtain rfl := hfresh bytes rfl
    obtain rfl : _ = store := by
      simpa [LogStore.open, LogStore.replay, Text.lines_nil] using hopen
    exact ⟨rfl, rfl⟩

/-- The JSON of a receipt of the store. -/
def AppState.Receipted (app : AppState) (v : Value) : Prop :=
  ∃ seq receipt,
    Receipt.of app.store seq app.operator.logId app.operator.key = some (some receipt) ∧
      v = receipt.toJson app.operator.info

namespace AppState

variable {app app' : AppState} {v : Value}

/-- A receipt's JSON carries the number it is the receipt of. -/
theorem receiptSeq_toJson (app : AppState) (hvalid : app.store.Valid) {seq : UInt64}
    {receipt : Receipt}
    (hreceipt : Receipt.of app.store seq app.operator.logId app.operator.key =
      some (some receipt)) (operatorInfo : Value) :
    receiptSeq (receipt.toJson operatorInfo) = some seq := by
  obtain ⟨record, slot, hrecord, -, hfields⟩ := hvalid.exists_of_receipt hreceipt
  have hnumber : receipt.record.seq = seq := by
    rw [hfields, hvalid.seq_eq _ record hrecord, UInt64.ofNat_toNat]
  rw [receiptSeq, Receipt.toJson, hnumber, Value.get_ofFields]
  simp only [List.reverse_cons, List.reverse_nil, List.nil_append, List.cons_append,
    Json.lookup_cons]
  simp [Value.asU64, Json.Number.asU64]

/-- A receipt's JSON carries the number of an entry, and is what a read of that
number finds in every longer log. -/
theorem Receipted.exists_seq (hvalid : app.store.Valid) (h : app.Receipted v) :
    ∃ seq, receiptSeq v = some seq ∧ seq.toNat < app.store.entries.length ∧
      ∀ {app' : AppState}, app'.store.Valid → app'.operator = app.operator →
        app.store.entries <+: app'.store.entries → ∃ receipt,
          Receipt.of app'.store seq app'.operator.logId app'.operator.key =
            some (some receipt) ∧ v = receipt.toJson app'.operator.info := by
  obtain ⟨seq, receipt, hreceipt, rfl⟩ := h
  obtain ⟨record, slot, hrecord, -⟩ := hvalid.exists_of_receipt hreceipt
  obtain ⟨hseq, -⟩ := List.getElem?_eq_some_iff.mp hrecord
  refine ⟨seq, receiptSeq_toJson app hvalid hreceipt _, hseq, ?_⟩
  intro app' hvalid' hoperator hinitial
  refine ⟨receipt, ?_, by rw [hoperator]⟩
  rw [hoperator, hvalid.receipt_eq_of_isPrefix hvalid' hinitial hseq, hreceipt]

theorem Receipted.mono (hvalid : app.store.Valid) (hvalid' : app'.store.Valid)
    (hoperator : app'.operator = app.operator)
    (hinitial : app.store.entries <+: app'.store.entries) (h : app.Receipted v) :
    app'.Receipted v := by
  obtain ⟨seq, -, -, hread⟩ := h.exists_seq hvalid
  obtain ⟨receipt, hreceipt, hv⟩ := hread hvalid' hoperator hinitial
  exact ⟨seq, receipt, hreceipt, hv⟩

end AppState

namespace System

variable [SerdeJson] {s s' : System}

/-- The entries and the journal's lines are the records of the appends in their
order, a commit holds the receipt of an entry, the numbers increase from commit to
commit, and what is answered with 201 is the outcome of an append. -/
structure Linear (journal : Option JournalFile) (s : System) : Prop where
  entries : s.service.store.entries = s.sequenced
  journal : s.service.store.journal = journal.map fun _ => lineCodec.written s.sequenced
  receipts : ∀ handler ∈ s.handlers, ∀ v, handler.outcome = some (.ok v) → s.service.Receipted v
  ordered : (s.handlers.map Handler.seq).Pairwise fun a b => ∀ m ∈ a, ∀ n ∈ b, m < n
  answers : ∀ handler ∈ s.handlers, ∀ response, handler.created = some response →
    ∃ v, handler.outcome = some (.ok v) ∧ jsonResponse 201 v = some response

/-- A handler that comes without a number and is not answered with 201. -/
theorem Linear.push {journal : Option JournalFile} (h : s.Linear journal) (handler : Handler)
    (houtcome : ∀ v, handler.outcome ≠ some (.ok v))
    (hanswer : ∀ response, handler.answer = some response → response.status ≠ 201) :
    (s.push handler).Linear journal where
  entries := h.entries
  journal := h.journal
  receipts other hother v hv := by
    rcases mem_push hother with hold | rfl
    · exact h.receipts other hold v hv
    · exact absurd hv (houtcome v)
  ordered := by
    have hnone : handler.seq = none := by
      rw [Handler.seq]
      split
      · next v hv => exact absurd hv (houtcome v)
      · rfl
    rw [System.push, List.map_append, List.pairwise_append]
    exact ⟨h.ordered, by simp, by simp [hnone]⟩
  answers other hother response hresponse := by
    rcases mem_push hother with hold | rfl
    · exact h.answers other hold response hresponse
    · obtain ⟨hanswered, hstatus⟩ := Handler.created_eq_some_iff.mp hresponse
      exact absurd hstatus (hanswer response hanswered)

/-- A commit that comes with the receipt of the last entry. -/
theorem Linear.push_receipt {journal : Option JournalFile} (h : s.Linear journal)
    {handler : Handler} {v : Value} (houtcome : handler.outcome = some (.ok v))
    (hreceipt : s.service.Receipted v)
    (hlast : ∀ other ∈ s.handlers, ∀ m ∈ other.seq, ∀ n ∈ receiptSeq v, m < n)
    (hanswer : ∀ response, handler.answer = some response → jsonResponse 201 v = some response) :
    (s.push handler).Linear journal where
  entries := h.entries
  journal := h.journal
  receipts other hother w hw := by
    rcases mem_push hother with hold | rfl
    · exact h.receipts other hold w hw
    · obtain rfl : v = w := by simpa [houtcome] using hw
      exact hreceipt
  ordered := by
    have hseq := Handler.seq_of_outcome houtcome
    rw [System.push, List.map_append, List.pairwise_append]
    refine ⟨h.ordered, by simp, fun a ha b hb => ?_⟩
    obtain ⟨other, hother, rfl⟩ := List.mem_map.mp ha
    obtain rfl : b = handler.seq := by simpa using hb
    rw [hseq]
    exact hlast other hother
  answers other hother response hresponse := by
    rcases mem_push hother with hold | rfl
    · exact h.answers other hold response hresponse
    · exact ⟨v, houtcome, hanswer response (Handler.created_eq_some_iff.mp hresponse).1⟩

/-- A handler that moves on with the outcome it has. -/
theorem Linear.set {journal : Option JournalFile} (h : s.Linear journal) {i : ℕ}
    {old handler : Handler} (hi : s.handlers[i]? = some old)
    (houtcome : handler.outcome = old.outcome)
    (hanswer : ∀ response, handler.created = some response →
      ∃ v, handler.outcome = some (.ok v) ∧ jsonResponse 201 v = some response) :
    (s.set i handler).Linear journal where
  entries := h.entries
  journal := h.journal
  receipts other hother v hv := by
    rcases mem_set hother with hold | rfl
    · exact h.receipts other hold v hv
    · exact h.receipts old (List.mem_of_getElem? hi) v (houtcome ▸ hv)
  ordered := by
    have hseq : handler.seq = old.seq := by rw [Handler.seq, houtcome, Handler.seq]
    rw [map_set hi hseq]
    exact h.ordered
  answers other hother response hresponse := by
    rcases mem_set hother with hold | rfl
    · exact h.answers other hold response hresponse
    · exact hanswer response hresponse

/-- A store that has grown by a record. -/
theorem Linear.append (hjson : SerdeJson.Conforms) {journal : Option JournalFile}
    (hlinear : s.Linear journal) (hvalid : s.service.store.Valid) {request : AppendRequest}
    {outcome : WriteOutcome} {record : CommitRecord} {store : LogStore}
    (happend : s.service.store.append request outcome = some (.ok record, store)) :
    ({ s.withStore store with sequenced := s.sequenced ++ [record] } : System).Linear journal := by
  obtain ⟨rfl, hvalid', hentries, hjournal⟩ := hvalid.append hjson happend
  have hinitial : s.service.store.entries <+: store.entries := by
    rw [hentries]
    exact List.prefix_append _ _
  refine ⟨?_, ?_, fun handler hhandler v hv => ?_, hlinear.ordered, hlinear.answers⟩
  · exact hentries.trans (by rw [hlinear.entries])
  · refine hjournal.trans ?_
    rw [hlinear.journal, Option.map_map]
    simp only [Function.comp_def, Journal.Codec.written_concat]
  · exact (hlinear.receipts handler hhandler v hv).mono hvalid hvalid' rfl hinitial

/-- The numbers that were given are those of entries. -/
theorem Linear.lt_of_seq {journal : Option JournalFile} (hlinear : s.Linear journal)
    (hvalid : s.service.store.Valid) {handler : Handler} (hhandler : handler ∈ s.handlers)
    {n : UInt64} (hn : handler.seq = some n) : n.toNat < s.service.store.entries.length := by
  obtain ⟨v, hv, hn⟩ := Handler.exists_of_seq hn
  obtain ⟨seq, hseq, hlt, -⟩ := (hlinear.receipts handler hhandler v hv).exists_seq hvalid
  obtain rfl : seq = n := Option.some.inj (hseq.symm.trans hn)
  exact hlt

/-- A commit whose answer, if it has one, is the outcome of its append. -/
theorem Linear.set_commit {journal : Option JournalFile} (hlinear : s.Linear journal) {i : ℕ}
    {outcome : Except StoreError Value} {phase : CommitPhase} (phase' : CommitPhase)
    (hi : s.handlers[i]? = some (.commit outcome phase))
    (hanswer : ∀ r, phase' = .answered (some r) → respond outcome = some r) :
    (s.set i (.commit outcome phase')).Linear journal := by
  refine hlinear.set hi rfl fun response hresponse => ?_
  obtain ⟨hanswered, hstatus⟩ := Handler.created_eq_some_iff.mp hresponse
  cases phase' with
  | answered answer =>
      obtain rfl : answer = some response := hanswered
      obtain ⟨v, rfl, hv⟩ := exists_of_respond (hanswer response rfl) hstatus
      exact ⟨v, rfl, hv⟩
  | appended => simp [Handler.answer] at hanswered
  | submitting head => simp [Handler.answer] at hanswered

/-- A read is not answered with 201. -/
theorem status_of_get {service : Service} {request : Get} {response : Response}
    (h : service.get request = some response) : response.status ≠ 201 := by
  cases request with
  | discovery =>
      rw [status_of_jsonResponse h]
      decide
  | healthz =>
      obtain rfl := Option.some.inj h
      decide
  | consistency params =>
      simp only [Service.get, AppState.treeConsistency, Option.bind_eq_bind] at h
      split at h
      · simp [status_of_jsonResponse h]
      · simp [status_of_jsonResponse h]
      · split at h
        · simp [status_of_jsonResponse h]
        · split at h
          · simp [status_of_jsonResponse h]
          · simp only [Option.bind_eq_some_iff] at h
            obtain ⟨root, -, oldRoot, -, path, -, hjson⟩ := h
            simp [status_of_jsonResponse hjson]
  | receipt seq =>
      simp only [Service.get, AppState.receipt, Option.bind_eq_bind] at h
      split at h
      · simp [status_of_jsonResponse h]
      · obtain ⟨result, -, h⟩ := Option.bind_eq_some_iff.mp h
        split at h <;> simp [status_of_jsonResponse h]

theorem linear_init {config : Config} {journal : Option JournalFile} {service : Service}
    (hfresh : Fresh journal) (hnew : Service.new config journal = some (.ok service)) :
    (init service).Linear journal := by
  obtain ⟨-, hopen, -⟩ := Service.exists_of_new hnew
  obtain ⟨hentries, hjournal⟩ := open_fresh hfresh hopen
  exact ⟨hentries, hjournal.trans (by simp [init, Journal.Codec.written]), by simp [init],
    by simp [init], by simp [init]⟩

variable [ExternalAnchoring]

/-- Every step keeps the commits in line. -/
theorem Linear.step (hjson : SerdeJson.Conforms) {journal : Option JournalFile}
    (hlinear : s.Linear journal) (hvalid : s.service.store.Valid) {action : Action}
    (hatomic : action.Atomic) (hstep : s.step action = some s') : s'.Linear journal := by
  have hended : ∀ {t : System} {response : Option Response}, t.Linear journal →
      (∀ r, response = some r → r.status ≠ 201) → (t.push (.ended response)).Linear journal :=
    fun ht hresponse => ht.push _ (by simp [Handler.outcome]) hresponse
  have hpoison : ∀ {t : System}, t.Linear journal → t.poison.Linear journal :=
    fun ht => ⟨ht.entries, ht.journal, ht.receipts, ht.ordered, ht.answers⟩
  cases steps_of_step hvalid hstep with
  | refused hstatus => exact hended hlinear hstatus
  | overflowed happend => exact hended (hpoison hlinear) (by simp)
  | @failed _ _ _ _ _ e store happend =>
      obtain rfl : store = s.service.store := by
        rcases hvalid.append_cases hjson happend with ⟨hresult, -⟩ |
          ⟨bytes, kept, reason, rfl, hjournal, -, rfl⟩
        · simp at hresult
        · obtain rfl : kept = 0 := hatomic
          rw [List.take_zero, List.append_nil, ← hjournal]
      refine hlinear.push (s.service.afterAppend (.error e)) (by simp)
        fun response hresponse hstatus => ?_
      obtain ⟨v, hok, -⟩ := exists_of_respond (Service.answer_afterAppend hresponse) hstatus
      simp at hok
  | @sequenced _ _ _ _ request record store receipt happend hreceipt =>
      obtain ⟨-, hvalid', -⟩ := hvalid.append hjson happend
      obtain ⟨hseq, -⟩ := hvalid.getElem?_of_append hjson happend
      refine (hlinear.append hjson hvalid happend).push_receipt (Service.outcome_afterAppend _ _)
        ⟨_, receipt, hreceipt, rfl⟩ (fun other hother m hm n hn => ?_)
        fun response hresponse => Service.answer_afterAppend hresponse
      have hnumber := AppState.receiptSeq_toJson { s.service.toAppState with store }
        hvalid' hreceipt s.service.operator.info
      obtain rfl := Option.some.inj (hnumber.symm.trans hn)
      rw [UInt64.lt_iff_toNat_lt, hseq]
      exact hlinear.lt_of_seq hvalid hother hm
  | unprovable happend hnone =>
      exact hended (hpoison (hlinear.append hjson hvalid happend)) (by simp)
  | headless hi hhead hresponse =>
      exact hlinear.set_commit _ hi fun r hr => hresponse r (by simpa using hr)
  | @submitted i outcome head hi hhead =>
      have hmoved := hlinear.set_commit (.submitting head) hi (by simp)
      exact ⟨hmoved.entries, hmoved.journal, hmoved.receipts, hmoved.ordered, hmoved.answers⟩
  | dropped hi =>
      have hmoved := hlinear.set_commit (.answered none) hi (by simp)
      exact ⟨hmoved.entries, hmoved.journal, hmoved.receipts, hmoved.ordered, hmoved.answers⟩
  | @recorded i now reply outcome head tsaUrl record hi hsubmit =>
      have hmoved := hlinear.set_commit (.answered (respond outcome)) hi (by simp)
      exact ⟨hmoved.entries, hmoved.journal, hmoved.receipts, hmoved.ordered, hmoved.answers⟩
  | abandoned hi => exact hlinear.set_commit _ hi (by simp)
  | unread => exact hended hlinear (by simp)
  | read hhead => exact hlinear.push _ (by simp [Handler.outcome]) (by simp [Handler.answer])
  | shown hi =>
      refine hlinear.set hi rfl fun response hresponse => ?_
      obtain ⟨hanswered, hstatus⟩ := Handler.created_eq_some_iff.mp hresponse
      rw [status_of_jsonResponse (show jsonResponse 200 _ = some response from hanswered)]
        at hstatus
      simp at hstatus
  | served =>
      refine hlinear.push _ (by simp [Handler.outcome]) fun response hresponse => ?_
      simp only [Handler.answer] at hresponse
      split at hresponse
      · simp at hresponse
      · exact status_of_get hresponse

/-- Where signing does not fail and the log has room, the lock is not poisoned. -/
theorem poisoned_step (hjson : SerdeJson.Conforms) (hvalid : s.service.store.Valid)
    (hsign : ∀ bytes, ∃ slot, sign s.service.operator.key .treeHead bytes = .ok slot)
    (hroom : s.service.store.entries.length + 1 < 2 ^ 64) {action : Action}
    (hstep : s.step action = some s') : s'.poisoned = s.poisoned := by
  cases steps_of_step hvalid hstep with
  | @overflowed _ _ _ outcome request happend =>
      exact absurd happend (hvalid.append_ne_none hjson request outcome hroom)
  | @unprovable _ _ _ _ request _ store happend hnone =>
      obtain ⟨-, hvalid', -⟩ := hvalid.append hjson happend
      obtain ⟨-, hrecord⟩ := hvalid.getElem?_of_append hjson happend
      obtain ⟨receipt, hreceipt⟩ :=
        hvalid'.exists_receipt hsign s.service.operator.logId hrecord
      exact absurd hreceipt (hnone receipt)
  | _ => rfl

/-- Where signing does not fail, no run poisons the lock of a log with room. -/
theorem Sound.poisoned_run (hjson : SerdeJson.Conforms) (hsound : s.Sound)
    (hpoisoned : s.poisoned = false)
    (hsign : ∀ bytes, ∃ slot, sign s.service.operator.key .treeHead bytes = .ok slot)
    {actions : List Action} (hrun : s.run actions = some s')
    (hroom : s'.service.store.entries.length + 1 < 2 ^ 64) : s'.poisoned = false := by
  have hfull : s'.poisoned = true → 2 ^ 64 ≤ s'.service.store.entries.length + 1 := by
    have hkeeps := Transition.run_invariant (I := fun t => t.Sound ∧ s.Grows t ∧
      (t.poisoned = true → 2 ^ 64 ≤ t.service.store.entries.length + 1)) ?_
      ⟨hsound, .refl s, fun htrue => by simp [hpoisoned] at htrue⟩ hrun
    · exact hkeeps.2.2
    · rintro mid action next ⟨hmid, hgrows, hfull⟩ hstep
      obtain ⟨hnext, hgrows'⟩ := hmid.step hstep
      have hlen := hgrows'.entries.length_le
      refine ⟨hnext, hgrows.trans hgrows', fun htrue => ?_⟩
      by_cases hroom : mid.service.store.entries.length + 1 < 2 ^ 64
      · rw [poisoned_step hjson hmid.valid (by rwa [hgrows.operator]) hroom hstep] at htrue
        exact absurd hroom (Nat.not_lt.mpr (hfull htrue))
      · omega
  cases hcase : s'.poisoned with
  | false => rfl
  | true => exact absurd hroom (Nat.not_lt.mpr (hfull hcase))

/-- A 201 carries the number of the handler's append, and every later read of that
number is answered with the same receipt, unless the lock is poisoned. -/
theorem Linear.exists_seq (hjson : SerdeJson.Conforms) {journal : Option JournalFile}
    (hlinear : s.Linear journal) (hsound : s.Sound) (handler : Handler)
    (hhandler : handler ∈ s.handlers) (response : Response)
    (hcreated : handler.created = some response) :
    ∃ seq, handler.seq = some seq ∧ response.Carries seq ∧
      seq.toNat < s.service.store.entries.length ∧
        ∀ {more : List Action} {later : System} {text : String}, s.run more = some later →
          parseU64 (trim text.toList) = some seq →
            (later.get (.receipt text)).handlers = later.handlers ++
              [.served (.receipt text)
                (if later.poisoned then none else some { response with status := 200 })] := by
  obtain ⟨v, houtcome, hresponse⟩ := hlinear.answers handler hhandler response hcreated
  obtain ⟨seq, hseq, hlt, hread⟩ :=
    (hlinear.receipts handler hhandler v houtcome).exists_seq hsound.valid
  obtain ⟨receipt, -, hv⟩ := hread hsound.valid rfl List.prefix_rfl
  obtain ⟨hplain, hdepth⟩ := s.service.operator.plain_receipt receipt
  refine ⟨seq, (Handler.seq_of_outcome houtcome).trans hseq, ⟨v, ?_, hseq⟩, hlt, ?_⟩
  · rw [hv] at hresponse ⊢
    exact fromStr_body hjson hplain (by omega) hresponse
  · intro more later text hrun hparse
    obtain ⟨hlater, hgrows⟩ := hsound.run hrun
    obtain ⟨receipt, hreceipt, hv⟩ := hread hlater.valid hgrows.operator hgrows.entries
    have hserved : later.service.get (.receipt text) = some { response with status := 200 } := by
      have hsame : jsonResponse 200 v = some { response with status := 200 } := by
        rw [jsonResponse] at hresponse ⊢
        split at hresponse
        · simp at hresponse
        · obtain rfl := Option.some.inj hresponse
          rfl
      rw [Service.get, AppState.receipt, hparse]
      simp only [hreceipt, Option.bind_eq_bind, Option.bind_some, ← hv, hsame]
    rw [get_eq hlater.valid, hserved]
    simp [System.push, Service.locks, hparse]

/-- However the handlers interleave, behind a fresh start and with writes that
happen or do not, the entries and the journal are the records of the appends, each
with the number of its place; of two commits that are answered with 201 the one that
came first has the smaller number; and each such answer is what every later read of
its number gets, unless the lock is poisoned. It is not, while signing does not fail
and the log has room. -/
theorem commits_linearised (hjson : SerdeJson.Conforms) {config : Config}
    {journal : Option JournalFile} {service : Service} (hfresh : Fresh journal)
    (hnew : Service.new config journal = some (.ok service)) {actions : List Action}
    (hatomic : ∀ action ∈ actions, action.Atomic)
    (hrun : (init service).run actions = some s) :
    (s.service.store.entries = s.sequenced ∧
      (∀ (i : ℕ) (record : CommitRecord), s.sequenced[i]? = some record →
        record.seq.toNat = i) ∧
      s.service.store.journal = journal.map fun _ => lineCodec.written s.sequenced) ∧
    (∀ (i j : ℕ) (first second : Handler) (response response' : Response), i < j →
      s.handlers[i]? = some first → first.created = some response →
      s.handlers[j]? = some second → second.created = some response' →
        ∃ seq seq', response.Carries seq ∧ response'.Carries seq' ∧ seq < seq') ∧
    (∀ handler ∈ s.handlers, ∀ response, handler.created = some response →
      ∃ seq, response.Carries seq ∧ seq.toNat < s.sequenced.length ∧
        ∀ (more : List Action) (later : System) (text : String), s.run more = some later →
          parseU64 (trim text.toList) = some seq →
            (later.get (.receipt text)).handlers = later.handlers ++
              [.served (.receipt text)
                (if later.poisoned then none else some { response with status := 200 })]) ∧
    ((∀ bytes, ∃ slot, sign service.operator.key .treeHead bytes = .ok slot) →
      s.service.store.entries.length + 1 < 2 ^ 64 → s.poisoned = false) := by
  obtain ⟨hsound, hlinear⟩ : s.Sound ∧ s.Linear journal := by
    refine Transition.run_keeps (I := fun t => t.Sound ∧ t.Linear journal) ?_
      ⟨sound_init hnew, linear_init hfresh hnew⟩ (Transition.along_of_forall hatomic) hrun
    rintro mid action next ⟨hmid, hline⟩ hallowed hstep
    exact ⟨(hmid.step hstep).1, hline.step hjson hmid.valid hallowed hstep⟩
  have hexists := hlinear.exists_seq hjson hsound
  refine ⟨⟨hlinear.entries, fun i record hi => ?_, hlinear.journal⟩,
    fun i j first second response response' hij hi hcreated hj hcreated' => ?_,
    fun handler hhandler response hcreated => ?_, fun hsign hroom => ?_⟩
  · rw [← hlinear.entries] at hi
    obtain ⟨hlt, -⟩ := List.getElem?_eq_some_iff.mp hi
    have hroom := hsound.valid.length_lt
    rw [hsound.valid.seq_eq i record hi, UInt64.toNat_ofNat', Nat.mod_eq_of_lt (by omega)]
  · obtain ⟨m, hm, hcarries, -⟩ := hexists first (List.mem_of_getElem? hi) response hcreated
    obtain ⟨n, hn, hcarries', -⟩ := hexists second (List.mem_of_getElem? hj) response' hcreated'
    refine ⟨m, n, hcarries, hcarries', ?_⟩
    obtain ⟨hilt, rfl⟩ := List.getElem?_eq_some_iff.mp hi
    obtain ⟨hjlt, rfl⟩ := List.getElem?_eq_some_iff.mp hj
    have hordered := List.pairwise_iff_getElem.mp hlinear.ordered i j (by simpa using hilt)
      (by simpa using hjlt) hij
    rw [List.getElem_map, List.getElem_map] at hordered
    exact hordered m hm n hn
  · obtain ⟨seq, -, hcarries, hlt, hread⟩ := hexists handler hhandler response hcreated
    exact ⟨seq, hcarries, hlinear.entries ▸ hlt, fun _ _ _ => hread⟩
  · exact (sound_init hnew).poisoned_run hjson rfl hsign hrun hroom

end System

end

/-- Two commits are answered with numbers in their order. -/
theorem Sample.commits_linearised_of_two :
    ∃ s response response' seq seq',
      (System.init (service none)).run
        [.commit none (body "dpp:1" (digest [1])) (1 : Fin 60) .written,
          .commit none (body "dpp:2" (digest [2])) (2 : Fin 60) .written] = some s ∧
      (s.handlers.map Handler.created) = [some response, some response'] ∧
      response.Carries seq ∧ response'.Carries seq' ∧ seq < seq' ∧ s.poisoned = false := by
  obtain ⟨one, v, hone, hup, -, -, -, hhandlers, -⟩ := (up_init none).commit (by decide)
    "dpp:1" (by decide) (by decide) (by decide) (digest [1]) 1
  obtain ⟨two, w, htwo, hup', -, -, -, hhandlers', -⟩ := hup.commit (by decide)
    "dpp:2" (by decide) (by decide) (by decide) (digest [2]) 2
  have hrun : (System.init (service none)).run
      [.commit none (body "dpp:1" (digest [1])) (1 : Fin 60) .written,
        .commit none (body "dpp:2" (digest [2])) (2 : Fin 60) .written] = some two := by
    rw [System.run, Transition.run_cons, hone, Option.bind_some, Transition.run_cons, htwo]
    rfl
  have hfresh : Fresh (some none) := by simp [Fresh]
  obtain ⟨-, hordered, -, hpoisoned⟩ := System.commits_linearised serdeJson_conforms hfresh
    (new_service none) (by simp [Action.Atomic]) hrun
  rw [hhandlers, Service.afterAppend_of_none rfl, Service.afterAppend_of_none hup.url] at hhandlers'
  obtain ⟨seq, seq', hcarries, hcarries', hlt⟩ := hordered 0 1 _ _ _ _ (by decide)
    (by rw [hhandlers']; rfl) rfl (by rw [hhandlers']; rfl) rfl
  exact ⟨two, _, _, seq, seq', hrun, by rw [hhandlers']; rfl, hcarries, hcarries', hlt,
    hpoisoned signs (by rw [hup'.length]; decide)⟩

end UnidppLog
