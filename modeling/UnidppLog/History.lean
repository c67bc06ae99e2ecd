/-
# Histories of a log service

Sessions on one journal file, each opened, appended to, and ended by a stop or
by a crash within an append. Every head that is handed out is kept with the
commitments under it, so that equivocation is a property of the state. A log
whose writes all start a line never equivocates: what its file can be opened as
is what it has acknowledged. A write behind a cut line loses that.
-/

import UnidppLog.Recovery
import UnidppLog.Receipt
import UnidppLog.Transition.Run

namespace UnidppLog

open Unidpp
open Journal (Recovers Replays Clean)
open Text (Terminated encode)

section

variable [Unidpp]

/-- A head that was handed out, and the commitments under it. -/
structure Issued where
  head : SignedTreeHead
  commitments : List Hash

/-- The service: its journal file, the store while it runs, and the heads handed
out so far. -/
structure Server where
  file : JournalFile
  running : Option LogStore
  issued : List Issued

/-- What can happen to the service. -/
inductive Event
  | start
  | append (request : AppendRequest)
  | head
  | receipt (seq : UInt64)
  | stop
  | crash (request : AppendRequest) (kept : ℕ)

/-- No two heads of one size differ in root or time, and a smaller head's
commitments are the first of a larger one's. -/
def Server.NoEquivocation (server : Server) : Prop :=
  ∀ i ∈ server.issued, ∀ j ∈ server.issued,
    (i.head.treeSize = j.head.treeSize →
      i.head.root = j.head.root ∧ i.head.timestamp = j.head.timestamp) ∧
      (i.head.treeSize ≤ j.head.treeSize → i.commitments <+: j.commitments)

/-- Hand out a head over the store. -/
def Server.issue (server : Server) (store : LogStore) (head : SignedTreeHead) : Server :=
  { server with
    issued := server.issued ++ [⟨head, store.commitments.take head.treeSize.toNat⟩] }

/-- No journal yet. -/
def Server.init : Server where
  file := none
  running := none
  issued := []

variable [SerdeJson] (logId : String) (operator : KeyPair)

namespace Server

/-- One event, or `none` where it cannot happen. An append is acknowledged with
its receipt, and a crash leaves some bytes of the line that was being written. -/
def step (server : Server) : Event → Option Server
  | .start => do
    if server.running.isSome then none
    match ← LogStore.open (some server.file) with
    | .error _ => none
    | .ok store => return { server with file := store.journal, running := some store }
  | .append request => do
    match ← (← server.running).append request .written with
    | (.error _, _) => none
    | (.ok record, store) =>
      let receipt ← (← Receipt.of store record.seq logId operator)
      return { server with file := store.journal, running := some store }.issue store
        receipt.treeHead
  | .head => do
    let store ← server.running
    let head ← (← currentHead store logId operator)
    return server.issue store head
  | .receipt seq => do
    let store ← server.running
    let receipt ← (← Receipt.of store seq logId operator)
    return server.issue store receipt.treeHead
  | .stop => do
    let _ ← server.running
    return { server with running := none }
  | .crash request kept => do
    let (_, store) ← (← server.running).append request (.failed kept "crash")
    return { server with file := store.journal, running := none }

/-- A run of events. -/
def run (server : Server) (events : List Event) : Option Server :=
  Transition.run (step logId operator) server events

/-- An event that writes, writes behind complete lines only. -/
def StartsLine (server : Server) : Event → Prop
  | .append _ => Terminated (server.file.getD [])
  | .crash _ kept => kept = 0 ∨ Terminated (server.file.getD [])
  | _ => True

/-- Every event of a run writes behind complete lines only. -/
def Aligned (server : Server) (events : List Event) : Prop :=
  Transition.Along (step logId operator) StartsLine server events

end Server

end

section

variable [Unidpp]

/-- The head is over the first of these records, at the time of the last of
them. -/
structure Issued.Under (issued : Issued) (entries : List CommitRecord) : Prop where
  pos : 0 < issued.head.treeSize.toNat
  timestamp_eq : (entries[issued.head.treeSize.toNat - 1]?).map CommitRecord.loggedAt =
    some issued.head.timestamp
  root_eq : issued.head.root = Rfc6962.mth scheme issued.commitments
  commitments_eq : issued.commitments =
    (entries.map CommitRecord.commitment).take issued.head.treeSize.toNat

theorem Issued.Under.le {issued : Issued} {entries : List CommitRecord}
    (h : issued.Under entries) : issued.head.treeSize.toNat ≤ entries.length := by
  obtain ⟨record, hrecord, -⟩ := Option.map_eq_some_iff.mp h.timestamp_eq
  obtain ⟨hlt, -⟩ := List.getElem?_eq_some_iff.mp hrecord
  have := h.pos
  omega

/-- A head says the same about a longer log. -/
theorem Issued.Under.mono {issued : Issued} {entries entries' : List CommitRecord}
    (h : issued.Under entries) (hinitial : entries <+: entries') : issued.Under entries' := by
  obtain ⟨more, rfl⟩ := hinitial
  have hpos := h.pos
  have hle := h.le
  refine ⟨hpos, ?_, h.root_eq, ?_⟩
  · rw [List.getElem?_append_left (by omega), h.timestamp_eq]
  · rw [List.map_append, List.take_append_of_le_length (by rwa [List.length_map]),
      h.commitments_eq]

/-- Heads over one log do not contradict each other. -/
theorem Server.noEquivocation_of_under {server : Server} {entries : List CommitRecord}
    (hunder : ∀ i ∈ server.issued, i.Under entries) : server.NoEquivocation := by
  intro i hi j hj
  have hi' := hunder i hi
  have hj' := hunder j hj
  constructor
  · intro hsize
    have hroot : i.commitments = j.commitments := by
      rw [hi'.commitments_eq, hj'.commitments_eq, hsize]
    have htime := hi'.timestamp_eq
    rw [hsize, hj'.timestamp_eq] at htime
    exact ⟨by rw [hi'.root_eq, hj'.root_eq, hroot], (Option.some.inj htime).symm⟩
  · intro hsize
    rw [hi'.commitments_eq, hj'.commitments_eq]
    exact List.take_prefix_take_left (UInt64.le_iff_toNat_le.mp hsize)

variable {logId : String} {operator : KeyPair}

theorem under_of_over {entries : List CommitRecord} {record : CommitRecord} {n : ℕ}
    (hlt : n + 1 < 2 ^ 64) (hrecord : entries[n]? = some record) {head : SignedTreeHead}
    (hhead : SignedTreeHead.over logId operator
      ((entries.map CommitRecord.commitment).take (n + 1)) record.loggedAt = some head) :
    Issued.Under ⟨head, (entries.map CommitRecord.commitment).take head.treeSize.toNat⟩
      entries := by
  obtain ⟨hn, -⟩ := List.getElem?_eq_some_iff.mp hrecord
  have hlen : ((entries.map CommitRecord.commitment).take (n + 1)).length = n + 1 := by
    rw [List.length_take, List.length_map]
    omega
  obtain ⟨slot, -, rfl⟩ := SignedTreeHead.over_eq_some_iff.mp hhead
  have hsize : (UInt64.ofNat (n + 1)).toNat = n + 1 := by
    rw [UInt64.toNat_ofNat', Nat.mod_eq_of_lt hlt]
  refine ⟨?_, ?_, ?_, rfl⟩ <;> simp only [hlen, hsize]
  · exact Nat.succ_pos n
  · rw [Nat.add_sub_cancel, hrecord]
    rfl

/-- The head in a receipt is over the store's records. -/
theorem LogStore.Valid.under_receipt {store : LogStore} (hvalid : store.Valid) {seq : UInt64}
    {receipt : Receipt} (hreceipt : Receipt.of store seq logId operator = some (some receipt)) :
    Issued.Under ⟨receipt.treeHead, store.commitments.take receipt.treeHead.treeSize.toNat⟩
      store.entries := by
  have hlt := hvalid.length_lt
  cases hrecord : store.entries[seq.toNat]? with
  | none => simp [receipt_eq_none hrecord] at hreceipt
  | some record =>
      obtain ⟨hseq, -⟩ := List.getElem?_eq_some_iff.mp hrecord
      rw [hvalid.receipt_eq logId operator hrecord, Option.some.injEq] at hreceipt
      have hhead := receipt_over_treeHead logId operator
        (store.commitments.take (seq.toNat + 1)) record
      rw [hreceipt, Option.map_some] at hhead
      exact under_of_over (by omega) hrecord hhead.symm

/-- The current head is over the store's records. -/
theorem LogStore.Valid.under_currentHead {store : LogStore} (hvalid : store.Valid)
    {head : SignedTreeHead} (hhead : currentHead store logId operator = some (some head)) :
    Issued.Under ⟨head, store.commitments.take head.treeSize.toNat⟩ store.entries := by
  rcases Nat.eq_zero_or_pos store.entries.length with hzero | hpos
  · simp [currentHead_empty (List.length_eq_zero_iff.mp hzero)] at hhead
  · obtain ⟨receipt, hreceipt, hcurrent⟩ :=
      hvalid.currentHead_eq_receipt logId operator hpos
    rw [hcurrent, Option.some.injEq, Option.map_eq_some_iff] at hhead
    obtain ⟨receipt, rfl, rfl⟩ := hhead
    exact hvalid.under_receipt hreceipt

end

section

variable [Unidpp] [SerdeJson] {logId : String} {operator : KeyPair}

namespace Server

theorem step_start_iff {server next : Server} :
    server.step logId operator .start = some next ↔
      server.running = none ∧ ∃ store, LogStore.open (some server.file) = some (.ok store) ∧
        next = { server with file := store.journal, running := some store } := by
  cases hrunning : server.running with
  | some store => simp [step, hrunning]
  | none =>
      simp only [step, hrunning, Option.isSome_none, Bool.false_eq_true, if_false,
        Option.bind_eq_bind, Option.bind_eq_some_iff, true_and]
      constructor
      · rintro ⟨result, hopen, hnext⟩
        cases result with
        | error e => simp at hnext
        | ok store => exact ⟨store, hopen, (Option.some.inj hnext).symm⟩
      · rintro ⟨store, hopen, rfl⟩
        exact ⟨_, hopen, rfl⟩

theorem step_append_iff {server next : Server} {request : AppendRequest} :
    server.step logId operator (.append request) = some next ↔
      ∃ store record store' receipt, server.running = some store ∧
        store.append request .written = some (.ok record, store') ∧
          Receipt.of store' record.seq logId operator = some (some receipt) ∧
            next = { server with file := store'.journal, running := some store' }.issue store'
              receipt.treeHead := by
  simp only [step, Option.bind_eq_bind, Option.bind_eq_some_iff]
  constructor
  · rintro ⟨store, hrunning, ⟨result, store'⟩, happend, hnext⟩
    cases result with
    | error e => simp at hnext
    | ok record =>
        simp only [Option.bind_eq_some_iff] at hnext
        obtain ⟨_, hreceipt, receipt, rfl, hnext⟩ := hnext
        exact ⟨store, record, store', receipt, hrunning, happend, hreceipt,
          (Option.some.inj hnext).symm⟩
  · rintro ⟨store, record, store', receipt, hrunning, happend, hreceipt, rfl⟩
    exact ⟨store, hrunning, _, happend, by simp [hreceipt]⟩

theorem step_head_iff {server next : Server} :
    server.step logId operator .head = some next ↔
      ∃ store head, server.running = some store ∧
        currentHead store logId operator = some (some head) ∧ next = server.issue store head := by
  simp only [step, Option.bind_eq_bind, Option.bind_eq_some_iff]
  constructor
  · rintro ⟨store, hrunning, _, hhead, head, rfl, hnext⟩
    exact ⟨store, head, hrunning, hhead, (Option.some.inj hnext).symm⟩
  · rintro ⟨store, head, hrunning, hhead, rfl⟩
    exact ⟨store, hrunning, _, hhead, head, rfl, rfl⟩

theorem step_receipt_iff {server next : Server} {seq : UInt64} :
    server.step logId operator (.receipt seq) = some next ↔
      ∃ store receipt, server.running = some store ∧
        Receipt.of store seq logId operator = some (some receipt) ∧
          next = server.issue store receipt.treeHead := by
  simp only [step, Option.bind_eq_bind, Option.bind_eq_some_iff]
  constructor
  · rintro ⟨store, hrunning, _, hreceipt, receipt, rfl, hnext⟩
    exact ⟨store, receipt, hrunning, hreceipt, (Option.some.inj hnext).symm⟩
  · rintro ⟨store, receipt, hrunning, hreceipt, rfl⟩
    exact ⟨store, hrunning, _, hreceipt, receipt, rfl, rfl⟩

theorem step_stop_iff {server next : Server} :
    server.step logId operator .stop = some next ↔
      ∃ store, server.running = some store ∧ next = { server with running := none } := by
  simp only [step, Option.bind_eq_bind, Option.bind_eq_some_iff]
  constructor
  · rintro ⟨store, hrunning, hnext⟩
    exact ⟨store, hrunning, (Option.some.inj hnext).symm⟩
  · rintro ⟨store, hrunning, rfl⟩
    exact ⟨store, hrunning, rfl⟩

theorem step_crash_iff {server next : Server} {request : AppendRequest} {kept : ℕ} :
    server.step logId operator (.crash request kept) = some next ↔
      ∃ store result torn, server.running = some store ∧
        store.append request (.failed kept "crash") = some (result, torn) ∧
          next = { server with file := torn.journal, running := none } := by
  simp only [step, Option.bind_eq_bind, Option.bind_eq_some_iff]
  constructor
  · rintro ⟨store, hrunning, ⟨result, torn⟩, happend, hnext⟩
    exact ⟨store, result, torn, hrunning, happend, (Option.some.inj hnext).symm⟩
  · rintro ⟨store, result, torn, hrunning, happend, rfl⟩
    exact ⟨store, hrunning, _, happend, rfl⟩

/-! ## The invariant -/

/-- The log of these records: every head is over them, the running store has
them, and the file opens as nothing else. -/
structure Holds (server : Server) (entries : List CommitRecord) : Prop where
  issued : ∀ i ∈ server.issued, i.Under entries
  running : ∀ store, server.running = some store →
    store.Valid ∧ store.entries = entries ∧ store.journal = server.file ∧ server.file ≠ none
  recovers : ∀ entries',
    Recovers lineCodec inSequence (server.file.getD []) entries' → entries' = entries

theorem holds_init : Holds .init [] where
  issued i hi := by simp [init] at hi
  running store hstore := by simp [init] at hstore
  recovers entries' h := h.unique Journal.clean_nil.recovers

/-- A head over the log is added to those over it. -/
theorem Holds.issue {server : Server} {entries : List CommitRecord} (h : server.Holds entries)
    {store : LogStore} {head : SignedTreeHead}
    (hunder : Issued.Under ⟨head, store.commitments.take head.treeSize.toNat⟩ entries) :
    (server.issue store head).Holds entries where
  issued i hi := by
    rcases List.mem_append.mp hi with hold | hnew
    · exact h.issued i hold
    · rw [List.mem_singleton.mp hnew]
      exact hunder
  running := h.running
  recovers := h.recovers

/-- Behind complete lines that open as nothing else, what is written of a record's
line opens as nothing else either. -/
theorem recovers_part_unique (hforms : RecordTextForms) (hjson : SerdeJson.Conforms)
    {bytes part : List UInt8} {entries entries' : List CommitRecord} {record : CommitRecord}
    (hterm : Terminated bytes) (hseq : inSequence entries record)
    (hrecovers : ∀ entries', Recovers lineCodec inSequence bytes entries' → entries' = entries)
    (hpart : part <+: lineCodec.line record)
    (h : Recovers lineCodec inSequence (bytes ++ part) entries') :
    entries' = entries ++ if lineCodec.bytes record <+: part then [record] else [] := by
  have hlaw := lineCodec_lawful hforms hjson
  rcases eq_or_ne part [] with rfl | hne
  · have hnot : ¬ lineCodec.bytes record <+: [] := by
      rw [List.prefix_nil, Journal.Codec.bytes, Text.encode_eq_nil_iff]
      exact hlaw.text_ne_nil record
    rw [List.append_nil] at h
    rw [if_neg hnot, List.append_nil, hrecovers entries' h]
  · obtain ⟨entries₁, texts, hclean, -⟩ := (Journal.recovers_append_iff hterm hne).mp h
    rw [hrecovers entries₁ hclean.recovers] at hclean
    cases hdecode : Text.decode part with
    | none => exact absurd h (Journal.not_recovers_of_decode_eq_none hlaw hterm hpart hdecode _)
    | some cs =>
        exact h.unique
          (hclean.recovers_part hlaw hseq hpart (Text.decode_eq_some_iff.mp hdecode))

variable {server next : Server} {entries : List CommitRecord}

theorem Holds.start (h : server.Holds entries)
    (hstep : server.step logId operator .start = some next) : next.Holds entries := by
  obtain ⟨-, store, hopen, rfl⟩ := step_start_iff.mp hstep
  obtain ⟨hrecovers, hvalid, hjournal⟩ := LogStore.recovers_of_open hopen
  refine ⟨h.issued, fun store' hstore => ?_, fun entries' hfile => ?_⟩
  · obtain rfl := Option.some.inj hstore
    exact ⟨hvalid, h.recovers _ hrecovers, rfl, by simp [hjournal]⟩
  · refine h.recovers entries' ?_
    simpa [hjournal] using hfile

/-- The bytes of the running store's journal. -/
theorem Holds.exists_bytes (h : server.Holds entries) {store : LogStore}
    (hrunning : server.running = some store) :
    store.Valid ∧ store.entries = entries ∧ ∃ bytes, server.file = some bytes ∧
      store.journal = some bytes := by
  obtain ⟨hvalid, hentries, hjournal, hne⟩ := h.running store hrunning
  obtain ⟨bytes, hbytes⟩ := Option.ne_none_iff_exists'.mp hne
  exact ⟨hvalid, hentries, bytes, hbytes, hjournal.trans hbytes⟩

theorem Holds.append (hforms : RecordTextForms) (hjson : SerdeJson.Conforms)
    (h : server.Holds entries) {request : AppendRequest}
    (hline : server.StartsLine (.append request))
    (hstep : server.step logId operator (.append request) = some next) :
    ∃ record, next.Holds (entries ++ [record]) := by
  obtain ⟨store, record, store', receipt, hrunning, happend, hreceipt, rfl⟩ :=
    step_append_iff.mp hstep
  obtain ⟨hvalid, rfl, bytes, hfile, hjournal⟩ := h.exists_bytes hrunning
  obtain ⟨rfl, hvalid', hentries, hjournal'⟩ := hvalid.append hjson happend
  rw [hjournal, Option.map_some] at hjournal'
  rw [StartsLine, hfile] at hline
  have hrecovers := h.recovers
  rw [hfile] at hrecovers
  refine ⟨store.nextRecord request, Holds.issue ⟨fun i hi => ?_, fun running hrunning' => ?_,
    fun entries' h' => ?_⟩ (hentries ▸ hvalid'.under_receipt hreceipt)⟩
  · exact (h.issued i hi).mono (List.prefix_append _ _)
  · obtain rfl := Option.some.inj hrunning'
    exact ⟨hvalid', hentries, rfl, by simp [hjournal']⟩
  · simp only [hjournal', Option.getD_some] at h'
    have hunique := recovers_part_unique hforms hjson hline
      (LogStore.inSequence_nextRecord store request) hrecovers List.prefix_rfl h'
    rwa [if_pos (by simp [Journal.Codec.line])] at hunique

theorem Holds.crash (hforms : RecordTextForms) (hjson : SerdeJson.Conforms)
    (h : server.Holds entries) {request : AppendRequest} {kept : ℕ}
    (hline : server.StartsLine (.crash request kept))
    (hstep : server.step logId operator (.crash request kept) = some next) :
    ∃ entries', entries <+: entries' ∧ next.Holds entries' := by
  obtain ⟨store, result, torn, hrunning, happend, rfl⟩ := step_crash_iff.mp hstep
  obtain ⟨hvalid, rfl, bytes, hfile, hjournal⟩ := h.exists_bytes hrunning
  rw [LogStore.append_failed hjson hjournal, Option.some.injEq, Prod.mk.injEq] at happend
  obtain ⟨-, rfl⟩ := happend
  have hrecovers := h.recovers
  rw [hfile] at hrecovers
  rcases hline with rfl | hterm
  · refine ⟨store.entries, List.prefix_rfl, h.issued, by simp, fun entries' h' => ?_⟩
    exact hrecovers entries' (by simpa using h')
  · rw [hfile] at hterm
    have hunique := fun entries' (h' : Recovers lineCodec inSequence (bytes ++ _) entries') =>
      recovers_part_unique hforms hjson hterm (LogStore.inSequence_nextRecord store request)
        hrecovers (List.take_prefix kept (lineCodec.line (store.nextRecord request))) h'
    exact ⟨_, List.prefix_append _ _,
      fun i hi => (h.issued i hi).mono (List.prefix_append _ _), by simp, hunique⟩

/-- An event that writes behind complete lines only extends the log. -/
theorem Holds.step (hforms : RecordTextForms) (hjson : SerdeJson.Conforms)
    (h : server.Holds entries) {event : Event} (hline : server.StartsLine event)
    (hstep : server.step logId operator event = some next) :
    ∃ entries', entries <+: entries' ∧ next.Holds entries' := by
  cases event with
  | start => exact ⟨entries, List.prefix_rfl, h.start hstep⟩
  | append request =>
      obtain ⟨record, hnext⟩ := h.append hforms hjson hline hstep
      exact ⟨_, List.prefix_append _ _, hnext⟩
  | head =>
      obtain ⟨store, head, hrunning, hhead, rfl⟩ := step_head_iff.mp hstep
      obtain ⟨hvalid, rfl, -⟩ := h.running store hrunning
      exact ⟨_, List.prefix_rfl, h.issue (hvalid.under_currentHead hhead)⟩
  | receipt seq =>
      obtain ⟨store, receipt, hrunning, hreceipt, rfl⟩ := step_receipt_iff.mp hstep
      obtain ⟨hvalid, rfl, -⟩ := h.running store hrunning
      exact ⟨_, List.prefix_rfl, h.issue (hvalid.under_receipt hreceipt)⟩
  | stop =>
      obtain ⟨store, -, rfl⟩ := step_stop_iff.mp hstep
      exact ⟨entries, List.prefix_rfl, h.issued, by simp, h.recovers⟩
  | crash request kept => exact h.crash hforms hjson hline hstep

theorem Holds.run (hforms : RecordTextForms) (hjson : SerdeJson.Conforms)
    (h : server.Holds entries) {events : List Event}
    (haligned : server.Aligned logId operator events) {last : Server}
    (hrun : server.run logId operator events = some last) :
    ∃ entries', entries <+: entries' ∧ last.Holds entries' := by
  refine Transition.run_keeps (I := fun s => ∃ entries', entries <+: entries' ∧ s.Holds entries')
    ?_ ⟨entries, List.prefix_rfl, h⟩ haligned hrun
  rintro mid event next ⟨entries₁, hinitial, h₁⟩ hline hstep
  obtain ⟨entries', hinitial', h'⟩ := h₁.step hforms hjson hline hstep
  exact ⟨entries', hinitial.trans hinitial', h'⟩

/-- A run whose every write starts a line does not equivocate. -/
theorem noEquivocation_of_aligned (hforms : RecordTextForms) (hjson : SerdeJson.Conforms)
    {events : List Event} {last : Server}
    (hrun : init.run logId operator events = some last)
    (haligned : init.Aligned logId operator events) : last.NoEquivocation := by
  obtain ⟨entries, -, h⟩ := holds_init.run hforms hjson haligned hrun
  exact noEquivocation_of_under h.issued

/-! ## A torn line makes it equivocate -/

/-- An append that is acknowledged, with the size and the time in its receipt's
head. -/
theorem exists_step_append (logId : String) (server : Server) (hjson : SerdeJson.Conforms)
    (hsign : ∀ bytes, ∃ slot, sign operator .treeHead bytes = .ok slot) {store : LogStore}
    (hrunning : server.running = some store) (hvalid : store.Valid) (request : AppendRequest)
    (hroom : store.entries.length + 1 < 2 ^ 64) :
    ∃ store' head next,
      store.append request .written = some (.ok (store.nextRecord request), store') ∧
      server.step logId operator (.append request) = some next ∧
        next = { server with file := store'.journal, running := some store' }.issue store' head ∧
        head.treeSize = UInt64.ofNat (store.entries.length + 1) ∧
          head.timestamp = request.loggedAt := by
  obtain ⟨store', happend⟩ := hvalid.exists_append hjson request hroom
  obtain ⟨-, hvalid', hentries, -⟩ := hvalid.append hjson happend
  have hseq : (store.nextRecord request).seq.toNat = store.entries.length := by
    rw [LogStore.nextRecord, UInt64.toNat_ofNat', Nat.mod_eq_of_lt (by omega)]
  have hrecord : store'.entries[(store.nextRecord request).seq.toNat]? =
      some (store.nextRecord request) := by
    rw [hseq, hentries, List.getElem?_concat_length]
  have hreceipt := hvalid'.receipt_eq logId operator hrecord
  set leaves := store'.commitments.take (store.entries.length + 1) with hleaves
  have hlen : leaves.length = store.entries.length + 1 := by
    simp [hleaves, LogStore.commitments, hentries]
  obtain ⟨slot, hslot⟩ := hsign (canonicalBytes logId (UInt64.ofNat leaves.length)
    (store.nextRecord request).loggedAt (Rfc6962.mth scheme leaves))
  rw [hseq, ← hleaves, Receipt.over, SignedTreeHead.over_eq_some_iff.mpr ⟨slot, hslot, rfl⟩,
    Option.map_some] at hreceipt
  exact ⟨store', _, _, happend,
    step_append_iff.mpr ⟨store, _, store', _, hrunning, happend, hreceipt, rfl⟩, rfl,
    congrArg UInt64.ofNat hlen, rfl⟩

/-- The sizes and times of the heads that were handed out. -/
def shown (server : Server) : List (UInt64 × Timestamp) :=
  server.issued.map fun i => (i.head.treeSize, i.head.timestamp)

/-- The server runs this store, on a journal that holds the lines of its entries. -/
structure Runs (server : Server) (store : LogStore) (bytes : List UInt8) : Prop where
  running : server.running = some store
  file : server.file = some bytes
  journal : store.journal = some bytes
  valid : store.Valid
  clean : Clean lineCodec inSequence bytes store.entries

variable {store : LogStore} {bytes : List UInt8}

/-- A journal of complete lines opens to their records. -/
theorem exists_runs_of_start (logId : String) (operator : KeyPair) (server : Server)
    (hrunning : server.running = none) (hfile : server.file = some bytes)
    (hjournal : store.journal = some bytes) (hvalid : store.Valid)
    (hclean : Clean lineCodec inSequence bytes store.entries) :
    ∃ next, server.step logId operator .start = some next ∧ next.Runs store bytes ∧
      next.shown = server.shown := by
  have hopen : LogStore.open (some server.file) = some (.ok store) := by
    rw [hfile]
    exact LogStore.open_eq_ok_iff.mpr ⟨hclean.recovers, hvalid, hjournal⟩
  exact ⟨_, step_start_iff.mpr ⟨hrunning, store, hopen, rfl⟩,
    ⟨rfl, hjournal, hjournal, hvalid, hclean⟩, rfl⟩

theorem Runs.exists_append (hforms : RecordTextForms) (hjson : SerdeJson.Conforms)
    (hsign : ∀ bytes, ∃ slot, sign operator .treeHead bytes = .ok slot) (logId : String)
    (h : server.Runs store bytes) (request : AppendRequest)
    (hroom : store.entries.length + 1 < 2 ^ 64) :
    ∃ store' next, server.step logId operator (.append request) = some next ∧
      next.Runs store' (bytes ++ lineCodec.line (store.nextRecord request)) ∧
      store'.entries = store.entries ++ [store.nextRecord request] ∧
      next.shown =
        server.shown ++ [(UInt64.ofNat (store.entries.length + 1), request.loggedAt)] := by
  obtain ⟨store', head, next, happend, hstep, rfl, hsize, htime⟩ :=
    exists_step_append logId server hjson hsign h.running h.valid request hroom
  obtain ⟨-, hvalid, hentries, hjournal⟩ := h.valid.append hjson happend
  rw [h.journal, Option.map_some] at hjournal
  have hclean := h.clean.append (lineCodec_lawful hforms hjson)
    (LogStore.inSequence_nextRecord store request)
  refine ⟨store', _, hstep, ⟨rfl, hjournal, hjournal, hvalid, ?_⟩, hentries, ?_⟩
  · rwa [hentries]
  · rw [shown, issue, List.map_append, List.map_singleton, hsize, htime]
    rfl

/-- A crash that leaves nothing of the line, and the next start. -/
theorem Runs.exists_crash_none (hjson : SerdeJson.Conforms) (logId : String)
    (operator : KeyPair) (h : server.Runs store bytes) (request : AppendRequest) :
    ∃ mid next, server.step logId operator (.crash request 0) = some mid ∧
      mid.step logId operator .start = some next ∧ next.Runs store bytes ∧
      next.shown = server.shown := by
  have happend := LogStore.append_failed hjson h.journal request 0 "crash"
  rw [List.take_zero, List.append_nil] at happend
  obtain ⟨next, hstart, hruns, hshown⟩ := exists_runs_of_start logId operator
    { server with file := some bytes, running := none } rfl rfl h.journal h.valid h.clean
  exact ⟨_, next, step_crash_iff.mpr ⟨store, _, _, h.running, happend, rfl⟩, hstart, hruns, hshown⟩

/-- A crash that leaves all of the line, and the next start, which has the record. -/
theorem Runs.exists_crash_whole (hforms : RecordTextForms) (hjson : SerdeJson.Conforms)
    (logId : String) (operator : KeyPair) (h : server.Runs store bytes) (request : AppendRequest)
    (hroom : store.entries.length + 1 < 2 ^ 64) (kept : ℕ)
    (hkept : (lineCodec.line (store.nextRecord request)).length ≤ kept) :
    ∃ store' mid next, server.step logId operator (.crash request kept) = some mid ∧
      mid.step logId operator .start = some next ∧
      next.Runs store' (bytes ++ lineCodec.line (store.nextRecord request)) ∧
      store'.entries = store.entries ++ [store.nextRecord request] ∧
      next.shown = server.shown := by
  have hfailed := LogStore.append_failed hjson h.journal request kept "crash"
  rw [List.take_of_length_le hkept] at hfailed
  obtain ⟨store', happend⟩ := h.valid.exists_append hjson request hroom
  obtain ⟨-, hvalid, hentries, hjournal⟩ := h.valid.append hjson happend
  rw [h.journal, Option.map_some] at hjournal
  have hclean := h.clean.append (lineCodec_lawful hforms hjson)
    (LogStore.inSequence_nextRecord store request)
  rw [← hentries] at hclean
  obtain ⟨next, hstart, hruns, hshown⟩ := exists_runs_of_start logId operator
    { server with
      file := some (bytes ++ lineCodec.line (store.nextRecord request)), running := none }
    rfl rfl hjournal hvalid hclean
  exact ⟨store', _, next, step_crash_iff.mpr ⟨store, _, _, h.running, hfailed, rfl⟩, hstart, hruns,
    hentries, hshown⟩

/-- A head over the store is added to those that were shown. -/
theorem Runs.issue (h : server.Runs store bytes) (head : SignedTreeHead) :
    (server.issue store head).Runs store bytes ∧
      (server.issue store head).shown = server.shown ++ [(head.treeSize, head.timestamp)] := by
  refine ⟨⟨h.running, h.file, h.journal, h.valid, h.clean⟩, ?_⟩
  rw [shown, Server.issue, List.map_append]
  rfl

theorem Runs.exists_receipt (hsign : ∀ bytes, ∃ slot, sign operator .treeHead bytes = .ok slot)
    (logId : String) (h : server.Runs store bytes) (seq : UInt64) {record : CommitRecord}
    (hrecord : store.entries[seq.toNat]? = some record) :
    ∃ next, server.step logId operator (.receipt seq) = some next ∧ next.Runs store bytes ∧
      next.shown = server.shown ++ [(UInt64.ofNat (seq.toNat + 1), record.loggedAt)] := by
  obtain ⟨receipt, hreceipt⟩ := h.valid.exists_receipt hsign logId hrecord
  obtain ⟨record', slot, hrecord', -, rfl⟩ := h.valid.exists_of_receipt hreceipt
  obtain rfl := Option.some.inj (hrecord.symm.trans hrecord')
  obtain ⟨hruns, hshown⟩ := h.issue _
  exact ⟨_, step_receipt_iff.mpr ⟨store, _, h.running, hreceipt, rfl⟩, hruns, hshown⟩

theorem Runs.exists_head (hsign : ∀ bytes, ∃ slot, sign operator .treeHead bytes = .ok slot)
    (logId : String) (h : server.Runs store bytes) {record : CommitRecord}
    (hlast : store.entries.getLast? = some record) :
    ∃ next, server.step logId operator .head = some next ∧ next.Runs store bytes ∧
      next.shown = server.shown ++ [(UInt64.ofNat store.entries.length, record.loggedAt)] := by
  obtain ⟨slot, hslot⟩ := hsign (canonicalBytes logId (UInt64.ofNat store.commitments.length)
    record.loggedAt (Rfc6962.mth scheme store.commitments))
  have hhead : currentHead store logId operator = _ := h.valid.currentHead_eq hlast
  rw [SignedTreeHead.over_eq_some_iff.mpr ⟨slot, hslot, rfl⟩] at hhead
  refine ⟨_, step_head_iff.mpr ⟨store, _, h.running, hhead, rfl⟩, (h.issue _).1, ?_⟩
  rw [(h.issue _).2, store.length_commitments]

/-- A crash that leaves one byte, an append behind it, and an append after another start: two
heads of size one with different times. The crash leaves a brace, which the next start forgives;
the first record is run into it, and the start after that forgives both, so the second record
takes the first one's number. -/
theorem exists_equivocation (hforms : RecordTextForms) (hjson : SerdeJson.Conforms)
    (hsign : ∀ bytes, ∃ slot, sign operator .treeHead bytes = .ok slot)
    (torn first second : AppendRequest) (htime : first.loggedAt ≠ second.loggedAt) :
    ∃ last, init.run logId operator
        [.start, .crash torn 1, .start, .append first, .stop, .start, .append second] =
          some last ∧ ¬ last.NoEquivocation := by
  have hclean : Clean lineCodec inSequence [] [] := Journal.clean_nil
  let empty : LogStore := { tree := .new, entries := [], journal := some [] }
  have hcrash := LogStore.append_failed hjson (show empty.journal = some [] from rfl) torn 1 "crash"
  rw [take_one_line] at hcrash
  let cut : LogStore := { empty with journal := some ([] ++ encode ['{']) }
  have hcut : cut.Valid := LogStore.valid_empty _
  have hopen : LogStore.open (some cut.journal) = some (.ok cut) :=
    LogStore.open_eq_ok_iff.mpr ⟨recovers_brace hforms hjson hclean
      (LogStore.inSequence_nextRecord empty torn), hcut, rfl⟩
  obtain ⟨grown, head, running, happend, hstep, rfl, hsize, htime₁⟩ := exists_step_append logId
    ⟨cut.journal, some cut, []⟩ hjson hsign rfl hcut first (show 0 + 1 < 2 ^ 64 by decide)
  obtain ⟨lost, hlost, hnone⟩ := hcut.reopens_fused hforms hjson hclean (by decide)
    not_blank_brace rfl happend
  have hlen : lost.entries.length = 0 := by rw [hnone]; rfl
  obtain ⟨-, hvalid, -⟩ := LogStore.recovers_of_open hlost
  obtain ⟨store, head', last, -, hstep', hlast, hsize', htime₂⟩ := exists_step_append logId
    { Server.issue ⟨grown.journal, some grown, []⟩ grown head with
      file := lost.journal, running := some lost }
    hjson hsign rfl hvalid second (by rw [hlen]; decide)
  have hstart : init.step logId operator .start = some ⟨some [], some empty, []⟩ :=
    step_start_iff.mpr ⟨rfl, empty, LogStore.open_absent, rfl⟩
  have hone := Transition.run_one hstart
  have htwo := Transition.run_snoc hone (step_crash_iff.mpr ⟨empty, _, _, rfl, hcrash, rfl⟩)
  have hthree := Transition.run_snoc htwo (step_start_iff.mpr ⟨rfl, cut, hopen, rfl⟩)
  have hfour := Transition.run_snoc hthree hstep
  have hfive := Transition.run_snoc hfour (step_stop_iff.mpr ⟨grown, rfl, rfl⟩)
  have hsix := Transition.run_snoc hfive (step_start_iff.mpr ⟨rfl, lost, hlost, rfl⟩)
  refine ⟨last, Transition.run_snoc hsix hstep', ?_⟩
  intro hno
  have hissued : last.issued = [⟨head, grown.commitments.take head.treeSize.toNat⟩,
      ⟨head', store.commitments.take head'.treeSize.toNat⟩] := by
    rw [hlast]
    rfl
  rw [NoEquivocation, hissued] at hno
  obtain ⟨hsame, -⟩ := hno _ List.mem_cons_self _ (List.mem_cons_of_mem _ List.mem_cons_self)
  obtain ⟨-, htime'⟩ := hsame (by rw [hsize, hsize', hlen]; rfl)
  exact htime (by rw [← htime₁, ← htime₂, htime'])

end Server

end

namespace Sample

theorem exists_signature (bytes : List UInt8) :
    ∃ slot, sign operator .treeHead bytes = .ok slot :=
  ⟨_, rfl⟩

/-- Three sessions, with the times of the appends. The first ends in a crash that leaves nothing
of a line, the second in one that leaves all of it. -/
def threeSessions (first second third fourth : Fin 60) : List Event :=
  [.start, .append (request first "dpp:1"), .crash (request second "dpp:2") 0,
    .start, .append (request third "dpp:3"), .receipt 0, .crash (request fourth "dpp:4") 1000,
    .start, .receipt 1, .head]

/-- In three sessions two heads of size one are handed out, two of size two, and one over a
record that nobody was given a receipt for. -/
theorem aligned_run_noEquivocation :
    ∃ last, Server.init.run logId operator (threeSessions 1 2 3 4) = some last ∧
      last.shown = [(1, (1 : Fin 60)), (2, (3 : Fin 60)), (1, (1 : Fin 60)), (2, (3 : Fin 60)),
        (3, (4 : Fin 60))] ∧ last.NoEquivocation := by
  obtain ⟨s₁, hstep₁, h₁, hshown₁⟩ : ∃ next, Server.init.step logId operator .start = some next ∧
      next.Runs empty [] ∧ next.shown = [] :=
    ⟨_, Server.step_start_iff.mpr ⟨rfl, empty, open_empty, rfl⟩,
      ⟨rfl, rfl, rfl, valid_empty, clean_empty⟩, rfl⟩
  obtain ⟨one, s₂, hstep₂, h₂, hone, hshown₂⟩ := h₁.exists_append recordTextForms
    serdeJson_conforms exists_signature logId (request 1 "dpp:1") (by decide)
  have hlength₁ : one.entries.length = 1 := by rw [hone]; rfl
  obtain ⟨s₃, s₄, hstep₃, hstep₄, h₄, hshown₄⟩ :=
    h₂.exists_crash_none serdeJson_conforms logId operator (request 2 "dpp:2")
  obtain ⟨two, s₅, hstep₅, h₅, htwo, hshown₅⟩ := h₄.exists_append recordTextForms
    serdeJson_conforms exists_signature logId (request 3 "dpp:3") (by rw [hlength₁]; decide)
  have hlength₂ : two.entries.length = 2 := by rw [htwo, hone]; rfl
  obtain ⟨s₆, hstep₆, h₆, hshown₆⟩ := h₅.exists_receipt exists_signature logId 0
    (by rw [htwo, hone]; rfl)
  obtain ⟨three, s₇, s₈, hstep₇, hstep₈, h₈, hthree, hshown₈⟩ :=
    h₆.exists_crash_whole recordTextForms serdeJson_conforms logId operator
      (request 4 "dpp:4") (by rw [hlength₂]; decide) 1000
      (by rw [LogStore.nextRecord, hlength₂]; decide +kernel)
  have hlength₃ : three.entries.length = 3 := by rw [hthree, htwo, hone]; rfl
  obtain ⟨s₉, hstep₉, h₉, hshown₉⟩ := h₈.exists_receipt exists_signature logId 1
    (by rw [hthree, htwo, hone]; rfl)
  obtain ⟨last, hlast, -, hshown⟩ := h₉.exists_head exists_signature logId
    (by rw [hthree, List.getLast?_concat])
  have hrun₂ := Transition.run_snoc (Transition.run_one hstep₁) hstep₂
  have hrun₃ := Transition.run_snoc hrun₂ hstep₃
  have hrun₄ := Transition.run_snoc hrun₃ hstep₄
  have hrun₅ := Transition.run_snoc hrun₄ hstep₅
  have hrun₆ := Transition.run_snoc hrun₅ hstep₆
  have hrun₇ := Transition.run_snoc hrun₆ hstep₇
  have hrun₈ := Transition.run_snoc hrun₇ hstep₈
  have hrun₉ := Transition.run_snoc hrun₈ hstep₉
  have hrun : Server.init.run logId operator (threeSessions 1 2 3 4) = some last :=
    Transition.run_snoc hrun₉ hlast
  have haligned : Server.init.Aligned logId operator (threeSessions 1 2 3 4) := by
    rw [Server.Aligned, threeSessions, Transition.along_cons_iff hstep₁,
      Transition.along_cons_iff hstep₂, Transition.along_cons_iff hstep₃,
      Transition.along_cons_iff hstep₄, Transition.along_cons_iff hstep₅,
      Transition.along_cons_iff hstep₆, Transition.along_cons_iff hstep₇,
      Transition.along_cons_iff hstep₈, Transition.along_cons_iff hstep₉,
      Transition.along_cons_iff hlast]
    refine ⟨trivial, ?_, .inl rfl, trivial, ?_, trivial, .inr ?_, trivial, trivial, trivial,
      trivial⟩
    · rw [Server.StartsLine, h₁.file]
      exact h₁.clean.1
    · rw [Server.StartsLine, h₄.file]
      exact h₄.clean.1
    · rw [h₆.file]
      exact h₆.clean.1
  refine ⟨last, hrun, ?_,
    Server.noEquivocation_of_aligned recordTextForms serdeJson_conforms hrun haligned⟩
  rw [hshown, hshown₉, hshown₈, hshown₆, hshown₅, hshown₄, hshown₂, hshown₁, hlength₃, hlength₁]
  rfl

theorem torn_line_equivocates :
    ∃ last, Server.init.run logId operator
        [.start, .crash (request 0 "dpp:0") 1, .start, .append (request 1 "dpp:1"), .stop, .start,
          .append (request 2 "dpp:2")] = some last ∧ ¬ last.NoEquivocation :=
  Server.exists_equivocation recordTextForms serdeJson_conforms exists_signature _ _ _
    (show (1 : Fin 60) ≠ 2 by decide)

end Sample

end UnidppLog
