/-
# What every run keeps

A head that was read, submitted or recorded is in the receipt of an entry, and it
stays there, since the log only grows: two such heads of one size are one head. A
record in the slot is of such a head, and says anchored only where a reply was
accepted for it.
-/

import UnidppLog.Concurrency

namespace UnidppLog

open Json (Value)
open Unidpp

section

variable [Unidpp]

/-- A head that is in the receipt of an entry. -/
def AppState.Minted (app : AppState) (head : SignedTreeHead) : Prop :=
  ∃ seq receipt,
    Receipt.of app.store seq app.operator.logId app.operator.key = some (some receipt) ∧
      receipt.treeHead = head

namespace AppState

variable {app app' : AppState} {head head' : SignedTreeHead}

/-- A head that was minted is over the first of the entries, as many as it says. -/
theorem Minted.exists_seq (hvalid : app.store.Valid) (h : app.Minted head) :
    ∃ seq : UInt64, seq.toNat < app.store.entries.length ∧ head.treeSize.toNat = seq.toNat + 1 ∧
      ∃ receipt,
        Receipt.of app.store seq app.operator.logId app.operator.key = some (some receipt) ∧
          receipt.treeHead = head := by
  obtain ⟨seq, receipt, hreceipt, rfl⟩ := h
  obtain ⟨record, slot, hrecord, -, hfields⟩ := hvalid.exists_of_receipt hreceipt
  obtain ⟨hseq, -⟩ := List.getElem?_eq_some_iff.mp hrecord
  have hlt := hvalid.length_lt
  refine ⟨seq, hseq, ?_, receipt, hreceipt, rfl⟩
  rw [hfields, UInt64.toNat_ofNat', Nat.mod_eq_of_lt (by omega)]

theorem Minted.le (hvalid : app.store.Valid) (h : app.Minted head) :
    head.treeSize.toNat ≤ app.store.entries.length := by
  obtain ⟨seq, hseq, hsize, -⟩ := h.exists_seq hvalid
  omega

/-- Minted heads of one size are one head. -/
theorem Minted.unique (hvalid : app.store.Valid) (h : app.Minted head) (h' : app.Minted head')
    (hsize : head.treeSize = head'.treeSize) : head = head' := by
  obtain ⟨seq, -, hseq, receipt, hreceipt, rfl⟩ := h.exists_seq hvalid
  obtain ⟨seq', -, hseq', receipt', hreceipt', rfl⟩ := h'.exists_seq hvalid
  obtain rfl : seq = seq' := by
    rw [← UInt64.toNat_inj]
    rw [hsize] at hseq
    omega
  rw [hreceipt, Option.some.injEq, Option.some.injEq] at hreceipt'
  rw [hreceipt']

/-- Heads stay minted as the log grows. -/
theorem Minted.mono (hvalid : app.store.Valid) (hvalid' : app'.store.Valid)
    (hoperator : app'.operator = app.operator)
    (hinitial : app.store.entries <+: app'.store.entries) (h : app.Minted head) :
    app'.Minted head := by
  obtain ⟨seq, hseq, -, receipt, hreceipt, hhead⟩ := h.exists_seq hvalid
  refine ⟨seq, receipt, ?_, hhead⟩
  rw [hoperator, hvalid.receipt_eq_of_isPrefix hvalid' hinitial hseq, hreceipt]

/-- The current head is minted, and over all entries. -/
theorem minted_of_currentHead (hvalid : app.store.Valid)
    (hhead : currentHead app.store app.operator.logId app.operator.key = some (some head)) :
    app.Minted head ∧ head.treeSize.toNat = app.store.entries.length := by
  rcases Nat.eq_zero_or_pos app.store.entries.length with hzero | hpos
  · simp [currentHead_empty (List.length_eq_zero_iff.mp hzero)] at hhead
  · obtain ⟨receipt, hreceipt, hcurrent⟩ :=
      hvalid.currentHead_eq_receipt app.operator.logId app.operator.key hpos
    rw [hcurrent, Option.some.injEq, Option.map_eq_some_iff] at hhead
    obtain ⟨receipt, rfl, rfl⟩ := hhead
    have hminted : app.Minted receipt.treeHead := ⟨_, receipt, hreceipt, rfl⟩
    obtain ⟨record, slot, -, -, hfields⟩ := hvalid.exists_of_receipt hreceipt
    refine ⟨hminted, ?_⟩
    have hlt := hvalid.length_lt
    rw [hfields, hvalid.last_toNat hpos, UInt64.toNat_ofNat', Nat.mod_eq_of_lt (by omega)]
    omega

end AppState

/-- The head a handler carries. -/
def Handler.head : Handler → Option SignedTreeHead
  | .commit _ (.submitting head) => some head
  | .viewing head => head
  | .viewed head _ => head
  | _ => none

/-- The head that a handler has read and is yet to submit or to show. -/
def Handler.pending : Handler → Option SignedTreeHead
  | .commit _ (.submitting head) => some head
  | .viewing head => head
  | _ => none

namespace System

variable {s s' t : System}

/-- What a step leaves as it was, and what it only adds to. -/
structure Grows (s s' : System) : Prop where
  operator : s'.service.operator = s.service.operator
  externalTsaUrl : s'.service.externalTsaUrl = s.service.externalTsaUrl
  entries : s.service.store.entries <+: s'.service.store.entries
  sequenced : s.sequenced <+: s'.sequenced
  submitted : s.submitted <+: s'.submitted
  replies : s.replies <+: s'.replies
  poisoned : s.poisoned = true → s'.poisoned = true

theorem Grows.refl (s : System) : s.Grows s :=
  ⟨rfl, rfl, List.prefix_rfl, List.prefix_rfl, List.prefix_rfl, List.prefix_rfl, id⟩

theorem grows_handlers (s : System) (handlers : List Handler) : s.Grows { s with handlers } :=
  ⟨rfl, rfl, List.prefix_rfl, List.prefix_rfl, List.prefix_rfl, List.prefix_rfl, id⟩

theorem Grows.unpoisoned (h : s.Grows s') (hpoisoned : s'.poisoned = false) :
    s.poisoned = false := by
  by_contra hcon
  rw [h.poisoned (by simpa using hcon)] at hpoisoned
  exact Bool.noConfusion hpoisoned

theorem Grows.trans (h : s.Grows s') (h' : s'.Grows t) : s.Grows t where
  operator := h'.operator.trans h.operator
  externalTsaUrl := h'.externalTsaUrl.trans h.externalTsaUrl
  entries := h.entries.trans h'.entries
  sequenced := h.sequenced.trans h'.sequenced
  submitted := h.submitted.trans h'.submitted
  replies := h.replies.trans h'.replies
  poisoned hpoisoned := h'.poisoned (h.poisoned hpoisoned)

/-- A system whose lock is not poisoned, and whose operator can sign. -/
structure Running (s : System) : Prop where
  valid : s.service.store.Valid
  unpoisoned : s.poisoned = false
  signs : ∀ bytes, ∃ slot, sign s.service.operator.key .treeHead bytes = .ok slot

/-- The head of a nonempty log is there to be read. -/
theorem Running.exists_head (h : s.Running) (hpos : 0 < s.service.store.entries.length) :
    ∃ head, currentHead s.service.store s.service.operator.logId s.service.operator.key =
      some (some head) ∧ head.treeSize.toNat = s.service.store.entries.length := by
  have hlast := h.valid.last_toNat hpos
  have hrecord : s.service.store.entries[(s.service.store.size - 1).toNat]? =
      some s.service.store.entries[s.service.store.entries.length - 1] := by
    rw [hlast, List.getElem?_eq_getElem]
  obtain ⟨receipt, hreceipt⟩ := h.valid.exists_receipt h.signs s.service.operator.logId hrecord
  have hhead := h.valid.currentHead_of_receipt hreceipt (by omega)
  exact ⟨receipt.treeHead, hhead, (AppState.minted_of_currentHead h.valid hhead).2⟩

theorem Running.treeHead (h : s.Running) (hpos : 0 < s.service.store.entries.length) :
    ∃ head, head.treeSize.toNat = s.service.store.entries.length ∧
      currentHead s.service.store s.service.operator.logId s.service.operator.key =
        some (some head) ∧ s.treeHead = s.push (.viewing (some head)) := by
  obtain ⟨head, hhead, hsize⟩ := h.exists_head hpos
  exact ⟨head, hsize, hhead, by simp [System.treeHead, h.unpoisoned, hhead]⟩

end System

section

variable [SerdeJson]

@[simp]
theorem Service.head_afterAppend (service : Service) (outcome : Except StoreError Value) :
    (service.afterAppend outcome).head = none := by
  rw [Service.afterAppend]
  split <;> rfl

@[simp]
theorem Service.pending_afterAppend (service : Service) (outcome : Except StoreError Value) :
    (service.afterAppend outcome).pending = none := by
  rw [Service.afterAppend]
  split <;> rfl

namespace System

variable {s : System}

/-- A commit whose request is admitted and written sequences its record, as long as
the log has room. -/
theorem Running.commit (h : s.Running) (hjson : SerdeJson.Conforms)
    {authorization : Option String} {body : String} {now : Timestamp} {request : AppendRequest}
    (hallowed : s.service.commitRequest authorization body now = .ok request)
    (hroom : s.service.store.entries.length + 1 < 2 ^ 64) :
    ∃ (receipt : Receipt) (store : LogStore), store.Valid ∧
      store.entries = s.service.store.entries ++ [s.service.store.nextRecord request] ∧
      store.journal =
        s.service.store.journal.map (· ++ lineCodec.line (s.service.store.nextRecord request)) ∧
        s.commit authorization body now .written =
          { s.withStore store with
            sequenced := s.sequenced ++ [s.service.store.nextRecord request] }.push
            (s.service.afterAppend (.ok (receipt.toJson s.service.operator.info))) := by
  obtain ⟨store, happend⟩ := h.valid.exists_append hjson request hroom
  obtain ⟨-, hvalid, hentries, hjournal⟩ := h.valid.append hjson happend
  obtain ⟨-, hrecord⟩ := h.valid.getElem?_of_append hjson happend
  obtain ⟨receipt, hreceipt⟩ := hvalid.exists_receipt h.signs s.service.operator.logId hrecord
  refine ⟨receipt, store, hvalid, hentries, hjournal, ?_⟩
  rw [System.commit, hallowed]
  simp only [h.unpoisoned, happend, System.withStore, hreceipt]
  rfl

/-- A commit whose request is admitted but not written is not sequenced. -/
theorem Running.commit_failed (h : s.Running) (hjson : SerdeJson.Conforms)
    {authorization : Option String} {body : String} {now : Timestamp} {request : AppendRequest}
    (hallowed : s.service.commitRequest authorization body now = .ok request) {bytes : List UInt8}
    (hjournal : s.service.store.journal = some bytes) (reason : String) :
    ∃ e, s.commit authorization body now (.failed 0 reason) =
      s.push (s.service.afterAppend (.error e)) := by
  have happend : s.service.store.append request (.failed 0 reason) =
      some (.error (.journal s!"journal write failed: {reason}"), s.service.store) := by
    rw [LogStore.append_failed hjson hjournal, List.take_zero, List.append_nil, ← hjournal]
  refine ⟨.journal s!"journal write failed: {reason}", ?_⟩
  rw [System.commit, hallowed]
  simp only [h.unpoisoned, happend]
  rfl

theorem Running.readHead (h : s.Running) (hpos : 0 < s.service.store.entries.length) (i : ℕ)
    (outcome : Except StoreError Value) :
    ∃ head, head.treeSize.toNat = s.service.store.entries.length ∧
      currentHead s.service.store s.service.operator.logId s.service.operator.key =
        some (some head) ∧
      s.readHead i outcome =
        { s.set i (.commit outcome (.submitting head)) with
          submitted := s.submitted ++ [head] } := by
  obtain ⟨head, hhead, hsize⟩ := h.exists_head hpos
  exact ⟨head, hsize, hhead, by simp [System.readHead, h.unpoisoned, hhead]⟩

end System

end

variable [ExternalAnchoring]

namespace System

variable {s s' t : System}

/-- The record of a submission that was made: it is of a minted head, and anchored
only by a reply that was accepted for it. -/
def Records (s : System) (record : TsaRecord) : Prop :=
  ∃ head, s.service.Minted head ∧ record.treeSize = head.treeSize ∧
    record.digest = head.anchoredExternally.digest ∧
      (record.status = "anchored" → ∃ response, record.response = some response ∧
        (head, response) ∈ s.replies ∧
          verifyTimestampResponse response record.digest = some (.ok ()))

/-- The store is the one its entries determine, and every head in flight, submitted
or recorded is in the receipt of one of them. -/
structure Sound (s : System) : Prop where
  valid : s.service.store.Valid
  minted : ∀ handler ∈ s.handlers, ∀ head, handler.head = some head → s.service.Minted head
  minted_submitted : ∀ head ∈ s.submitted, s.service.Minted head
  records : ∀ record, s.service.tsa = some record → s.Records record

theorem Records.mono (h : s.Sound) (hvalid : s'.service.store.Valid) (hgrows : s.Grows s')
    {record : TsaRecord} (hrecord : s.Records record) : s'.Records record := by
  obtain ⟨head, hminted, hsize, hdigest, hanchored⟩ := hrecord
  refine ⟨head, hminted.mono h.valid hvalid hgrows.operator hgrows.entries, hsize, hdigest, ?_⟩
  intro hstatus
  obtain ⟨response, hresponse, hreply, hverify⟩ := hanchored hstatus
  exact ⟨response, hresponse, hgrows.replies.subset hreply, hverify⟩

/-- A system stays sound as it grows, if what is new in it is sound. -/
theorem Sound.grows (h : s.Sound) (hgrows : s.Grows s') (hvalid : s'.service.store.Valid)
    (hhandlers : ∀ handler ∈ s'.handlers, handler ∈ s.handlers ∨
      ∀ head, handler.head = some head → s'.service.Minted head)
    (hsubmitted : ∀ head ∈ s'.submitted, head ∈ s.submitted ∨ s'.service.Minted head)
    (hrecords : ∀ record, s'.service.tsa = some record →
      s.service.tsa = some record ∨ s'.Records record) : s'.Sound where
  valid := hvalid
  minted handler hhandler head hhead := by
    rcases hhandlers handler hhandler with hold | hnew
    · exact (h.minted handler hold head hhead).mono h.valid hvalid hgrows.operator hgrows.entries
    · exact hnew head hhead
  minted_submitted head hhead := by
    rcases hsubmitted head hhead with hold | hnew
    · exact (h.minted_submitted head hold).mono h.valid hvalid hgrows.operator hgrows.entries
    · exact hnew
  records record hrecord := by
    rcases hrecords record hrecord with hold | hnew
    · exact Records.mono h hvalid hgrows (h.records record hold)
    · exact hnew

/-- A handler comes to a sound system, or moves on in it, and nothing else changes
that a sound system depends on. -/
theorem Sound.handles (h : s.Sound) (hgrows : s.Grows s') (hvalid : s'.service.store.Valid)
    {handler : Handler} (hhead : ∀ head, handler.head = some head → s'.service.Minted head)
    (hhandlers : ∀ other ∈ s'.handlers, other ∈ s.handlers ∨ other = handler)
    (hsubmitted : s'.submitted = s.submitted) (hrecord : s'.service.tsa = s.service.tsa) :
    s'.Sound ∧ s.Grows s' := by
  refine ⟨h.grows hgrows hvalid (fun other hother => ?_) (fun head hmem => ?_)
    fun record hmem => ?_, hgrows⟩
  · rcases hhandlers other hother with hold | rfl
    · exact .inl hold
    · exact .inr hhead
  · exact .inl (hsubmitted ▸ hmem)
  · exact .inl (hrecord ▸ hmem)

theorem Sound.push_ended (h : s.Sound) (response : Option Response) :
    (s.push (.ended response)).Sound ∧ s.Grows (s.push (.ended response)) :=
  h.handles (s.grows_handlers _) h.valid (by simp [Handler.head]) (fun _ => mem_push) rfl rfl

variable [SerdeJson]

/-- A step keeps a system sound, and only adds to it. -/
theorem Sound.step (h : s.Sound) {action : Action} (hstep : s.step action = some s') :
    s'.Sound ∧ s.Grows s' := by
  cases steps_of_step h.valid hstep with
  | refused hstatus => exact h.push_ended _
  | overflowed happend =>
      exact h.handles
        ⟨rfl, rfl, List.prefix_rfl, List.prefix_rfl, List.prefix_rfl, List.prefix_rfl, fun _ => rfl⟩
        h.valid (by simp [Handler.head]) (fun _ => mem_push) rfl rfl
  | failed happend =>
      obtain ⟨hvalid, hinitial⟩ := h.valid.appends ⟨_, _, _, happend⟩
      exact h.handles
        ⟨rfl, rfl, hinitial, List.prefix_rfl, List.prefix_rfl, List.prefix_rfl, id⟩
        hvalid (by simp) (fun _ => mem_push) rfl rfl
  | sequenced happend hreceipt =>
      obtain ⟨hvalid, hinitial⟩ := h.valid.appends ⟨_, _, _, happend⟩
      exact h.handles
        ⟨rfl, rfl, hinitial, List.prefix_append _ _, List.prefix_rfl, List.prefix_rfl, id⟩
        hvalid (by simp) (fun _ => mem_push) rfl rfl
  | unprovable happend hnone =>
      obtain ⟨hvalid, hinitial⟩ := h.valid.appends ⟨_, _, _, happend⟩
      exact h.handles
        ⟨rfl, rfl, hinitial, List.prefix_append _ _, List.prefix_rfl, List.prefix_rfl, fun _ => rfl⟩
        hvalid (by simp [Handler.head]) (fun _ => mem_push) rfl rfl
  | headless hi hhead hresponse =>
      exact h.handles (s.grows_handlers _) h.valid (by simp [Handler.head]) (fun _ => mem_set)
        rfl rfl
  | @submitted i outcome head hi hhead =>
      obtain ⟨hminted, -⟩ := AppState.minted_of_currentHead h.valid hhead
      have hgrows : s.Grows { s.set i (.commit outcome (.submitting head)) with
          submitted := s.submitted ++ [head] } :=
        ⟨rfl, rfl, List.prefix_rfl, List.prefix_rfl, List.prefix_append _ _, List.prefix_rfl, id⟩
      refine ⟨h.grows hgrows h.valid (fun handler hhandler => ?_) (fun other hother => ?_)
        fun record hrecord => .inl hrecord, hgrows⟩
      · rcases mem_set hhandler with hold | rfl
        · exact .inl hold
        · refine .inr fun other hother => ?_
          obtain rfl := Option.some.inj hother
          exact hminted
      · rcases List.mem_append.mp hother with hold | hnew
        · exact .inl hold
        · obtain rfl := List.mem_singleton.mp hnew
          exact .inr hminted
  | dropped hi =>
      exact h.handles
        ⟨rfl, rfl, List.prefix_rfl, List.prefix_rfl, List.prefix_rfl, List.prefix_append _ _, id⟩
        h.valid (by simp [Handler.head]) (fun _ => mem_set) rfl rfl
  | @recorded i now reply outcome head tsaUrl record hi hsubmit =>
      have hminted : s.service.Minted head := h.minted _ (List.mem_of_getElem? hi) head rfl
      obtain ⟨hdigest, hanchored⟩ := of_submitAnchor hsubmit
      have hgrows : s.Grows { s.set i (.commit outcome (.answered (respond outcome))) with
          service := { s.service with tsa := some { record with treeSize := head.treeSize } }
          replies := s.replies ++ arrived head reply } :=
        ⟨rfl, rfl, List.prefix_rfl, List.prefix_rfl, List.prefix_rfl, List.prefix_append _ _, id⟩
      refine ⟨h.grows hgrows h.valid (fun handler hhandler => ?_) (fun _ => .inl)
        fun stored hstored => ?_, hgrows⟩
      · rcases mem_set hhandler with hold | rfl
        · exact .inl hold
        · exact .inr (by simp [Handler.head])
      · -- The reply that made the record anchored is the one that has just arrived.
        obtain rfl := Option.some.inj hstored
        refine .inr ⟨head, hminted, rfl, hdigest, fun hstatus => ?_⟩
        obtain ⟨response, rfl, hresponse, hverify⟩ := hanchored hstatus
        refine ⟨response, hresponse, List.mem_append_right _ List.mem_cons_self, ?_⟩
        rw [hdigest]
        exact hverify
  | abandoned hi =>
      exact h.handles (s.grows_handlers _) h.valid (by simp [Handler.head]) (fun _ => mem_set)
        rfl rfl
  | unread => exact h.push_ended none
  | @read head hhead =>
      have hminted : ∀ sth, (Handler.viewing head).head = some sth → s.service.Minted sth := by
        rintro sth rfl
        exact (AppState.minted_of_currentHead h.valid hhead).1
      exact h.handles (s.grows_handlers _) h.valid hminted (fun _ => mem_push) rfl rfl
  | @shown i head hi =>
      have hminted : ∀ sth, (Handler.viewed head (treeHeadResponse s.service.operator head
          s.service.tsa)).head = some sth → s.service.Minted sth :=
        h.minted (.viewing head) (List.mem_of_getElem? hi)
      exact h.handles (s.grows_handlers _) h.valid hminted (fun _ => mem_set) rfl rfl
  | served =>
      exact h.handles (s.grows_handlers _) h.valid (by simp [Handler.head]) (fun _ => mem_push)
        rfl rfl

theorem sound_init {config : Config} {journal : Option JournalFile} {service : Service}
    (hnew : Service.new config journal = some (.ok service)) : (init service).Sound := by
  obtain ⟨-, hopen, -, htsa⟩ := Service.exists_of_new hnew
  refine ⟨LogStore.valid_of_open hopen, by simp [init], by simp [init], ?_⟩
  intro record hrecord
  rw [show (init service).service.tsa = none from htsa] at hrecord
  simp at hrecord

/-- A run keeps a system sound, and only adds to it. -/
theorem Sound.run (h : s.Sound) {actions : List Action} (hrun : s.run actions = some s') :
    s'.Sound ∧ s.Grows s' := by
  refine Transition.run_invariant (I := fun t => t.Sound ∧ s.Grows t) ?_ ⟨h, .refl s⟩ hrun
  rintro mid action next ⟨hsound, hgrows⟩ hstep
  obtain ⟨hsound', hgrows'⟩ := hsound.step hstep
  exact ⟨hsound', hgrows.trans hgrows'⟩

/-- A handler comes to hold a head when it reads the current one. -/
theorem pending_step (hvalid : s.service.store.Valid) {action : Action}
    (hstep : s.step action = some s') {i : ℕ} {handler : Handler} {head : SignedTreeHead}
    (hi : s'.handlers[i]? = some handler) (hpending : handler.pending = some head) :
    s.handlers[i]? = some handler ∨
      ((∃ j, action = .readHead j) ∨ action = .treeHead) ∧
        currentHead s.service.store s.service.operator.logId s.service.operator.key =
          some (some head) := by
  have hpushed : ∀ {t : System} {new : Handler}, (t.push new).handlers[i]? = some handler →
      new.pending = none → t.handlers[i]? = some handler := by
    intro t new hi hnone
    refine (getElem?_push hi).resolve_right ?_
    rintro rfl
    simp [hnone] at hpending
  have hmoved : ∀ {j : ℕ} {new : Handler}, (s.set j new).handlers[i]? = some handler →
      new.pending = none → s.handlers[i]? = some handler := by
    intro j new hi hnone
    refine (getElem?_set hi).resolve_right ?_
    rintro ⟨-, rfl⟩
    simp [hnone] at hpending
  cases steps_of_step hvalid hstep with
  | refused => exact .inl (hpushed hi rfl)
  | overflowed => exact .inl (hpushed hi rfl)
  | failed => exact .inl (hpushed hi (s.service.pending_afterAppend _))
  | sequenced => exact .inl (hpushed hi (s.service.pending_afterAppend _))
  | unprovable => exact .inl (hpushed hi rfl)
  | headless => exact .inl (hmoved hi rfl)
  | @submitted j outcome other hj hread =>
      rcases getElem?_set hi with hold | ⟨-, rfl⟩
      · exact .inl hold
      · obtain rfl := Option.some.inj hpending
        exact .inr ⟨.inl ⟨j, rfl⟩, hread⟩
  | dropped => exact .inl (hmoved hi rfl)
  | recorded => exact .inl (hmoved hi rfl)
  | abandoned => exact .inl (hmoved hi rfl)
  | unread => exact .inl (hpushed hi rfl)
  | read hread =>
      rcases getElem?_push hi with hold | rfl
      · exact .inl hold
      · obtain rfl := hpending
        exact .inr ⟨.inr rfl, hread⟩
  | shown => exact .inl (hmoved hi rfl)
  | served => exact .inl (hpushed hi rfl)

/-- The slot changes when a submission is recorded. -/
theorem tsa_step (hvalid : s.service.store.Valid) {action : Action}
    (hstep : s.step action = some s') :
    s'.service.tsa = s.service.tsa ∨
      ∃ i now reply outcome head tsaUrl record, action = .record i now reply ∧
        s.handlers[i]? = some (.commit outcome (.submitting head)) ∧
        submitAnchor head.anchoredExternally tsaUrl now reply = some record ∧
          s'.service.tsa = some { record with treeSize := head.treeSize } := by
  cases steps_of_step hvalid hstep with
  | @recorded i now reply outcome head tsaUrl record hi hsubmit =>
      exact .inr ⟨i, now, reply, outcome, head, tsaUrl, record, rfl, hi, hsubmit, rfl⟩
  | _ => exact .inl rfl

end System

end

end UnidppLog
