/-
# Submissions

Which record follows another in the slot, and which heads are submitted at all. A
commit lets go of the store's lock before it reads the head it submits, and again
before it stores the outcome, so both depend on the schedule: a slower submission
overwrites a later one, and of two commits that append before either reads, none
submits the first one's head.
-/

import UnidppLog.Sample.Service

namespace UnidppLog

open Json (Value)
open Unidpp

section

variable [Unidpp] [SerdeJson] [ExternalAnchoring]

namespace System

variable {s s' mid : System} {config : Config} {journal : Option JournalFile} {service : Service}
  {actions more : List Action}

/-- A head that is in flight was in flight already, or covers all there was. -/
theorem submitting_run (hsound : s.Sound) (hmore : s.run more = some mid) {i : ℕ}
    {outcome : Except StoreError Value} {head : SignedTreeHead}
    (hi : mid.handlers[i]? = some (.commit outcome (.submitting head))) :
    s.handlers[i]? = some (.commit outcome (.submitting head)) ∨
      s.service.store.entries.length ≤ head.treeSize.toNat := by
  have hkeeps := Transition.run_invariant (I := fun t => (t.Sound ∧ s.Grows t) ∧
    ∀ (i : ℕ) (outcome : Except StoreError Value) (head : SignedTreeHead),
      t.handlers[i]? = some (.commit outcome (.submitting head)) →
      s.handlers[i]? = some (.commit outcome (.submitting head)) ∨
        s.service.store.entries.length ≤ head.treeSize.toNat) ?_
    ⟨⟨hsound, .refl s⟩, fun _ _ _ hi => .inl hi⟩ hmore
  · exact hkeeps.2 i outcome head hi
  · rintro t action next ⟨⟨ht, hgrows⟩, hflight⟩ hstep
    obtain ⟨hnext, hgrows'⟩ := ht.step hstep
    refine ⟨⟨hnext, hgrows.trans hgrows'⟩, fun i outcome head hi => ?_⟩
    rcases pending_step ht.valid hstep hi rfl with hold | ⟨-, hhead⟩
    · exact hflight i outcome head hold
    · obtain ⟨-, hsize⟩ := AppState.minted_of_currentHead ht.valid hhead
      exact .inr (hsize ▸ hgrows.entries.length_le)

/-- Once a record is in the slot, whatever is stored there later is the outcome of
a handler's own submission, anchored exactly if its reply was accepted, and covers
no less, unless the handler was submitting its head already at that moment. -/
theorem recorded_after (hnew : Service.new config journal = some (.ok service))
    (hrun : (init service).run actions = some s) {anchored : TsaRecord}
    (htsa : s.service.tsa = some anchored) (hmore : s.run more = some mid) {action : Action}
    (hstep : mid.step action = some s') :
    s'.service.tsa = mid.service.tsa ∨
      ∃ i now reply outcome head record, action = .record i now reply ∧
        mid.handlers[i]? = some (.commit outcome (.submitting head)) ∧
        s'.service.tsa = some record ∧ record.treeSize = head.treeSize ∧
        record.digest = head.anchoredExternally.digest ∧
        (record.status = "anchored" ↔ ∃ response, reply = .ok response ∧
          verifyTimestampResponse response head.anchoredExternally.digest = some (.ok ())) ∧
        (s.handlers[i]? = some (.commit outcome (.submitting head)) ∨
          anchored.treeSize ≤ record.treeSize) := by
  obtain ⟨hsound, -⟩ := (sound_init hnew).run hrun
  obtain ⟨hmid, -⟩ := hsound.run hmore
  rcases tsa_step hmid.valid hstep with hsame |
    ⟨i, now, reply, outcome, head, tsaUrl, record, rfl, hi, hsubmit, hstored⟩
  · exact .inl hsame
  · obtain ⟨hdigest, hanchored⟩ := of_submitAnchor hsubmit
    refine .inr ⟨i, now, reply, outcome, head, _, rfl, hi, hstored, rfl, hdigest, ⟨?_, ?_⟩, ?_⟩
    · intro hstatus
      obtain ⟨response, hreply, -, hverify⟩ := hanchored hstatus
      exact ⟨response, hreply, hverify⟩
    · rintro ⟨response, rfl, hverify⟩
      obtain rfl := Option.some.inj
        ((submitAnchor_of_accepted hverify tsaUrl now).symm.trans hsubmit)
      rfl
    · refine (submitting_run hsound hmore hi).imp_right fun hcovers => ?_
      obtain ⟨minted, hminted, hsize, -⟩ := hsound.records anchored htsa
      rw [UInt64.le_iff_toNat_le, hsize]
      exact (hminted.le hsound.valid).trans hcovers

end System

end

namespace Sample

/-- Two commits in flight, the head of one entry and the head of both. -/
theorem exists_two_submitting :
    ∃ (s : System) (v w : Value) (head head' : SignedTreeHead),
      (System.init (service (some tsaUrl))).run
        [commitAt 1, .readHead 0, commitAt 2, .readHead 1] = some s ∧ Up (some tsaUrl) 2 s ∧
      s.handlers = [.commit (.ok v) (.submitting head), .commit (.ok w) (.submitting head')] ∧
      head.treeSize.toNat = 1 ∧ head'.treeSize.toNat = 2 := by
  obtain ⟨one, v, head, hone, hup, hhandlers, hsize, -, -, -⟩ := exists_submitting
  obtain ⟨two, w, -, htwo, hup₂, -, hhandlers₂, -⟩ := hup.commitAt (by decide) 2
  obtain ⟨head', hsize', hread, hup₃⟩ := hup₂.readHead (by decide) 1 (.ok w)
    (by rw [hhandlers₂, hhandlers]; rfl)
  have hrun := Transition.run_snoc (Transition.run_snoc hone htwo) hread
  simp only [List.cons_append, List.nil_append] at hrun
  refine ⟨_, v, w, head, head', hrun, hup₃, ?_, hsize, hsize'⟩
  rw [System.set, hhandlers₂, hhandlers]
  rfl

/-- An anchored record of two entries is overwritten by the outcome of an older
submission, and one of one entry by that of a failed one for the same head. -/
theorem anchored_overwritten :
    (∃ (actions : List Action) (s s' : System) (action : Action) (record record' : TsaRecord),
      (System.init (service (some tsaUrl))).run actions = some s ∧
      s.service.tsa = some record ∧ record.status = "anchored" ∧ record.treeSize.toNat = 2 ∧
      s.step action = some s' ∧ s'.service.tsa = some record' ∧ record'.treeSize.toNat = 1) ∧
    (∃ (actions more : List Action) (s s' : System) (record record' : TsaRecord),
      (System.init (service (some tsaUrl))).run actions = some s ∧
      s.service.tsa = some record ∧ record.status = "anchored" ∧ record.treeSize.toNat = 1 ∧
      s.run more = some s' ∧ s'.service.tsa = some record' ∧ record'.treeSize.toNat = 1 ∧
      record'.status = "unreachable") := by
  constructor
  · obtain ⟨two, v, w, head, head', htwo, hup, hhandlers, hsize, hsize'⟩ := exists_two_submitting
    obtain ⟨record, hsubmit, hstatus⟩ := exists_anchored head'.anchoredExternally 3
    obtain ⟨three, hthree, hup₃, -, -, htsa, hhandlers₃, -⟩ :=
      hup.record 1 (.ok _) head' (by rw [hhandlers]; rfl) hsubmit
    obtain ⟨record', hsubmit', -⟩ := exists_unreachable head.anchoredExternally 4 "timeout"
    obtain ⟨four, hfour, -, -, -, htsa', -⟩ :=
      hup₃.record 0 (.ok v) head
        (by rw [hhandlers₃, hhandlers]; rfl) hsubmit'
    exact ⟨_, three, four, _, _, _, Transition.run_snoc htwo hthree, htsa, hstatus, hsize', hfour,
      htsa', hsize⟩
  · obtain ⟨one, v, head, hone, hup, hhandlers, hsize, -⟩ := exists_submitting
    obtain ⟨record, hsubmit, hstatus⟩ := exists_anchored head.anchoredExternally 2
    obtain ⟨two, htwo, hup₂, -, -, htsa, hhandlers₂, -⟩ :=
      hup.record 0 (.ok _) head (by rw [hhandlers]; rfl) hsubmit
    obtain ⟨three, e, hthree, hup₃, -, hhandlers₃⟩ := hup₂.commit_failed 3
    obtain ⟨head', hsize', hread, hup₄⟩ := hup₃.readHead (by decide) 1 (.error e)
      (by rw [hhandlers₃, hhandlers₂, hhandlers]; rfl)
    obtain ⟨record', hsubmit', hstatus'⟩ := exists_unreachable head'.anchoredExternally 4 "timeout"
    obtain ⟨four, hfour, -, -, -, htsa', -⟩ :=
      hup₄.record 1 (.error e) head'
        (by rw [System.set, hhandlers₃, hhandlers₂, hhandlers]; rfl) hsubmit'
    have hmore := Transition.run_snoc (Transition.run_snoc (Transition.run_one hthree) hread) hfour
    exact ⟨_, _, two, four, _, _, Transition.run_snoc hone htwo, htsa, hstatus, hsize, hmore,
      htsa', hsize', hstatus'⟩

/-- A later head is recorded behind an anchored one, and covers no less. -/
theorem recorded_after_one :
    ∃ (actions : List Action) (s mid s' : System) (record record' : TsaRecord),
      (System.init (service (some tsaUrl))).run actions = some s ∧
      s.service.tsa = some record ∧ record.status = "anchored" ∧
      s.run [commitAt 3, .readHead 1] = some mid ∧
      mid.step (.record 1 (4 : Fin 60) (.error "timeout")) = some s' ∧
      s'.service.tsa = some record' ∧ record'.treeSize.toNat = 2 ∧
      record.treeSize ≤ record'.treeSize := by
  obtain ⟨one, v, head, hone, hup, hhandlers, hsize, -⟩ := exists_submitting
  obtain ⟨record, hsubmit, hstatus⟩ := exists_anchored head.anchoredExternally 2
  obtain ⟨two, htwo, hup₂, -, -, htsa, hhandlers₂, -⟩ :=
    hup.record 0 (.ok _) head (by rw [hhandlers]; rfl) hsubmit
  obtain ⟨three, w, -, hthree, hup₃, htsa₃, hhandlers₃, -⟩ := hup₂.commitAt (by decide) 3
  obtain ⟨head', hsize', hread, hup₄⟩ := hup₃.readHead (by decide) 1 (.ok w)
    (by rw [hhandlers₃, hhandlers₂, hhandlers]; rfl)
  obtain ⟨record', hsubmit', -⟩ := exists_unreachable head'.anchoredExternally 4 "timeout"
  obtain ⟨five, hfive, -, -, -, htsa', -⟩ :=
    hup₄.record 1 (.ok w) head'
      (by rw [System.set, hhandlers₃, hhandlers₂, hhandlers]; rfl) hsubmit'
  have hrun := Transition.run_snoc hone htwo
  have hmore := Transition.run_snoc (Transition.run_one hthree) hread
  refine ⟨_, two, _, five, _, _, hrun, htsa, hstatus, hmore, hfive, htsa', hsize', ?_⟩
  rcases System.recorded_after (new_service (some tsaUrl)) hrun htsa hmore hfive with hsame |
    ⟨i, now, answer, outcome, other, stored, haction, -, hstored, -, -, -, hflight | hcovers⟩
  · -- The slot has changed: it was of one entry, and is of two.
    rw [htsa'] at hsame
    have hslot := hsame.trans (htsa₃.trans htsa)
    have hsizes := congrArg (Option.map fun r => r.treeSize.toNat) hslot
    simp [hsize, hsize'] at hsizes
  · obtain ⟨rfl, -⟩ := Action.record.inj haction
    simp [hhandlers₂, hhandlers] at hflight
  · obtain rfl := Option.some.inj (htsa'.symm.trans hstored)
    exact hcovers

end Sample

section

variable [Unidpp]

namespace System

variable {s : System}

/-- What was sequenced has its receipt, as long as the lock is not poisoned. -/
def Provable (s : System) : Prop :=
  s.poisoned = false → ∀ record ∈ s.sequenced, ∃ receipt,
    Receipt.of s.service.store record.seq s.service.operator.logId s.service.operator.key =
      some (some receipt)

/-- The head over a record that was sequenced last is there to be read. -/
theorem Provable.exists_head (hprovable : s.Provable) (hvalid : s.service.store.Valid)
    (hpoisoned : s.poisoned = false) {record : CommitRecord} (hrecord : record ∈ s.sequenced)
    (hlast : s.service.store.entries.length = record.seq.toNat + 1) :
    ∃ head, currentHead s.service.store s.service.operator.logId s.service.operator.key =
      some (some head) := by
  obtain ⟨receipt, hreceipt⟩ := hprovable hpoisoned record hrecord
  exact ⟨_, hvalid.currentHead_of_receipt hreceipt hlast⟩

/-- A commit that has appended is yet to come back for the head. -/
def Waiting (s : System) : Prop :=
  ∃ (j : ℕ) (outcome : Except StoreError Value),
    s.handlers[j]? = some (.commit outcome .appended)

theorem Waiting.push (h : s.Waiting) (handler : Handler) : (s.push handler).Waiting := by
  obtain ⟨j, outcome, hj⟩ := h
  obtain ⟨hlt, -⟩ := List.getElem?_eq_some_iff.mp hj
  refine ⟨j, outcome, ?_⟩
  rw [System.push, List.getElem?_append_left hlt, hj]

/-- A handler that waits keeps waiting while another one moves on. -/
theorem Waiting.set (h : s.Waiting) {i : ℕ} {old : Handler} (hi : s.handlers[i]? = some old)
    (hold : ∀ outcome, old ≠ .commit outcome .appended) (new : Handler) :
    (s.set i new).Waiting := by
  obtain ⟨j, outcome, hj⟩ := h
  have hij : i ≠ j := by
    rintro rfl
    exact hold outcome (Option.some.inj (hi.symm.trans hj))
  refine ⟨j, outcome, ?_⟩
  rw [System.set, List.getElem?_set_ne hij, hj]

end System

variable [SerdeJson] [ExternalAnchoring]

namespace System

variable {s s' mid : System} {config : Config} {journal : Option JournalFile} {service : Service}
  {actions : List Action}

/-! ## Which heads are submitted -/

/-- Every commit has run to completion: none panicked, was left by its client, or is
still between its critical sections. -/
structure Complete (s : System) : Prop where
  unpoisoned : s.poisoned = false
  answered : ∀ outcome phase, .commit outcome phase ∈ s.handlers →
    ∃ response, phase = .answered (some response)

/-- A head of this size was submitted. -/
def SubmittedAt (s : System) (n : ℕ) : Prop :=
  ∃ head ∈ s.submitted, head.treeSize.toNat = n

/-- Some commit comes back for the head while the log has exactly `n` entries. -/
def ReadAt (s : System) (actions : List Action) (n : ℕ) : Prop :=
  ∃ front i back mid, actions = front ++ .readHead i :: back ∧ s.run front = some mid ∧
    mid.service.store.entries.length = n

/-- Nobody appends while a commit that has appended has not come back for the head. -/
def Prompt (s : System) : Action → Prop
  | .commit _ _ _ _ => ∀ outcome, .commit outcome .appended ∉ s.handlers
  | _ => True

/-- The heads that are submitted change when a commit comes back. -/
theorem submitted_step (hvalid : s.service.store.Valid) {action : Action}
    (hstep : s.step action = some s') {head : SignedTreeHead} (hhead : head ∈ s'.submitted) :
    head ∈ s.submitted ∨ ∃ i, action = .readHead i ∧
      head.treeSize.toNat = s.service.store.entries.length := by
  cases steps_of_step hvalid hstep with
  | @submitted i outcome other hi hread =>
      rcases List.mem_append.mp hhead with hold | hnew
      · exact .inl hold
      · obtain rfl := List.mem_singleton.mp hnew
        exact .inr ⟨i, rfl, (AppState.minted_of_currentHead hvalid hread).2⟩
  | _ => exact .inl hhead

/-- While the lock is not poisoned, the receipt of every record that was sequenced is
there. -/
theorem receipt_step (hjson : SerdeJson.Conforms) (hsound : s.Sound) {action : Action}
    (hstep : s.step action = some s') (hpoisoned : s'.poisoned = false)
    {record : CommitRecord} (hrecord : record ∈ s'.sequenced) :
    record ∈ s.sequenced ∨
      record.seq.toNat = s.service.store.entries.length ∧ ∃ receipt,
        Receipt.of s'.service.store record.seq s'.service.operator.logId
          s'.service.operator.key = some (some receipt) := by
  cases steps_of_step hsound.valid hstep with
  | @sequenced _ _ _ _ _ other store receipt happend hreceipt =>
      rcases List.mem_append.mp hrecord with hold | hnew
      · exact .inl hold
      · obtain rfl := List.mem_singleton.mp hnew
        obtain ⟨hseq, -⟩ := hsound.valid.getElem?_of_append hjson happend
        exact .inr ⟨hseq, receipt, hreceipt⟩
  | unprovable => exact absurd hpoisoned (by simp [push, poison])
  | _ => exact .inl hrecord

theorem Provable.step (hjson : SerdeJson.Conforms) (hprovable : s.Provable) (hsound : s.Sound)
    {action : Action} (hstep : s.step action = some s') : s'.Provable := by
  obtain ⟨hsound', hgrows⟩ := hsound.step hstep
  intro hpoisoned record hrecord
  rcases receipt_step hjson hsound hstep hpoisoned hrecord with hold | ⟨-, hnew⟩
  · obtain ⟨receipt, hreceipt⟩ := hprovable (hgrows.unpoisoned hpoisoned) record hold
    obtain ⟨other, slot, hother, -⟩ := hsound.valid.exists_of_receipt hreceipt
    obtain ⟨hlt, -⟩ := List.getElem?_eq_some_iff.mp hother
    refine ⟨receipt, ?_⟩
    rw [hgrows.operator, hsound.valid.receipt_eq_of_isPrefix hsound'.valid hgrows.entries hlt,
      hreceipt]
  · exact hnew

/-- A commit that comes back for the head submits it, if there is one. -/
theorem submittedAt_of_readHead (hsound : s.Sound) {i : ℕ}
    (hstep : s.step (.readHead i) = some s') (hpoisoned : s.poisoned = false)
    (hhead : ∃ head, currentHead s.service.store s.service.operator.logId
      s.service.operator.key = some (some head)) :
    s'.SubmittedAt s.service.store.entries.length := by
  obtain ⟨head, hhead⟩ := hhead
  cases steps_of_step hsound.valid hstep with
  | headless hi hnone => simp [hpoisoned, hhead] at hnone
  | submitted hi hread =>
      exact ⟨_, List.mem_append_right _ List.mem_cons_self,
        (AppState.minted_of_currentHead hsound.valid hread).2⟩

/-- Every head that was submitted was read by a commit when it was the last one. -/
theorem readAt_of_submittedAt (hnew : Service.new config journal = some (.ok service))
    (hrun : (init service).run actions = some s) {n : ℕ} (hsubmitted : s.SubmittedAt n) :
    (init service).ReadAt actions n := by
  induction actions using List.reverseRecOn generalizing s with
  | nil =>
      obtain rfl := Option.some.inj hrun
      obtain ⟨head, hhead, -⟩ := hsubmitted
      simp [init] at hhead
  | append_singleton front action ih =>
      rw [System.run, Transition.run_concat] at hrun
      obtain ⟨mid, hfront, hstep⟩ := Option.bind_eq_some_iff.mp hrun
      obtain ⟨hmid, -⟩ := (sound_init hnew).run hfront
      obtain ⟨head, hhead, hsize⟩ := hsubmitted
      rcases submitted_step hmid.valid hstep hhead with hold | ⟨i, rfl, hnow⟩
      · obtain ⟨first, i, back, before, rfl, hfirst, hlength⟩ := ih hfront ⟨head, hold, hsize⟩
        exact ⟨first, i, back ++ [action], before, by simp, hfirst, hlength⟩
      · exact ⟨front, i, [], mid, rfl, hfront, hnow.symm.trans hsize⟩

/-- Every record that was sequenced has its head submitted, or is the last one and a
commit is about to come back for its head. -/
def Covered (s : System) : Prop :=
  s.poisoned = false → ∀ record ∈ s.sequenced, s.SubmittedAt (record.seq.toNat + 1) ∨
    s.service.store.entries.length = record.seq.toNat + 1 ∧ s.Waiting

/-- While commits are prompt, what was sequenced stays covered. -/
theorem Covered.step (hjson : SerdeJson.Conforms) (hcovered : s.Covered) (hsound : s.Sound)
    (hprovable : s.Provable) {tsaUrl : String} (hurl : s.service.externalTsaUrl = some tsaUrl)
    {action : Action} (hprompt : s.Prompt action) (hstep : s.step action = some s') :
    s'.Covered := by
  obtain ⟨-, hgrows⟩ := hsound.step hstep
  intro hpoisoned record hrecord
  have hbefore := hgrows.unpoisoned hpoisoned
  have hkept : ∀ {n}, s.SubmittedAt n → s'.SubmittedAt n := by
    rintro n ⟨head, hhead, hsize⟩
    exact ⟨head, hgrows.submitted.subset hhead, hsize⟩
  have hcovered := hcovered hbefore record
  cases steps_of_step hsound.valid hstep with
  | refused =>
      rcases hcovered hrecord with hdone | ⟨-, j, outcome, hj⟩
      · exact .inl (hkept hdone)
      · exact absurd (List.mem_of_getElem? hj) (hprompt outcome)
  | overflowed => exact absurd hpoisoned (by simp [push, poison])
  | failed =>
      rcases hcovered hrecord with hdone | ⟨-, j, outcome, hj⟩
      · exact .inl (hkept hdone)
      · exact absurd (List.mem_of_getElem? hj) (hprompt outcome)
  | @sequenced _ _ _ _ _ other store receipt happend hreceipt =>
      rcases List.mem_append.mp hrecord with hold | hnew
      · rcases hcovered hold with hdone | ⟨-, j, outcome, hj⟩
        · exact .inl (hkept hdone)
        · exact absurd (List.mem_of_getElem? hj) (hprompt outcome)
      · obtain rfl := List.mem_singleton.mp hnew
        obtain ⟨hseq, -⟩ := hsound.valid.getElem?_of_append hjson happend
        obtain ⟨-, -, hentries, -⟩ := hsound.valid.append hjson happend
        refine .inr ⟨?_, s.handlers.length, .ok (receipt.toJson s.service.operator.info), ?_⟩
        · rw [hseq]
          exact (congrArg List.length hentries).trans (by simp)
        · rw [push, Service.afterAppend_of_some hurl]
          exact List.getElem?_concat_length
  | unprovable => exact absurd hpoisoned (by simp [push, poison])
  | headless hi hnone =>
      rcases hcovered hrecord with hdone | ⟨hlast, -⟩
      · exact .inl (hkept hdone)
      · obtain ⟨head, hhead⟩ := hprovable.exists_head hsound.valid hbefore hrecord hlast
        simp [hbefore, hhead] at hnone
  | submitted hi hhead =>
      rcases hcovered hrecord with hdone | ⟨hlast, -⟩
      · exact .inl (hkept hdone)
      · exact .inl (hlast ▸ submittedAt_of_readHead hsound hstep hbefore ⟨_, hhead⟩)
  | dropped hi =>
      exact (hcovered hrecord).imp hkept (And.imp_right fun h => h.set hi (by simp) _)
  | recorded hi =>
      exact (hcovered hrecord).imp hkept (And.imp_right fun h => h.set hi (by simp) _)
  | abandoned hi =>
      exact (hcovered hrecord).imp hkept (And.imp_right fun h => h.set hi (by simp) _)
  | unread =>
      exact (hcovered hrecord).imp hkept (And.imp_right fun h => h.push _)
  | read =>
      exact (hcovered hrecord).imp hkept (And.imp_right fun h => h.push _)
  | shown hi =>
      exact (hcovered hrecord).imp hkept (And.imp_right fun h => h.set hi (by simp) _)
  | served =>
      exact (hcovered hrecord).imp hkept (And.imp_right fun h => h.push _)

/-- Behind every start with an authority configured and every run in which all commits
run to completion, the head over every append is submitted exactly if, for every
append, some commit comes back for the head before the next append. It is so in every
run in which nobody appends while a commit that has appended is yet to come back. -/
theorem heads_submitted_iff (hjson : SerdeJson.Conforms)
    (hnew : Service.new config journal = some (.ok service)) {tsaUrl : String}
    (hurl : config.externalTsaUrl = some tsaUrl)
    (hrun : (init service).run actions = some s) (hcomplete : s.Complete) :
    ((∀ record ∈ s.sequenced, s.SubmittedAt (record.seq.toNat + 1)) ↔
      ∀ record ∈ s.sequenced, (init service).ReadAt actions (record.seq.toNat + 1)) ∧
    (Transition.Along step Prompt (init service) actions →
      ∀ record ∈ s.sequenced, s.SubmittedAt (record.seq.toNat + 1)) := by
  have hinit := sound_init hnew
  have hempty : (init service).sequenced = [] := rfl
  have hurl' : (init service).service.externalTsaUrl = some tsaUrl :=
    (Service.exists_of_new hnew).2.2.1.trans hurl
  obtain ⟨-, hprovable⟩ : s.Sound ∧ s.Provable := by
    refine Transition.run_invariant (I := fun t => t.Sound ∧ t.Provable) ?_
      ⟨hinit, fun _ => by simp [hempty]⟩ hrun
    rintro t action next ⟨ht, hprovable⟩ hstep
    exact ⟨(ht.step hstep).1, hprovable.step hjson ht hstep⟩
  refine ⟨⟨fun hall record hrecord => readAt_of_submittedAt hnew hrun (hall record hrecord),
    fun hall record hrecord => ?_⟩, fun hprompt record hrecord => ?_⟩
  · obtain ⟨front, i, back, mid, rfl, hfront, hlast⟩ := hall record hrecord
    rw [System.run, Transition.run_append] at hrun
    obtain ⟨mid', hfront', hback⟩ := Option.bind_eq_some_iff.mp hrun
    obtain rfl := Option.some.inj (hfront'.symm.trans hfront)
    rw [Transition.run_cons] at hback
    obtain ⟨next, hstep, hrest⟩ := Option.bind_eq_some_iff.mp hback
    obtain ⟨hmid, -⟩ := hinit.run hfront
    obtain ⟨hnext, hgrows⟩ := hmid.step hstep
    obtain ⟨hsound, hgrows'⟩ := hnext.run hrest
    have hunpoisoned := (hgrows.trans hgrows').unpoisoned hcomplete.unpoisoned
    obtain ⟨receipt, hreceipt⟩ := hprovable hcomplete.unpoisoned record hrecord
    rw [(hgrows.trans hgrows').operator, hmid.valid.receipt_eq_of_isPrefix hsound.valid
      (hgrows.trans hgrows').entries (by omega)] at hreceipt
    obtain ⟨head, hhead, hsize⟩ := submittedAt_of_readHead hmid hstep hunpoisoned
      ⟨_, hmid.valid.currentHead_of_receipt hreceipt hlast⟩
    exact ⟨head, hgrows'.submitted.subset hhead, hsize.trans hlast⟩
  · obtain ⟨-, -, hcovered, -⟩ : s.Sound ∧ s.Provable ∧ s.Covered ∧
        s.service.externalTsaUrl = some tsaUrl := by
      refine Transition.run_keeps (I := fun t => t.Sound ∧ t.Provable ∧ t.Covered ∧
        t.service.externalTsaUrl = some tsaUrl) ?_
        ⟨hinit, fun _ => by simp [hempty], fun _ => by simp [hempty], hurl'⟩ hprompt hrun
      rintro t action next ⟨ht, hprovable, hcovered, hurl⟩ hallowed hstep
      obtain ⟨hnext, hgrows⟩ := ht.step hstep
      exact ⟨hnext, hprovable.step hjson ht hstep,
        hcovered.step hjson ht hprovable hurl hallowed hstep, hgrows.externalTsaUrl.trans hurl⟩
    rcases hcovered hcomplete.unpoisoned record hrecord with hdone | ⟨-, j, outcome, hj⟩
    · exact hdone
    · obtain ⟨response, hphase⟩ :=
        hcomplete.answered outcome .appended (List.mem_of_getElem? hj)
      simp at hphase

end System

end

namespace Sample

/-- Two commits append before either reads the head, and both submit that of the
second: no head over one entry is submitted. -/
theorem first_head_not_submitted :
    ∃ (actions : List Action) (s : System) (record : CommitRecord),
      (System.init (service (some tsaUrl))).run actions = some s ∧ s.Complete ∧
      record ∈ s.sequenced ∧ ¬ s.SubmittedAt (record.seq.toNat + 1) := by
  obtain ⟨one, v, record, hone, hup, -, hhandlers, hseq, hsequenced, hsubmitted, -⟩ :=
    (up_init (some tsaUrl)).commitAt (by decide) 1
  obtain ⟨two, w, record', htwo, hup₂, -, hhandlers₂, -, hsequenced₂, hsubmitted₂, -⟩ :=
    hup.commitAt (by decide) 2
  obtain ⟨head, hsize, hread, hup₃⟩ := hup₂.readHead (by decide) 0 (.ok v)
    (by rw [hhandlers₂, hhandlers]; rfl)
  obtain ⟨head', hsize', hread', hup₄⟩ := hup₃.readHead (by decide) 1 (.ok w)
    (by rw [System.set, hhandlers₂, hhandlers]; rfl)
  obtain ⟨stored, hsubmit, -⟩ := exists_unreachable head.anchoredExternally 3 "timeout"
  obtain ⟨five, hfive, hup₅, -, -, -, hhandlers₅, hsubmitted₅, hsequenced₅, -⟩ :=
    hup₄.record 0 (.ok v) head
      (by simp [System.set, hhandlers₂, hhandlers, System.init]) hsubmit
  obtain ⟨stored', hsubmit', -⟩ := exists_unreachable head'.anchoredExternally 4 "timeout"
  obtain ⟨six, hsix, hup₆, -, -, -, hhandlers₆, hsubmitted₆, hsequenced₆, -⟩ :=
    hup₅.record 1 (.ok w) head'
      (by simp [hhandlers₅, System.set, hhandlers₂, hhandlers, System.init]) hsubmit'
  have hrun := Transition.run_snoc (Transition.run_snoc (Transition.run_snoc (Transition.run_snoc
    (Transition.run_snoc (Transition.run_one hone)
      htwo) hread) hread') hfive) hsix
  have hanswered : six.handlers = [.commit (.ok v) (.answered (respond (.ok v))),
      .commit (.ok w) (.answered (respond (.ok w)))] := by
    rw [hhandlers₆, hhandlers₅, System.set, System.set, hhandlers₂, hhandlers]
    rfl
  refine ⟨_, six, record, hrun, ⟨hup₆.running.unpoisoned, fun outcome phase hmem => ?_⟩, ?_, ?_⟩
  · rw [hanswered] at hmem
    simp only [List.mem_cons, Handler.commit.injEq, List.not_mem_nil, or_false] at hmem
    rcases hmem with ⟨rfl, rfl⟩ | ⟨rfl, rfl⟩
    · exact ⟨_, rfl⟩
    · exact ⟨_, rfl⟩
  · rw [hsequenced₆, hsequenced₅]
    simp [System.set, hsequenced₂, hsequenced]
  · rw [hseq]
    rintro ⟨other, hother, hone⟩
    rw [hsubmitted₆, hsubmitted₅] at hother
    simp [hsubmitted₂, hsubmitted, System.init] at hother
    rcases hother with rfl | rfl <;> omega

/-- The second of two commits appends while the first is on its way to the authority, and is
done before it. Both heads are submitted. -/
theorem heads_submitted_of_two :
    ∃ (actions : List Action) (s : System) (record record' : CommitRecord),
      (System.init (service (some tsaUrl))).run actions = some s ∧ s.Complete ∧
      s.sequenced = [record, record'] ∧
      Transition.Along System.step System.Prompt (System.init (service (some tsaUrl))) actions ∧
      s.SubmittedAt (record.seq.toNat + 1) ∧ s.SubmittedAt (record'.seq.toNat + 1) ∧
      (System.init (service (some tsaUrl))).ReadAt actions (record.seq.toNat + 1) ∧
      (System.init (service (some tsaUrl))).ReadAt actions (record'.seq.toNat + 1) := by
  obtain ⟨one, v, record, hone, hup, -, hhandlers, -, hsequenced, -⟩ :=
    (up_init (some tsaUrl)).commitAt (by decide) 1
  obtain ⟨head, -, hread, hup₂⟩ := hup.readHead (by decide) 0 (.ok v)
    (by rw [hhandlers]; rfl)
  obtain ⟨three, w, record', hthree, hup₃, -, hhandlers₃, -, hsequenced₃, -⟩ :=
    hup₂.commitAt (by decide) 2
  obtain ⟨head', -, hread', hup₄⟩ := hup₃.readHead (by decide) 1 (.ok w)
    (by rw [hhandlers₃, System.set, hhandlers]; rfl)
  obtain ⟨stored, hsubmit, -⟩ := exists_anchored head'.anchoredExternally 3
  obtain ⟨five, hfive, hup₅, -, -, -, hhandlers₅, -, hsequenced₅, -⟩ :=
    hup₄.record 1 (.ok w) head'
      (by rw [System.set, hhandlers₃, System.set, hhandlers]; rfl) hsubmit
  obtain ⟨stored', hsubmit', -⟩ := exists_unreachable head.anchoredExternally 4 "timeout"
  obtain ⟨six, hsix, hup₆, -, -, -, hhandlers₆, -, hsequenced₆, -⟩ :=
    hup₅.record 0 (.ok v) head
      (by rw [hhandlers₅, System.set, hhandlers₃, System.set, hhandlers]; rfl) hsubmit'
  have hrun₂ := Transition.run_snoc (Transition.run_one hone) hread
  have hrun₃ := Transition.run_snoc hrun₂ hthree
  have hrun₄ := Transition.run_snoc hrun₃ hread'
  have hrun₅ := Transition.run_snoc hrun₄ hfive
  have hrun := Transition.run_snoc hrun₅ hsix
  have hidle : System.Prompt { one.set 0 (.commit (.ok v) (.submitting head)) with
      submitted := one.submitted ++ [head] } (commitAt 2) := by
    intro outcome hmem
    simp [System.set, hhandlers, System.init] at hmem
  have hprompt : Transition.Along System.step System.Prompt
      (System.init (service (some tsaUrl))) [commitAt 1, .readHead 0, commitAt 2, .readHead 1,
        .record 1 (3 : Fin 60) (.ok (reply head'.anchoredExternally.digest)),
        .record 0 (4 : Fin 60) (.error "timeout")] := by
    rw [Transition.along_cons_iff hone, Transition.along_cons_iff hread,
      Transition.along_cons_iff hthree, Transition.along_cons_iff hread',
      Transition.along_cons_iff hfive, Transition.along_cons_iff hsix]
    exact ⟨fun _ => by simp [System.init], trivial, hidle, trivial, trivial, trivial, trivial⟩
  have hanswered : six.handlers = [.commit (.ok v) (.answered (respond (.ok v))),
      .commit (.ok w) (.answered (respond (.ok w)))] := by
    rw [hhandlers₆, hhandlers₅, System.set, hhandlers₃, System.set, hhandlers]
    rfl
  have hcomplete : six.Complete := by
    refine ⟨hup₆.running.unpoisoned, fun outcome phase hmem => ?_⟩
    rw [hanswered] at hmem
    simp only [List.mem_cons, Handler.commit.injEq, List.not_mem_nil, or_false] at hmem
    rcases hmem with ⟨rfl, rfl⟩ | ⟨rfl, rfl⟩
    · exact ⟨_, rfl⟩
    · exact ⟨_, rfl⟩
  have hrecords : six.sequenced = [record, record'] := by
    rw [hsequenced₆, hsequenced₅]
    simp [System.set, hsequenced₃, hsequenced, System.init]
  have hmem : record ∈ six.sequenced := by simp [hrecords]
  have hmem' : record' ∈ six.sequenced := by simp [hrecords]
  obtain ⟨hiff, hall⟩ := System.heads_submitted_iff serdeJson_conforms
    (new_service (some tsaUrl)) rfl hrun hcomplete
  have hsubmitted := hall hprompt
  exact ⟨_, six, record, record', hrun, hcomplete, hrecords, hprompt, hsubmitted record hmem,
    hsubmitted record' hmem', hiff.mp hsubmitted record hmem, hiff.mp hsubmitted record' hmem'⟩

end Sample

end UnidppLog
