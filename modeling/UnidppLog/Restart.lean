/-
# Clean restarts

A log that is closed and opened again any number of times is the log that runs
without a break and without a journal. The two run in step: the journal of the
one holds exactly one line for each entry, and opening it gives the same store
back.
-/

import UnidppLog.Receipt

namespace UnidppLog

open Unidpp
open Journal (Clean)

section

variable [Unidpp] [SerdeJson]

namespace LogStore

/-- One session on a journal: open it and append. -/
def session (file : JournalFile) (requests : List AppendRequest) : Option LogStore := do
  match ← LogStore.open (some file) with
  | .error _ => none
  | .ok store =>
    let (_, store) ← store.appendAll requests
    return store

/-- Sessions on one journal, each closed before the next one opens it. The store
is that of the last session. -/
def sessions (file : JournalFile) (requests : List AppendRequest) :
    List (List AppendRequest) → Option LogStore
  | [] => session file requests
  | next :: rest => do
    let store ← session file requests
    sessions store.journal next rest

/-- A store in memory and one with a journal, in step. -/
structure InStep (live durable : LogStore) : Prop where
  live_valid : live.Valid
  durable_valid : durable.Valid
  entries_eq : durable.entries = live.entries
  clean : ∃ bytes, durable.journal = some bytes ∧
    Clean lineCodec inSequence bytes durable.entries

variable {live durable : LogStore}

theorem InStep.tree_eq (h : InStep live durable) : durable.tree = live.tree := by
  have hlive := h.live_valid.tree_eq
  have hdurable := h.durable_valid.tree_eq
  rw [commitments, h.entries_eq] at hdurable
  exact Option.some.inj (hdurable.symm.trans hlive)

/-- Closing and opening changes nothing. -/
theorem InStep.open_eq (h : InStep live durable) :
    LogStore.open (some durable.journal) = some (.ok durable) := by
  obtain ⟨bytes, hjournal, hclean⟩ := h.clean
  rw [hjournal]
  exact open_eq_ok_iff.mpr ⟨hclean.recovers, h.durable_valid, hjournal⟩

/-- One append keeps the stores in step, or overflows both. -/
theorem InStep.append (hforms : RecordTextForms) (hjson : SerdeJson.Conforms)
    (h : InStep live durable) (request : AppendRequest) :
    (live.append request .written = none ∧ durable.append request .written = none) ∨
      ∃ record live' durable', live.append request .written = some (.ok record, live') ∧
        durable.append request .written = some (.ok record, durable') ∧
          InStep live' durable' := by
  have hlen : durable.entries.length = live.entries.length := by rw [h.entries_eq]
  rcases Nat.lt_or_ge (live.entries.length + 1) (2 ^ 64) with hroom | hfull
  · right
    have hrecord : durable.nextRecord request = live.nextRecord request := by
      rw [nextRecord, nextRecord, hlen]
    obtain ⟨live', hlive⟩ := h.live_valid.exists_append hjson request hroom
    obtain ⟨durable', hdurable⟩ := h.durable_valid.exists_append hjson request (by omega)
    obtain ⟨-, hvalid, hentries, -⟩ := h.live_valid.append hjson hlive
    obtain ⟨-, hvalid', hentries', hjournal'⟩ := h.durable_valid.append hjson hdurable
    obtain ⟨bytes, hjournal, hclean⟩ := h.clean
    rw [hjournal, Option.map_some] at hjournal'
    have hclean' := hclean.append (lineCodec_lawful hforms hjson)
      (inSequence_nextRecord durable request)
    rw [← hentries'] at hclean'
    refine ⟨_, live', durable', hlive, hrecord ▸ hdurable, hvalid, hvalid', ?_, _, hjournal',
      hclean'⟩
    rw [hentries, hentries', h.entries_eq, hrecord]
  · left
    exact ⟨h.live_valid.append_eq_none hjson request hfull,
      h.durable_valid.append_eq_none hjson request (by omega)⟩

theorem InStep.appendAll (hforms : RecordTextForms) (hjson : SerdeJson.Conforms)
    (h : InStep live durable) (requests : List AppendRequest) :
    (live.appendAll requests = none ∧ durable.appendAll requests = none) ∨
      ∃ records live' durable', live.appendAll requests = some (records, live') ∧
        durable.appendAll requests = some (records, durable') ∧ InStep live' durable' := by
  induction requests generalizing live durable with
  | nil => exact .inr ⟨[], live, durable, rfl, rfl, h⟩
  | cons request rest ih =>
      rcases h.append hforms hjson request with ⟨hlive, hdurable⟩ |
        ⟨record, live₁, durable₁, hlive, hdurable, h₁⟩
      · exact .inl (by simp [LogStore.appendAll, hlive, hdurable])
      · rcases ih h₁ with ⟨hlive', hdurable'⟩ | ⟨records, live', durable', hlive', hdurable', h'⟩
        · exact .inl (by simp [LogStore.appendAll, hlive, hdurable, hlive', hdurable'])
        · refine .inr ⟨record :: records, live', durable', ?_, ?_, h'⟩
          · exact appendAll_cons_eq_some_iff.mpr ⟨_, _, _, hlive, hlive', rfl⟩
          · exact appendAll_cons_eq_some_iff.mpr ⟨_, _, _, hdurable, hdurable', rfl⟩

/-- A session on the journal keeps the stores in step. -/
theorem InStep.session (hforms : RecordTextForms) (hjson : SerdeJson.Conforms)
    (h : InStep live durable) (requests : List AppendRequest) :
    (live.appendAll requests = none ∧ LogStore.session durable.journal requests = none) ∨
      ∃ records live' durable', live.appendAll requests = some (records, live') ∧
        LogStore.session durable.journal requests = some durable' ∧ InStep live' durable' := by
  rw [LogStore.session, h.open_eq]
  rcases h.appendAll hforms hjson requests with ⟨hlive, hdurable⟩ |
    ⟨records, live', durable', hlive, hdurable, h'⟩
  · exact .inl ⟨hlive, by simp [hdurable]⟩
  · exact .inr ⟨records, live', durable', hlive, by simp [hdurable], h'⟩

theorem InStep.sessions (hforms : RecordTextForms) (hjson : SerdeJson.Conforms)
    (h : InStep live durable) (requests : List AppendRequest) (rest : List (List AppendRequest)) :
    (live.appendAll (requests ++ rest.flatten) = none ∧
        LogStore.sessions durable.journal requests rest = none) ∨
      ∃ records live' durable', live.appendAll (requests ++ rest.flatten) = some (records, live') ∧
        LogStore.sessions durable.journal requests rest = some durable' ∧
          InStep live' durable' := by
  induction rest generalizing live durable requests with
  | nil =>
      rw [List.flatten_nil, List.append_nil, LogStore.sessions]
      exact h.session hforms hjson requests
  | cons next rest ih =>
      rw [appendAll_append, List.flatten_cons, LogStore.sessions]
      rcases h.session hforms hjson requests with ⟨hlive, hdurable⟩ |
        ⟨records, live₁, durable₁, hlive, hdurable, h₁⟩
      · exact .inl (by simp [hlive, hdurable])
      · rcases ih h₁ next with ⟨hlive', hdurable'⟩ |
          ⟨records', live', durable', hlive', hdurable', h'⟩
        · exact .inl (by simp [hlive, hdurable, hlive', hdurable'])
        · exact .inr ⟨records ++ records', live', durable', by simp [hlive, hlive'],
            by simp [hdurable, hdurable'], h'⟩

/-- The log in memory and the journal that is not there yet. -/
theorem inStep_empty :
    InStep { tree := .new, entries := [], journal := none }
      { tree := .new, entries := [], journal := some [] } where
  live_valid := valid_empty none
  durable_valid := valid_empty (some [])
  entries_eq := rfl
  clean := ⟨[], rfl, Journal.clean_nil⟩

theorem sessions_absent (requests : List AppendRequest) (rest : List (List AppendRequest)) :
    sessions none requests rest = sessions (some []) requests rest := by
  cases rest <;> rfl

end LogStore

/-- Sessions on a journal that is not there yet overflow when the same appends in
memory do. Otherwise they end with the same entries and tree, and so with the
same head, receipts and consistency proofs. -/
theorem sessions_eq_appendAll (hforms : RecordTextForms) (hjson : SerdeJson.Conforms)
    {memory : LogStore} (hmemory : LogStore.open none = some (.ok memory))
    (requests : List AppendRequest) (rest : List (List AppendRequest)) :
    (memory.appendAll (requests ++ rest.flatten) = none →
        LogStore.sessions none requests rest = none) ∧
      ∀ records live, memory.appendAll (requests ++ rest.flatten) = some (records, live) →
        ∃ final, LogStore.sessions none requests rest = some final ∧
          final.entries = live.entries ∧ final.tree = live.tree ∧
            ∀ (logId : String) (operator : KeyPair),
              currentHead final logId operator = currentHead live logId operator ∧
                (∀ seq, Receipt.of final seq logId operator = Receipt.of live seq logId operator) ∧
                  ∀ m, final.consistencyPath m = live.consistencyPath m := by
  have hinit : memory = { tree := .new, entries := [], journal := none } := by
    simpa [LogStore.open] using hmemory.symm
  rw [hinit, LogStore.sessions_absent]
  rcases LogStore.inStep_empty.sessions hforms hjson requests rest with ⟨hlive, hdurable⟩ |
    ⟨records, live, final, hlive, hdurable, hstep⟩
  · exact ⟨fun _ => hdurable, by simp [hlive]⟩
  · refine ⟨by simp [hlive], fun records' live' hrun => ?_⟩
    obtain ⟨-, rfl⟩ : records = records' ∧ live = live' := by simpa [hlive] using hrun
    have heq : final = { live with journal := final.journal } := by
      rw [← hstep.entries_eq, ← hstep.tree_eq]
    refine ⟨final, hdurable, hstep.entries_eq, hstep.tree_eq, fun logId operator => ?_⟩
    rw [heq]
    exact ⟨rfl, fun _ => rfl, fun _ => rfl⟩

end

/-- Two records in one session and in two with an idle one between. -/
theorem Sample.sessions_of_two :
    ∃ memory records live final, LogStore.open none = some (.ok memory) ∧
      memory.appendAll [request 1 "dpp:1", request 2 "dpp:2"] = some (records, live) ∧
        LogStore.sessions none [request 1 "dpp:1"] [[], [request 2 "dpp:2"]] = some final ∧
          final.entries = live.entries ∧ final.tree = live.tree := by
  have hopen : LogStore.open none =
      some (.ok { tree := .new, entries := [], journal := none }) := rfl
  obtain ⟨records, live, hrun⟩ := (LogStore.valid_empty none).exists_appendAll serdeJson_conforms
    [request 1 "dpp:1", request 2 "dpp:2"] (by decide)
  obtain ⟨final, hfinal, hentries, htree, -⟩ :=
    (sessions_eq_appendAll recordTextForms serdeJson_conforms hopen [request 1 "dpp:1"]
      [[], [request 2 "dpp:2"]]).2 records live hrun
  exact ⟨_, records, live, final, hopen, hrun, hfinal, hentries, htree⟩

end UnidppLog
