/-
# What the store's operations do

A valid store's tree is the one its entries build, and its entries count up from
zero. Every operation keeps a store valid, so a valid store is known by its
entries and its journal, and replay is the line-by-line relation on the bytes:
opening a journal succeeds exactly when replay recovers its entries.
-/

import UnidppLog.Store
import Mathlib.Logic.Relation

namespace UnidppLog

open Unidpp
open Journal (Recovers Replays Sequenced Blank)

variable [Unidpp]

/-- A record that stands right behind these entries. -/
def inSequence (entries : List CommitRecord) (record : CommitRecord) : Prop :=
  record.seq = UInt64.ofNat entries.length

namespace LogStore

/-- The commitments in the tree. -/
def commitments (store : LogStore) : List Hash :=
  store.entries.map CommitRecord.commitment

theorem length_commitments (store : LogStore) :
    store.commitments.length = store.entries.length :=
  List.length_map _

/-- The derived state is the one its entries determine. -/
structure Valid (store : LogStore) : Prop where
  tree_eq : MerkleTree.new.appendAll store.commitments = some store.tree
  seq_eq : ∀ (i : ℕ) (record : CommitRecord),
    store.entries[i]? = some record → record.seq = UInt64.ofNat i

theorem Valid.represents {store : LogStore} (hvalid : store.Valid) :
    store.tree.Represents store.commitments :=
  MerkleTree.represents_of_appendAll hvalid.tree_eq

theorem Valid.length_lt {store : LogStore} (hvalid : store.Valid) :
    store.entries.length < 2 ^ 64 := by
  simpa [commitments] using hvalid.represents.size_lt

/-- Valid stores with the same entries and journal are the same. -/
theorem Valid.ext {store store' : LogStore} (hvalid : store.Valid) (hvalid' : store'.Valid)
    (hentries : store.entries = store'.entries) (hjournal : store.journal = store'.journal) :
    store = store' := by
  obtain ⟨tree, entries, journal⟩ := store
  obtain ⟨tree', entries', journal'⟩ := store'
  obtain rfl : entries = entries' := hentries
  obtain rfl : journal = journal' := hjournal
  have htree := hvalid.tree_eq.symm.trans hvalid'.tree_eq
  obtain rfl : tree = tree' := Option.some.inj htree
  rfl

/-- The store before anything is appended. -/
theorem valid_empty (journal : Option (List UInt8)) :
    Valid { tree := .new, entries := [], journal } where
  tree_eq := rfl
  seq_eq i record hi := by simp at hi

theorem apply_eq_some_iff {store store' : LogStore} {record : CommitRecord} :
    store.apply record = some store' ↔
      ∃ tree, store.tree.append record.commitment = some tree ∧
        { store with tree, entries := store.entries ++ [record] } = store' := by
  simp only [apply, Option.bind_eq_bind, Option.bind_eq_some_iff, Option.pure_def,
    Option.some.injEq]

/-- Applying the next record in sequence keeps the store valid. -/
theorem Valid.apply {store store' : LogStore} {record : CommitRecord} (hvalid : store.Valid)
    (hseq : inSequence store.entries record) (happly : store.apply record = some store') :
    store'.Valid ∧ store'.entries = store.entries ++ [record] ∧
      store'.journal = store.journal := by
  obtain ⟨tree, htree, rfl⟩ := apply_eq_some_iff.mp happly
  refine ⟨⟨?_, fun i r hi => ?_⟩, rfl, rfl⟩
  · have hrun := hvalid.tree_eq
    rw [MerkleTree.appendAll, commitments] at hrun ⊢
    rw [List.map_append, List.foldlM_append, hrun]
    simpa using htree
  · rcases Nat.lt_or_ge i store.entries.length with hlt | hge
    · exact hvalid.seq_eq i r (by rwa [List.getElem?_append_left hlt] at hi)
    · rw [List.getElem?_append_right hge, List.getElem?_singleton] at hi
      split at hi
      · next hzero =>
        obtain rfl : record = r := by simpa using hi
        rw [hseq]
        congr 1
        omega
      · simp at hi

/-- A store with room for one more entry applies any record. -/
theorem Valid.exists_apply {store : LogStore} (hvalid : store.Valid) (record : CommitRecord)
    (hroom : store.entries.length + 1 < 2 ^ 64) : ∃ store', store.apply record = some store' := by
  obtain ⟨tree, htree, -⟩ := hvalid.represents.append record.commitment
    (by simpa [commitments] using hroom)
  exact ⟨_, apply_eq_some_iff.mpr ⟨tree, htree, rfl⟩⟩

theorem Valid.withJournal {store : LogStore} (hvalid : store.Valid)
    (journal : Option (List UInt8)) : Valid { store with journal } :=
  ⟨hvalid.tree_eq, hvalid.seq_eq⟩

theorem inSequence_nextRecord (store : LogStore) (request : AppendRequest) :
    inSequence store.entries (store.nextRecord request) :=
  rfl

variable [SerdeJson]

/-! ## Replay -/

/-- A line that replay accepts is the next record, or it is the last line, no
record and not blank. -/
theorem replayLine_eq_ok_iff {store store' : LogStore} {lineNo : ℕ} {line : String}
    {isLast : Bool} :
    store.replayLine lineNo line isLast = some (.ok store') ↔
      (∃ record, parseLine line = .ok record ∧ inSequence store.entries record ∧
        store.apply record = some store') ∨
      (isLast = true ∧ store' = store ∧ (∃ e, parseLine line = .error e) ∧
        ¬ Blank line.toList) := by
  rw [replayLine]
  cases hparse : parseLine line with
  | ok record =>
      simp only [Except.ok.injEq, reduceCtorEq, exists_false, false_and, and_false, or_false,
        exists_eq_left']
      split
      · next hne => simp [inSequence, hne]
      · next heq => simp [inSequence, not_not.mp heq]
  | error e =>
      simp only [reduceCtorEq, false_and, exists_false, Except.error.injEq, exists_eq', true_and,
        false_or]
      rw [Blank, ← Text.trim_eq_nil_iff]
      split
      · next h => simp [h, eq_comm]
      · next h =>
        simp only [Option.some.injEq, reduceCtorEq, false_iff]
        rintro ⟨hlast, -, hvisible⟩
        exact h ⟨hlast, hvisible⟩

/-- The loop accepts what the replay relation accepts, one line ahead or not. -/
theorem Valid.replayLoop {store store' : LogStore} (hvalid : store.Valid) {lineNo : ℕ}
    {line : String} {rest : List (Except String String)}
    (hrun : store.replayLoop lineNo line rest = some (.ok store')) :
    ∃ texts : List String, rest = texts.map .ok ∧
      Replays lineCodec inSequence store.entries (line :: texts) store'.entries ∧
        store'.Valid ∧ store'.journal = store.journal := by
  induction rest generalizing store lineNo line with
  | nil =>
      refine ⟨[], rfl, ?_⟩
      rcases replayLine_eq_ok_iff.mp hrun with ⟨record, hparse, hseq, happly⟩ |
        ⟨-, rfl, ⟨e, hparse⟩, hvisible⟩
      · obtain ⟨hvalid', hentries, hjournal⟩ := hvalid.apply hseq happly
        refine ⟨.record hparse hseq ?_, hvalid', hjournal⟩
        rw [hentries]
        exact .done _
      · exact ⟨.torn hparse hvisible, hvalid, rfl⟩
  | cons next rest ih =>
      cases next with
      | error e => simp [LogStore.replayLoop] at hrun
      | ok next =>
          simp only [LogStore.replayLoop, Option.bind_eq_bind, Option.bind_eq_some_iff] at hrun
          obtain ⟨result, hline, hrun⟩ := hrun
          cases result with
          | error e => simp at hrun
          | ok mid =>
              rcases replayLine_eq_ok_iff.mp hline with ⟨record, hparse, hseq, happly⟩ | ⟨hlast, -⟩
              · obtain ⟨hmid, hentries, hjournal⟩ := hvalid.apply hseq happly
                obtain ⟨texts, rfl, hreplays, hvalid', hjournal'⟩ := ih hmid hrun
                rw [hentries] at hreplays
                exact ⟨next :: texts, rfl, .record hparse hseq hreplays, hvalid',
                  hjournal'.trans hjournal⟩
              · simp at hlast

/-- What the replay relation accepts, the loop accepts, as long as the entries
fit a `u64`. -/
theorem Valid.exists_replayLoop {store : LogStore} (hvalid : store.Valid) {line : String}
    {texts : List String} {entries : List CommitRecord}
    (hreplays : Replays lineCodec inSequence store.entries (line :: texts) entries)
    (hroom : entries.length < 2 ^ 64) (lineNo : ℕ) :
    ∃ store', store.replayLoop lineNo line (texts.map .ok) = some (.ok store') ∧
      store'.entries = entries := by
  induction texts generalizing store line lineNo with
  | nil =>
      cases hreplays with
      | torn hparse hvisible =>
          exact ⟨store, replayLine_eq_ok_iff.mpr (.inr ⟨rfl, rfl, ⟨_, hparse⟩, hvisible⟩), rfl⟩
      | @record _ _ _ _ record hparse hseq hrest =>
          cases hrest
          obtain ⟨store', happly⟩ := hvalid.exists_apply record (by simpa using hroom)
          exact ⟨store', replayLine_eq_ok_iff.mpr (.inl ⟨record, hparse, hseq, happly⟩),
            (hvalid.apply hseq happly).2.1⟩
  | cons next texts ih =>
      cases hreplays with
      | @record _ _ _ _ record hparse hseq hrest =>
          have hlen := hrest.length_le
          rw [List.length_append, List.length_singleton] at hlen
          obtain ⟨mid, happly⟩ := hvalid.exists_apply record (by omega)
          obtain ⟨hmid, hentries, -⟩ := hvalid.apply hseq happly
          rw [← hentries] at hrest
          obtain ⟨store', hrun, hentries'⟩ := ih hmid hrest (lineNo + 1)
          refine ⟨store', ?_, hentries'⟩
          have hline : store.replayLine lineNo line false = some (.ok mid) :=
            replayLine_eq_ok_iff.mpr (.inl ⟨record, hparse, hseq, happly⟩)
          simp only [List.map_cons, LogStore.replayLoop, hline, Option.bind_eq_bind,
            Option.bind_some]
          exact hrun

theorem Valid.replay {store store' : LogStore} (hvalid : store.Valid) {bytes : List UInt8}
    (hrun : store.replay bytes = some (.ok store')) :
    ∃ texts : List String, Text.lines bytes = texts.map .ok ∧
      Replays lineCodec inSequence store.entries texts store'.entries ∧ store'.Valid := by
  rw [LogStore.replay] at hrun
  split at hrun
  · next hlines =>
    obtain rfl : store = store' := by simpa using hrun
    exact ⟨[], hlines, .done _, hvalid⟩
  · simp at hrun
  · next line rest hlines =>
    obtain ⟨texts, rfl, hreplays, hvalid', -⟩ := hvalid.replayLoop hrun
    exact ⟨line :: texts, hlines, hreplays, hvalid'⟩

theorem Valid.exists_replay {store : LogStore} (hvalid : store.Valid) {bytes : List UInt8}
    {texts : List String} {entries : List CommitRecord}
    (hlines : Text.lines bytes = texts.map .ok)
    (hreplays : Replays lineCodec inSequence store.entries texts entries)
    (hroom : entries.length < 2 ^ 64) :
    ∃ store', store.replay bytes = some (.ok store') ∧ store'.entries = entries := by
  rw [LogStore.replay, hlines]
  cases texts with
  | nil =>
      cases hreplays
      exact ⟨store, rfl, rfl⟩
  | cons line texts => exact hvalid.exists_replayLoop hreplays hroom 1

/-- Opening a journal succeeds exactly when its bytes recover the entries of a
valid store. -/
theorem open_eq_ok_iff {bytes : List UInt8} {store : LogStore} :
    LogStore.open (some (some bytes)) = some (.ok store) ↔
      Recovers lineCodec inSequence bytes store.entries ∧ store.Valid ∧
        store.journal = some bytes := by
  constructor
  · intro hopen
    simp only [LogStore.open, Option.bind_eq_bind, Option.bind_eq_some_iff] at hopen
    obtain ⟨result, hrun, hopen⟩ := hopen
    cases result with
    | error e => simp at hopen
    | ok replayed =>
        obtain rfl : { replayed with journal := some bytes } = store := by simpa using hopen
        obtain ⟨texts, hlines, hreplays, hvalid⟩ := (valid_empty none).replay hrun
        exact ⟨⟨texts, hlines, hreplays⟩, hvalid.withJournal _, rfl⟩
  · rintro ⟨⟨texts, hlines, hreplays⟩, hvalid, hjournal⟩
    obtain ⟨replayed, hrun, hentries⟩ :=
      (valid_empty none).exists_replay hlines hreplays hvalid.length_lt
    obtain ⟨-, -, -, hvalid'⟩ := (valid_empty none).replay hrun
    have heq : { replayed with journal := some bytes } = store :=
      (hvalid'.withJournal _).ext hvalid hentries hjournal.symm
    simp only [LogStore.open, hrun, Option.bind_eq_bind, Option.bind_some, ← heq]
    rfl

/-- A journal that is not there yet opens empty. -/
theorem open_absent :
    LogStore.open (some none) =
      some (.ok { tree := .new, entries := [], journal := some [] }) :=
  rfl

/-- Opening a journal, absent or not, recovers its bytes. -/
theorem recovers_of_open {file : JournalFile} {store : LogStore}
    (hopen : LogStore.open (some file) = some (.ok store)) :
    Recovers lineCodec inSequence (file.getD []) store.entries ∧ store.Valid ∧
      store.journal = some (file.getD []) := by
  cases file with
  | none =>
      rw [open_absent] at hopen
      simp only [Option.some.injEq, Except.ok.injEq] at hopen
      subst hopen
      exact ⟨Journal.clean_nil.recovers, valid_empty _, rfl⟩
  | some bytes => exact open_eq_ok_iff.mp hopen

/-! ## Appending -/

theorem append_memory {store : LogStore} (hjournal : store.journal = none)
    (request : AppendRequest) (outcome : WriteOutcome) :
    store.append request outcome =
      (store.apply (store.nextRecord request)).map fun store' =>
        (.ok (store.nextRecord request), store') := by
  rw [append]
  simp only [hjournal]
  cases store.apply (store.nextRecord request) <;> rfl

theorem line_eq (record : CommitRecord) :
    lineCodec.line record = Text.encode (lineCodec.text record) ++ [Text.newline] :=
  rfl

/-- An append whose write succeeds extends the journal by the record's line. -/
theorem append_written (hjson : SerdeJson.Conforms) {store : LogStore} {bytes : List UInt8}
    (hjournal : store.journal = some bytes) (request : AppendRequest) :
    store.append request .written =
      ({ store with journal := some (bytes ++ lineCodec.line (store.nextRecord request)) }.apply
        (store.nextRecord request)).map fun store' => (.ok (store.nextRecord request), store') := by
  rw [append]
  simp only [hjournal, (store.nextRecord request).toString_toJson hjson, String.toList_ofList,
    ← line_eq]
  cases apply _ (store.nextRecord request) <;> rfl

/-- An append whose write fails leaves entries and tree alone, and a prefix of
the record's line in the journal. -/
theorem append_failed (hjson : SerdeJson.Conforms) {store : LogStore} {bytes : List UInt8}
    (hjournal : store.journal = some bytes) (request : AppendRequest) (kept : ℕ)
    (reason : String) :
    store.append request (.failed kept reason) =
      some (.error (.journal s!"journal write failed: {reason}"),
        { store with
          journal := some (bytes ++ (lineCodec.line (store.nextRecord request)).take kept) }) := by
  rw [append]
  simp only [hjournal, (store.nextRecord request).toString_toJson hjson, String.toList_ofList,
    ← line_eq]

/-- What an append can do: add the next record, to the journal too if there is
one, or fail to write it and leave a part of its line behind. -/
theorem Valid.append_cases (hjson : SerdeJson.Conforms) {store store' : LogStore}
    (hvalid : store.Valid) {request : AppendRequest} {outcome : WriteOutcome}
    {result : Except StoreError CommitRecord}
    (hrun : store.append request outcome = some (result, store')) :
    (result = .ok (store.nextRecord request) ∧ store'.Valid ∧
      store'.entries = store.entries ++ [store.nextRecord request] ∧
        store'.journal = store.journal.map (· ++ lineCodec.line (store.nextRecord request))) ∨
      ∃ bytes kept reason, outcome = .failed kept reason ∧ store.journal = some bytes ∧
        result = .error (.journal s!"journal write failed: {reason}") ∧ store' = { store with
          journal := some (bytes ++ (lineCodec.line (store.nextRecord request)).take kept) } := by
  have hseq := inSequence_nextRecord store request
  cases hjournal : store.journal with
  | none =>
      rw [append_memory hjournal, Option.map_eq_some_iff] at hrun
      obtain ⟨next, happly, heq⟩ := hrun
      obtain ⟨rfl, rfl⟩ := Prod.mk.inj heq
      obtain ⟨hvalid', hentries, hjournal'⟩ := hvalid.apply hseq happly
      exact .inl ⟨rfl, hvalid', hentries, hjournal'.trans hjournal⟩
  | some bytes =>
      cases outcome with
      | failed kept reason =>
          rw [append_failed hjson hjournal, Option.some.injEq] at hrun
          obtain ⟨rfl, rfl⟩ := Prod.mk.inj hrun
          exact .inr ⟨bytes, kept, reason, rfl, rfl, rfl, rfl⟩
      | written =>
          rw [append_written hjson hjournal, Option.map_eq_some_iff] at hrun
          obtain ⟨next, happly, heq⟩ := hrun
          obtain ⟨rfl, rfl⟩ := Prod.mk.inj heq
          have hmid :=
            hvalid.withJournal (some (bytes ++ lineCodec.line (store.nextRecord request)))
          obtain ⟨hvalid', hentries, hjournal'⟩ := hmid.apply hseq happly
          exact .inl ⟨rfl, hvalid', hentries, hjournal'⟩

/-- A successful append adds the next record, to the journal too if there is
one. -/
theorem Valid.append (hjson : SerdeJson.Conforms) {store store' : LogStore}
    (hvalid : store.Valid) {request : AppendRequest} {outcome : WriteOutcome}
    {record : CommitRecord} (hrun : store.append request outcome = some (.ok record, store')) :
    record = store.nextRecord request ∧ store'.Valid ∧
      store'.entries = store.entries ++ [record] ∧
        store'.journal = store.journal.map (· ++ lineCodec.line record) := by
  rcases hvalid.append_cases hjson hrun with ⟨hresult, hvalid', hentries, hjournal⟩ |
    ⟨bytes, kept, reason, -, -, hresult, -⟩
  · obtain rfl := Except.ok.inj hresult
    exact ⟨rfl, hvalid', hentries, hjournal⟩
  · simp at hresult

/-- A record that was appended is found at its number. -/
theorem Valid.getElem?_of_append (hjson : SerdeJson.Conforms) {store store' : LogStore}
    (hvalid : store.Valid) {request : AppendRequest} {outcome : WriteOutcome}
    {record : CommitRecord} (hrun : store.append request outcome = some (.ok record, store')) :
    record.seq.toNat = store.entries.length ∧ store'.entries[record.seq.toNat]? = some record := by
  obtain ⟨rfl, -, hentries, -⟩ := hvalid.append hjson hrun
  have hseq : (store.nextRecord request).seq.toNat = store.entries.length := by
    rw [nextRecord, UInt64.toNat_ofNat', Nat.mod_eq_of_lt hvalid.length_lt]
  exact ⟨hseq, by rw [hentries, hseq, List.getElem?_concat_length]⟩

/-- With room for one more entry, an append whose write succeeds is
acknowledged. -/
theorem Valid.exists_append (hjson : SerdeJson.Conforms) {store : LogStore}
    (hvalid : store.Valid) (request : AppendRequest)
    (hroom : store.entries.length + 1 < 2 ^ 64) :
    ∃ store', store.append request .written = some (.ok (store.nextRecord request), store') := by
  cases hjournal : store.journal with
  | none =>
      obtain ⟨store', happly⟩ := hvalid.exists_apply (store.nextRecord request) hroom
      exact ⟨store', by rw [append_memory hjournal, happly]; rfl⟩
  | some bytes =>
      obtain ⟨store', happly⟩ :=
        (hvalid.withJournal
          (some (bytes ++ lineCodec.line (store.nextRecord request)))).exists_apply
            (store.nextRecord request) hroom
      exact ⟨store', by rw [append_written hjson hjournal, happly]; rfl⟩

/-- With room for one more entry no append panics. -/
theorem Valid.append_ne_none (hjson : SerdeJson.Conforms) {store : LogStore}
    (hvalid : store.Valid) (request : AppendRequest) (outcome : WriteOutcome)
    (hroom : store.entries.length + 1 < 2 ^ 64) : store.append request outcome ≠ none := by
  obtain ⟨written, hwritten⟩ := hvalid.exists_append hjson request hroom
  cases outcome with
  | written => simp [hwritten]
  | failed kept reason =>
      cases hjournal : store.journal with
      | none =>
          rw [append_memory hjournal] at hwritten ⊢
          simp [hwritten]
      | some bytes => simp [append_failed hjson hjournal]

/-- Without room for one more entry, the tree's size overflows. -/
theorem Valid.append_eq_none (hjson : SerdeJson.Conforms) {store : LogStore}
    (hvalid : store.Valid) (request : AppendRequest)
    (hfull : 2 ^ 64 ≤ store.entries.length + 1) : store.append request .written = none := by
  cases hrun : store.append request .written with
  | none => rfl
  | some p =>
      rcases hvalid.append_cases hjson hrun with ⟨-, hvalid', hentries, -⟩ |
        ⟨bytes, kept, reason, houtcome, -⟩
      · have hlt := hvalid'.length_lt
        rw [hentries, List.length_append, List.length_singleton] at hlt
        omega
      · simp at houtcome

/-- Appends whose writes all succeed, with the records they were acknowledged
with. -/
def appendAll (store : LogStore) : List AppendRequest → Option (List CommitRecord × LogStore)
  | [] => some ([], store)
  | request :: rest => do
    match ← store.append request .written with
    | (.error _, _) => none
    | (.ok record, store) =>
      let (records, store) ← store.appendAll rest
      return (record :: records, store)

theorem appendAll_cons_eq_some_iff {store store' : LogStore} {request : AppendRequest}
    {rest : List AppendRequest} {records : List CommitRecord} :
    store.appendAll (request :: rest) = some (records, store') ↔
      ∃ record mid records', store.append request .written = some (.ok record, mid) ∧
        mid.appendAll rest = some (records', store') ∧ records = record :: records' := by
  simp only [appendAll, Option.bind_eq_bind, Option.bind_eq_some_iff]
  constructor
  · rintro ⟨⟨result, mid⟩, happend, hrest⟩
    cases result with
    | error e => simp at hrest
    | ok record =>
        obtain ⟨⟨records', last⟩, hrun, heq⟩ := Option.bind_eq_some_iff.mp hrest
        obtain ⟨rfl, rfl⟩ : record :: records' = records ∧ last = store' := by simpa using heq
        exact ⟨record, mid, records', happend, hrun, rfl⟩
  · rintro ⟨record, mid, records', happend, hrun, rfl⟩
    exact ⟨_, happend, by simp [hrun]⟩

/-- A run of appends can be cut anywhere. -/
theorem appendAll_append (store : LogStore) (requests more : List AppendRequest) :
    store.appendAll (requests ++ more) = do
      let (records, mid) ← store.appendAll requests
      let (records', store') ← mid.appendAll more
      return (records ++ records', store') := by
  induction requests generalizing store with
  | nil => simp [appendAll]
  | cons request rest ih =>
      rw [List.cons_append, appendAll, appendAll]
      cases store.append request .written with
      | none => rfl
      | some p =>
          obtain ⟨result, mid⟩ := p
          cases result with
          | error e => rfl
          | ok record => simp [ih, Option.bind_assoc]

/-- A run of successful appends adds their records, in order and in sequence. -/
theorem Valid.appendAll (hjson : SerdeJson.Conforms) {store store' : LogStore}
    (hvalid : store.Valid) {requests : List AppendRequest} {records : List CommitRecord}
    (hrun : store.appendAll requests = some (records, store')) :
    store'.Valid ∧ store'.entries = store.entries ++ records ∧
      store'.journal = store.journal.map (· ++ lineCodec.written records) ∧
        Sequenced inSequence store.entries records ∧ records.length = requests.length := by
  induction requests generalizing store records with
  | nil =>
      obtain ⟨rfl, rfl⟩ : [] = records ∧ store = store' := by simpa [LogStore.appendAll] using hrun
      refine ⟨hvalid, by simp, ?_, trivial, rfl⟩
      cases store.journal <;> simp [Journal.Codec.written]
  | cons request rest ih =>
      obtain ⟨record, mid, records', happend, hrest, rfl⟩ := appendAll_cons_eq_some_iff.mp hrun
      obtain ⟨rfl, hmid, hentries, hjournal⟩ := hvalid.append hjson happend
      obtain ⟨hvalid', hentries', hjournal', hseq, hlen⟩ := ih hmid hrest
      rw [hentries] at hentries' hseq
      refine ⟨hvalid', by simpa using hentries', ?_,
        ⟨inSequence_nextRecord store request, hseq⟩, by simp [hlen]⟩
      rw [hjournal', hjournal]
      cases store.journal <;> simp [Journal.Codec.written]

/-- With room for all of them, appends whose writes succeed are acknowledged. -/
theorem Valid.exists_appendAll (hjson : SerdeJson.Conforms) {store : LogStore}
    (hvalid : store.Valid) (requests : List AppendRequest)
    (hroom : store.entries.length + requests.length < 2 ^ 64) :
    ∃ records store', store.appendAll requests = some (records, store') := by
  induction requests generalizing store with
  | nil => exact ⟨[], store, rfl⟩
  | cons request rest ih =>
      rw [List.length_cons] at hroom
      obtain ⟨mid, happend⟩ := hvalid.exists_append hjson request (by omega)
      obtain ⟨-, hmid, hentries, -⟩ := hvalid.append hjson happend
      obtain ⟨records, store', hrun⟩ := ih hmid
        (by rw [hentries, List.length_append, List.length_singleton]; omega)
      exact ⟨_, store', appendAll_cons_eq_some_iff.mpr ⟨_, mid, records, happend, hrun, rfl⟩⟩

/-- One append, whatever becomes of its write. -/
def Appends (store store' : LogStore) : Prop :=
  ∃ request outcome result, store.append request outcome = some (result, store')

/-- Any number of appends. -/
def Later : LogStore → LogStore → Prop :=
  Relation.ReflTransGen Appends

/-- A store that was opened and appended to. -/
def Reachable (store : LogStore) : Prop :=
  ∃ journal opened, LogStore.open journal = some (.ok opened) ∧ opened.Later store

/-- An append keeps the store valid and what is in it. -/
theorem Valid.appends {store store' : LogStore} (hvalid : store.Valid)
    (happends : store.Appends store') :
    store'.Valid ∧ store.entries <+: store'.entries := by
  obtain ⟨request, outcome, result, hrun⟩ := happends
  have happly : ∀ journal next,
      { store with journal }.apply (store.nextRecord request) = some next →
        next.Valid ∧ store.entries <+: next.entries := by
    intro journal next happly
    obtain ⟨hnext, hentries, -⟩ := (hvalid.withJournal journal).apply
      (inSequence_nextRecord store request) happly
    exact ⟨hnext, hentries ▸ List.prefix_append _ _⟩
  rw [LogStore.append] at hrun
  simp only [Option.bind_eq_bind, Option.pure_def] at hrun
  split at hrun
  · obtain ⟨next, hnext, heq⟩ := Option.bind_eq_some_iff.mp hrun
    obtain ⟨-, rfl⟩ := Prod.mk.inj (Option.some.inj heq)
    exact happly store.journal next hnext
  split at hrun
  · obtain ⟨-, rfl⟩ := Prod.mk.inj (Option.some.inj hrun)
    exact ⟨hvalid, List.prefix_rfl⟩
  split at hrun
  · obtain ⟨-, rfl⟩ := Prod.mk.inj (Option.some.inj hrun)
    exact ⟨hvalid.withJournal _, List.prefix_rfl⟩
  · obtain ⟨next, hnext, heq⟩ := Option.bind_eq_some_iff.mp hrun
    obtain ⟨-, rfl⟩ := Prod.mk.inj (Option.some.inj heq)
    exact happly _ next hnext

theorem Valid.later {store store' : LogStore} (hvalid : store.Valid)
    (hlater : store.Later store') : store'.Valid ∧ store.entries <+: store'.entries := by
  induction hlater with
  | refl => exact ⟨hvalid, List.prefix_rfl⟩
  | tail _ happends ih =>
      obtain ⟨hmid, hinitial⟩ := ih
      obtain ⟨hvalid', hinitial'⟩ := hmid.appends happends
      exact ⟨hvalid', hinitial.trans hinitial'⟩

/-- What is opened is valid. -/
theorem valid_of_open {journal : Option JournalFile} {store : LogStore}
    (hopen : LogStore.open journal = some (.ok store)) : store.Valid := by
  rcases journal with - | - | bytes
  · obtain rfl : _ = store := by simpa [LogStore.open] using hopen
    exact valid_empty none
  · obtain rfl : _ = store := by simpa [LogStore.open] using hopen
    exact valid_empty (some [])
  · exact (open_eq_ok_iff.mp hopen).2.1

theorem Reachable.valid {store : LogStore} (hreachable : store.Reachable) : store.Valid := by
  obtain ⟨journal, opened, hopen, hlater⟩ := hreachable
  exact ((valid_of_open hopen).later hlater).1

end LogStore

end UnidppLog
