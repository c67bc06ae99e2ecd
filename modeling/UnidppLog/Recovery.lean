/-
# Opening a journal that was written to

When does opening the journal of a running store yield the store's entries? A
journal that replay accepted may end in a line without its line feed, or in a
torn line; the next record is written right behind it and lost. A journal that
ends in a complete record takes any number of further records, and a cut line
behind those is forgiven unless the cut goes through a character.
-/

import UnidppLog.Sample.Log
import UnidppLog.Journal.Tail

namespace UnidppLog

open Unidpp
open Journal (Recovers Clean EndsInRecord VisibleTail)
open Text (decode encode newline)

section

theorem not_blank_brace : ¬ Journal.Blank ['{'] :=
  not_blank_of_mem List.mem_cons_self

variable [Unidpp] [SerdeJson]

/-- Opening the journal again yields a log of these entries. -/
def LogStore.Reopens (store : LogStore) (entries : List CommitRecord) : Prop :=
  ∃ reopened, LogStore.open (some store.journal) = some (.ok reopened) ∧
    reopened.entries = entries

namespace LogStore

theorem Valid.reopens_iff {store : LogStore} (hvalid : store.Valid) {bytes : List UInt8}
    (hjournal : store.journal = some bytes) :
    store.Reopens store.entries ↔ Recovers lineCodec inSequence bytes store.entries := by
  rw [Reopens, hjournal]
  constructor
  · rintro ⟨reopened, hopen, hentries⟩
    rw [← hentries]
    exact (open_eq_ok_iff.mp hopen).1
  · intro hrecovers
    exact ⟨store, open_eq_ok_iff.mpr ⟨hrecovers, hvalid, hjournal⟩, rfl⟩

theorem Reopens.unique {store : LogStore} {entries entries' : List CommitRecord}
    (h : store.Reopens entries) (h' : store.Reopens entries') : entries = entries' := by
  obtain ⟨reopened, hopen, rfl⟩ := h
  obtain ⟨reopened', hopen', rfl⟩ := h'
  have heq := hopen.symm.trans hopen'
  simp only [Option.some.injEq, Except.ok.injEq] at heq
  rw [heq]

theorem Reopens.of_recovers {store : LogStore} (hvalid : store.Valid) {bytes : List UInt8}
    {other : LogStore} (hjournal : other.journal = some bytes)
    (hrecovers : Recovers lineCodec inSequence bytes store.entries) :
    other.Reopens store.entries := by
  refine ⟨{ store with journal := some bytes }, ?_, rfl⟩
  rw [hjournal]
  exact open_eq_ok_iff.mpr ⟨hrecovers, hvalid.withJournal _, rfl⟩

/-! ## Appending to what was opened -/

/-- Appends to an opened journal are recovered, behind what was there, exactly
when there are none or the journal was empty or ended in a complete record. -/
theorem reopens_appendAll_iff (hforms : RecordTextForms) (hjson : SerdeJson.Conforms)
    {bytes : List UInt8} {store grown : LogStore} {requests : List AppendRequest}
    {records : List CommitRecord}
    (hopen : LogStore.open (some (some bytes)) = some (.ok store))
    (hrun : store.appendAll requests = some (records, grown)) :
    grown.Reopens (store.entries ++ records) ↔ requests = [] ∨ EndsInRecord lineCodec bytes := by
  obtain ⟨hrecovers, hvalid, hjournal⟩ := open_eq_ok_iff.mp hopen
  obtain ⟨hgrown, hentries, hwritten, hseq, hlen⟩ := hvalid.appendAll hjson hrun
  rw [hjournal, Option.map_some] at hwritten
  rw [← hentries, hgrown.reopens_iff hwritten, hentries]
  rcases eq_or_ne requests [] with rfl | hne
  · obtain rfl : records = [] := List.length_eq_zero_iff.mp hlen
    simpa [Journal.Codec.written] using hrecovers
  · have hrecords : records ≠ [] := by
      rintro rfl
      exact hne (List.length_eq_zero_iff.mp hlen.symm)
    rw [hrecovers.written_iff (lineCodec_lawful hforms hjson) hrecords hseq, hrecovers.clean_iff]
    simp [hne]

/-- A record appended behind a visible rest of a line is lost: the journal opens
without it. -/
theorem Valid.reopens_fused (hforms : RecordTextForms) (hjson : SerdeJson.Conforms)
    {store grown : LogStore} (hvalid : store.Valid) {bytes : List UInt8}
    (hclean : Clean lineCodec inSequence bytes store.entries) {cs : List Char} (hline : '\n' ∉ cs)
    (hvisible : ¬ Journal.Blank cs) (hjournal : store.journal = some (bytes ++ encode cs))
    {request : AppendRequest} {record : CommitRecord}
    (hrun : store.append request .written = some (.ok record, grown)) :
    grown.Reopens store.entries := by
  obtain ⟨-, -, -, hwritten⟩ := hvalid.append hjson hrun
  rw [hjournal, Option.map_some, List.append_assoc] at hwritten
  exact Reopens.of_recovers hvalid hwritten
    (hclean.recovers_fused (lineCodec_lawful hforms hjson) hline hvisible record)

end LogStore

theorem brace_isPrefix (record : CommitRecord) : encode ['{'] <+: lineCodec.line record := by
  obtain ⟨rest, htext⟩ := text_eq record
  rw [Journal.Codec.line, Journal.Codec.bytes, htext]
  exact ⟨encode ('"' :: 'c' :: rest) ++ [newline], rfl⟩

theorem take_one_line (record : CommitRecord) :
    (lineCodec.line record).take 1 = encode ['{'] := by
  obtain ⟨rest, hline⟩ := brace_isPrefix record
  rw [← hline]
  rfl

/-- A brace behind complete records is forgiven. -/
theorem recovers_brace (hforms : RecordTextForms) (hjson : SerdeJson.Conforms)
    {bytes : List UInt8} {entries : List CommitRecord}
    (hclean : Clean lineCodec inSequence bytes entries) {record : CommitRecord}
    (hseq : inSequence entries record) :
    Recovers lineCodec inSequence (bytes ++ encode ['{']) entries := by
  obtain ⟨rest, htext⟩ := text_eq record
  have hshort : ¬ lineCodec.bytes record <+: encode ['{'] := by
    intro hinitial
    have hlen := hinitial.length_le
    rw [Journal.Codec.bytes, htext] at hlen
    simp [Text.encode_cons, Text.utf8EncodeChar_of_lt] at hlen
  have hrecovers := hclean.recovers_part (lineCodec_lawful hforms hjson) hseq
    (brace_isPrefix record) rfl
  rwa [if_neg hshort, List.append_nil] at hrecovers

/-- A record appended behind a brace is acknowledged and lost. -/
theorem LogStore.Valid.lost_behind_brace (hforms : RecordTextForms) (hjson : SerdeJson.Conforms)
    {store grown : LogStore} (hvalid : store.Valid) {bytes : List UInt8}
    (hclean : Clean lineCodec inSequence bytes store.entries)
    (hjournal : store.journal = some (bytes ++ encode ['{'])) {request : AppendRequest}
    {records : List CommitRecord} (hrun : store.appendAll [request] = some (records, grown)) :
    ¬ grown.Reopens (store.entries ++ records) := by
  obtain ⟨record, mid, records', happend, hrest, rfl⟩ := appendAll_cons_eq_some_iff.mp hrun
  obtain ⟨rfl, rfl⟩ : [] = records' ∧ mid = grown := by
    simpa [LogStore.appendAll] using hrest
  have hlost := hvalid.reopens_fused hforms hjson hclean (by decide) not_blank_brace hjournal
    happend
  intro hkept
  simpa using hlost.unique hkept

end

namespace Sample

theorem clean_empty : Clean lineCodec inSequence [] empty.entries :=
  Journal.clean_nil

/-- The log of a journal that a crash left with one byte. -/
def torn : LogStore :=
  { empty with journal := some (encode ['{']) }

theorem open_torn : LogStore.open (some (some (encode ['{']))) = some (.ok torn) := by
  refine LogStore.open_eq_ok_iff.mpr ⟨?_, LogStore.valid_empty _, rfl⟩
  exact recovers_brace recordTextForms serdeJson_conforms clean_empty
    (LogStore.inSequence_nextRecord empty (request 1 "dpp:1"))

theorem torn_not_reopens :
    ∃ records grown, LogStore.open (some (some (encode ['{']))) = some (.ok torn) ∧
      torn.appendAll [request 1 "dpp:1"] = some (records, grown) ∧
        ¬ grown.Reopens (torn.entries ++ records) := by
  have hvalid : torn.Valid := LogStore.valid_empty _
  obtain ⟨records, grown, hrun⟩ := hvalid.exists_appendAll serdeJson_conforms
    [request 1 "dpp:1"] (by decide)
  exact ⟨records, grown, open_torn, hrun, hvalid.lost_behind_brace recordTextForms
    serdeJson_conforms clean_empty rfl hrun⟩

/-- A log of one record, and its journal of one line. -/
theorem exists_clean_one :
    ∃ one bytes, empty.append (request 1 "dpp:1") .written =
        some (.ok (empty.nextRecord (request 1 "dpp:1")), one) ∧ one.Valid ∧
      one.entries.length = 1 ∧ one.journal = some bytes ∧
        Clean lineCodec inSequence bytes one.entries := by
  obtain ⟨one, -, hone, -, hlength⟩ := exists_two
  obtain ⟨-, hvalid, hentries, hjournal⟩ := valid_empty.append serdeJson_conforms hone
  have hclean := clean_empty.append (lineCodec_lawful recordTextForms serdeJson_conforms)
    (LogStore.inSequence_nextRecord empty (request 1 "dpp:1"))
  rw [← hentries] at hclean
  exact ⟨one, _, hone, hvalid, hlength, hjournal, hclean⟩

/-- A journal of one line takes a second one. -/
theorem reopens_second :
    ∃ bytes store records grown, LogStore.open (some (some bytes)) = some (.ok store) ∧
      store.entries.length = 1 ∧ store.appendAll [request 2 "dpp:2"] = some (records, grown) ∧
        grown.Reopens (store.entries ++ records) := by
  obtain ⟨store, bytes, -, hvalid, hlen, hjournal, hclean⟩ := exists_clean_one
  have hopen := LogStore.open_eq_ok_iff.mpr ⟨hclean.recovers, hvalid, hjournal⟩
  obtain ⟨records, grown, hrun⟩ := hvalid.exists_appendAll serdeJson_conforms
    [request 2 "dpp:2"] (by rw [hlen]; decide)
  exact ⟨_, store, records, grown, hopen, hlen, hrun,
    (LogStore.reopens_appendAll_iff recordTextForms serdeJson_conforms hopen hrun).mpr
      (.inr (hclean.recovers.clean_iff.mp hclean))⟩

end Sample

section

variable [Unidpp] [SerdeJson]

namespace LogStore

/-- A journal that was absent holds one line for each acknowledged append. -/
theorem clean_appendAll (hforms : RecordTextForms) (hjson : SerdeJson.Conforms)
    {empty store : LogStore} {requests : List AppendRequest} {records : List CommitRecord}
    (hopen : LogStore.open (some none) = some (.ok empty))
    (hrun : empty.appendAll requests = some (records, store)) :
    store.Valid ∧ store.entries = records ∧ ∃ bytes, store.journal = some bytes ∧
      Clean lineCodec inSequence bytes records := by
  rw [open_absent] at hopen
  simp only [Option.some.injEq, Except.ok.injEq] at hopen
  subst hopen
  obtain ⟨hvalid, hentries, hjournal, hseq, -⟩ := (valid_empty _).appendAll hjson hrun
  have hclean := Journal.clean_nil.written (lineCodec_lawful hforms hjson) hseq
  exact ⟨hvalid, hentries, _, hjournal, by simpa using hclean⟩

/-- Opening the journal of acknowledged appends with a part of the next line
behind it yields the acknowledged records, and the next one if the part holds
its text, exactly when the part is UTF-8 and the log does not run out of
sequence numbers. -/
theorem open_torn_iff (hforms : RecordTextForms) (hjson : SerdeJson.Conforms)
    {empty store : LogStore} {requests : List AppendRequest} {records : List CommitRecord}
    {bytes part : List UInt8} {request : AppendRequest}
    (hopen : LogStore.open (some none) = some (.ok empty))
    (hrun : empty.appendAll requests = some (records, store))
    (hjournal : store.journal = some bytes)
    (hpart : part <+: lineCodec.line (store.nextRecord request)) :
    (∃ reopened, LogStore.open (some (some (bytes ++ part))) = some (.ok reopened) ∧
      reopened.entries = records ++
        if lineCodec.bytes (store.nextRecord request) <+: part then [store.nextRecord request]
        else []) ↔
      (decode part).isSome ∧
        (lineCodec.bytes (store.nextRecord request) <+: part → records.length + 1 < 2 ^ 64) := by
  have hlaw := lineCodec_lawful hforms hjson
  obtain ⟨hvalid, rfl, bytes', hbytes, hclean⟩ := clean_appendAll hforms hjson hopen hrun
  obtain rfl : bytes' = bytes := Option.some.inj (hbytes.symm.trans hjournal)
  have hseq := inSequence_nextRecord store request
  constructor
  · rintro ⟨reopened, hreopen, hentries⟩
    obtain ⟨hrecovers, hreopened, -⟩ := open_eq_ok_iff.mp hreopen
    refine ⟨Option.isSome_iff_ne_none.mpr fun hnone => ?_, fun hwhole => ?_⟩
    · exact Journal.not_recovers_of_decode_eq_none hlaw hclean.1 hpart hnone _ hrecovers
    · rw [if_pos hwhole] at hentries
      simpa [hentries] using hreopened.length_lt
  · rintro ⟨hsome, hroom⟩
    obtain ⟨cs, hcs⟩ := Option.isSome_iff_exists.mp hsome
    have hrecovers := hclean.recovers_part hlaw hseq hpart (Text.decode_eq_some_iff.mp hcs)
    split_ifs at hrecovers ⊢ with hwhole
    · obtain ⟨next, happly⟩ := hvalid.exists_apply (store.nextRecord request) (hroom hwhole)
      obtain ⟨hnext, hentries, -⟩ := hvalid.apply hseq happly
      rw [← hentries] at hrecovers
      exact ⟨{ next with journal := some (bytes' ++ part) },
        open_eq_ok_iff.mpr ⟨hrecovers, hnext.withJournal _, rfl⟩, hentries⟩
    · rw [List.append_nil] at hrecovers
      exact ⟨{ store with journal := some (bytes' ++ part) },
        open_eq_ok_iff.mpr ⟨hrecovers, hvalid.withJournal _, rfl⟩, by simp⟩

end LogStore

end

namespace Sample

theorem mem_closeString {c : Char} (hplain : Json.escapeChar c = [c]) {cs : List Char}
    (hc : c ∈ cs) : c ∈ Json.closeString cs := by
  induction cs with
  | nil => simp at hc
  | cons d cs ih =>
      rw [Json.closeString, List.mem_append]
      rcases List.mem_cons.mp hc with rfl | hrest
      · exact .inl (by simp [hplain])
      · exact .inr (ih hrest)

theorem mem_text (record : CommitRecord) {c : Char} (hplain : Json.escapeChar c = [c])
    (hc : c ∈ record.subject.toList) : c ∈ lineCodec.text record := by
  have hclose := mem_closeString hplain hc
  rw [lineCodec_text, CommitRecord.toJson_eq]
  simp [Json.Value.compact, Json.Value.render, Json.Value.renderMoreFields, Json.quote, hclose]

/-- The first of the two bytes of a letter of the subject, and what is in front of
it. -/
theorem open_cut_refused :
    ∃ part, part <+: lineCodec.line (empty.nextRecord (request 1 "é")) ∧
      ∀ reopened, LogStore.open (some (some ([] ++ part))) ≠ some (.ok reopened) := by
  have hmem : 'é' ∈ lineCodec.text (empty.nextRecord (request 1 "é")) :=
    mem_text _ (by decide) (by simp [LogStore.nextRecord, request])
  obtain ⟨front, back, htext⟩ := List.append_of_mem hmem
  have hpart : encode front ++ (String.utf8EncodeChar 'é').take 1 <+:
      lineCodec.line (empty.nextRecord (request 1 "é")) := by
    rw [Journal.Codec.line, Journal.Codec.bytes, htext, Text.encode_append, Text.encode_cons,
      List.append_assoc, List.prefix_append_right_inj, List.append_assoc]
    exact (List.take_prefix _ _).trans (List.prefix_append _ _)
  refine ⟨_, hpart, fun reopened hopen => ?_⟩
  exact Journal.not_recovers_of_decode_eq_none
    (lineCodec_lawful recordTextForms serdeJson_conforms) clean_empty.1 hpart
    (Text.decode_eq_none_of_cut front (by decide) (by decide)) _
    (LogStore.open_eq_ok_iff.mp hopen).1

theorem open_brace_accepted :
    ∃ store records bytes reopened, empty.appendAll [request 1 "dpp:1"] = some (records, store) ∧
      store.journal = some bytes ∧
        LogStore.open (some (some (bytes ++ encode ['{']))) = some (.ok reopened) ∧
          reopened.entries = records ++
            if lineCodec.bytes (store.nextRecord (request 2 "dpp:2")) <+: encode ['{'] then
              [store.nextRecord (request 2 "dpp:2")]
            else [] := by
  obtain ⟨records, store, hrun⟩ := valid_empty.exists_appendAll serdeJson_conforms
    [request 1 "dpp:1"] (by decide)
  obtain ⟨-, -, bytes, hjournal, -⟩ :=
    LogStore.clean_appendAll recordTextForms serdeJson_conforms open_empty hrun
  have hlen := (valid_empty.appendAll serdeJson_conforms hrun).2.2.2.2
  obtain ⟨reopened, hopen, hentries⟩ :=
    (LogStore.open_torn_iff recordTextForms serdeJson_conforms open_empty hrun hjournal
      (brace_isPrefix (store.nextRecord (request 2 "dpp:2")))).mpr
      ⟨by simp, fun _ => by rw [hlen]; decide⟩
  exact ⟨store, records, bytes, reopened, hrun, hjournal, hopen, hentries⟩

end Sample

/-! ## Failing writes -/

section

variable [Unidpp] [SerdeJson]

namespace LogStore

/-- An append whose write fails behind `kept` bytes returns an error and leaves
the entries and the tree alone, and whatever is appended later, opening the
journal yields the entries of the running store. -/
def FailsAtomically (store : LogStore) (request : AppendRequest) (kept : ℕ) (reason : String) :
    Prop :=
  ∃ e failed, store.append request (.failed kept reason) = some (.error e, failed) ∧
    failed.entries = store.entries ∧ failed.tree = store.tree ∧
      ∀ requests records grown, failed.appendAll requests = some (records, grown) →
        grown.Reopens grown.entries

/-- An append does not make the journal end in a blank rest of a line. -/
theorem Valid.appends_visibleTail (hforms : RecordTextForms) (hjson : SerdeJson.Conforms)
    {store store' : LogStore} (hvalid : store.Valid)
    (hvisible : ∀ bytes, store.journal = some bytes → VisibleTail bytes)
    (happends : store.Appends store') {bytes : List UInt8} (hbytes : store'.journal = some bytes) :
    VisibleTail bytes := by
  have hlaw := lineCodec_lawful hforms hjson
  obtain ⟨request, outcome, result, hrun⟩ := happends
  rcases hvalid.append_cases hjson hrun with ⟨-, -, -, hjournal⟩ |
    ⟨before, kept, reason, -, hjournal, -, rfl⟩
  · rw [hjournal, Option.map_eq_some_iff] at hbytes
    obtain ⟨before, hbefore, rfl⟩ := hbytes
    exact (hvisible before hbefore).append_part hlaw List.prefix_rfl
  · obtain rfl := Option.some.inj hbytes
    exact (hvisible before hjournal).append_part hlaw (List.take_prefix _ _)

/-- The journal of a store that can be reached does not end in a blank rest of a
line. -/
theorem Reachable.visibleTail (hforms : RecordTextForms) (hjson : SerdeJson.Conforms)
    {store : LogStore} (hreachable : store.Reachable) {bytes : List UInt8}
    (hjournal : store.journal = some bytes) : VisibleTail bytes := by
  obtain ⟨journal, opened, hopen, hlater⟩ := hreachable
  have hvalid := valid_of_open hopen
  induction hlater generalizing bytes with
  | refl =>
      rcases journal with - | - | replayed
      · obtain rfl : _ = opened := by simpa [LogStore.open] using hopen
        simp at hjournal
      · obtain rfl : _ = opened := by simpa [LogStore.open] using hopen
        obtain rfl : [] = bytes := Option.some.inj hjournal
        exact Journal.Terminated.visibleTail Text.terminated_nil
      · obtain ⟨hrecovers, -, hreplayed⟩ := open_eq_ok_iff.mp hopen
        obtain rfl : replayed = bytes := Option.some.inj (hreplayed.symm.trans hjournal)
        exact hrecovers.visibleTail (lineCodec_lawful hforms hjson)
  | tail hlater happends ih =>
      exact (hvalid.later hlater).1.appends_visibleTail hforms hjson (fun _ => ih) happends hjournal

theorem failsAtomically_iff (hforms : RecordTextForms) (hjson : SerdeJson.Conforms)
    {store : LogStore} (hreachable : store.Reachable) {bytes : List UInt8}
    (hjournal : store.journal = some bytes) (hroom : store.entries.length + 1 < 2 ^ 64)
    (request : AppendRequest) (kept : ℕ) (reason : String) :
    store.FailsAtomically request kept reason ↔
      kept = 0 ∧ Clean lineCodec inSequence bytes store.entries := by
  have hlaw := lineCodec_lawful hforms hjson
  have hvalid := hreachable.valid
  have hvisible := hreachable.visibleTail hforms hjson hjournal
  set record := store.nextRecord request with hrecord
  set part := (lineCodec.line record).take kept with hpart
  have hinitial : part <+: lineCodec.line record := List.take_prefix _ _
  have hfailed := append_failed hjson hjournal request kept reason
  have htorn := hvalid.withJournal (some (bytes ++ part))
  constructor
  · rintro ⟨e, failed, hrun, -, -, hlater⟩
    obtain rfl : { store with journal := some (bytes ++ part) } = failed := by
      have heq := hfailed.symm.trans hrun
      simp only [Option.some.injEq, Prod.mk.injEq] at heq
      exact heq.2
    have hnow := (htorn.reopens_iff rfl).mp (hlater [] [] _ rfl)
    obtain ⟨records, grown, hgrow⟩ := htorn.exists_appendAll hjson [request] hroom
    obtain ⟨hgrown, hentries, hwritten, hseq, hlen⟩ := htorn.appendAll hjson hgrow
    have hthen := (hgrown.reopens_iff hwritten).mp (hlater _ _ _ hgrow)
    have hrecords : records ≠ [] := by
      rintro rfl
      simp at hlen
    rw [hentries] at hthen
    have hclean := (hnow.written_iff hlaw hrecords hseq).mp hthen
    rcases Nat.eq_zero_or_pos kept with hzero | hpos
    · exact ⟨hzero, by simpa [hpart, hzero] using hclean⟩
    · -- The part would have to be the store's last record, which has another number.
      have hne : part ≠ [] := by
        rw [hpart, Ne, List.take_eq_nil_iff, not_or]
        exact ⟨by omega, lineCodec.line_ne_nil record⟩
      obtain ⟨E, -, hadmits, hlast⟩ := hclean.of_append_part hlaw hvisible hinitial hne
      have hlength := congrArg List.length hlast
      simp only [List.length_append, List.length_singleton] at hlength
      have hnumber : UInt64.ofNat store.entries.length = UInt64.ofNat E.length := hadmits
      have := U64.ofNat_inj (by omega) (by omega) hnumber
      omega
  · rintro ⟨rfl, hclean⟩
    refine ⟨_, _, hfailed, rfl, rfl, fun requests records grown hrun => ?_⟩
    obtain ⟨hgrown, hentries, hwritten, hseq, -⟩ := htorn.appendAll hjson hrun
    rw [hgrown.reopens_iff hwritten, hentries]
    have hwhole := hclean.written hlaw hseq
    simpa [hpart] using hwhole.recovers

end LogStore

end

namespace Sample

theorem one_byte_not_failsAtomically :
    empty.Reachable ∧
      ¬ empty.FailsAtomically (request 1 "dpp:1") 1 "No space left on device" := by
  refine ⟨empty_reachable, ?_⟩
  rintro ⟨e, failed, hrun, -, -, hlater⟩
  rw [LogStore.append_failed serdeJson_conforms rfl, Option.some.injEq, Prod.mk.injEq] at hrun
  obtain ⟨-, rfl⟩ := hrun
  rw [take_one_line] at hlater
  have htorn := valid_empty.withJournal (some ([] ++ encode ['{']))
  obtain ⟨records, grown, hgrow⟩ := htorn.exists_appendAll serdeJson_conforms
    [request 1 "dpp:1"] (by decide)
  have hentries := (htorn.appendAll serdeJson_conforms hgrow).2.1
  have hlost := htorn.lost_behind_brace recordTextForms serdeJson_conforms clean_empty rfl hgrow
  rw [← hentries] at hlost
  exact hlost (hlater _ _ _ hgrow)

/-- Behind an acknowledged record, a write of which nothing gets into the journal. -/
theorem no_byte_failsAtomically :
    ∃ one, empty.append (request 1 "dpp:1") .written =
        some (.ok (empty.nextRecord (request 1 "dpp:1")), one) ∧
      one.entries.length = 1 ∧
        one.FailsAtomically (request 2 "dpp:2") 0 "No space left on device" := by
  obtain ⟨one, bytes, hone, -, hlength, hjournal, hclean⟩ := exists_clean_one
  have hreachable : one.Reachable := ⟨some none, empty, open_empty, .single ⟨_, _, _, hone⟩⟩
  exact ⟨one, hone, hlength, (LogStore.failsAtomically_iff recordTextForms serdeJson_conforms
    hreachable hjournal (by rw [hlength]; decide) (request 2 "dpp:2") 0 _).mpr ⟨rfl, hclean⟩⟩

end Sample

end UnidppLog
