/-
# Which journals open

A journal opens exactly when its lines are records that carry their numbers, but
for a last line that is torn. Opening makes of it the records that its lines
are. What was made of a valid journal by dropping, moving, copying or
overwriting lines is refused.
-/

import UnidppLog.Journal.Numbering
import UnidppLog.Recovery

namespace UnidppLog

open Unidpp
open Journal (Recovers AcceptableFrom NumberedFrom Tampers EndsInRecord recordsOf)
open Text (encode newline)

section

variable [Unidpp]

/-- The number a record carries. -/
def CommitRecord.number (record : CommitRecord) : ℕ :=
  record.seq.toNat

theorem inSequence_iff (entries : List CommitRecord) (record : CommitRecord)
    (hroom : entries.length < 2 ^ 64) :
    inSequence entries record ↔ record.number = entries.length := by
  rw [inSequence, CommitRecord.number, ← UInt64.toNat_inj, UInt64.toNat_ofNat',
    Nat.mod_eq_of_lt hroom]

variable [SerdeJson]

namespace LogStore

/-- A store with room for one more entry does not panic on a line. -/
theorem Valid.exists_replayLine {store : LogStore} (hvalid : store.Valid) (lineNo : ℕ)
    (line : String) (isLast : Bool) (hroom : store.entries.length + 1 < 2 ^ 64) :
    ∃ result, store.replayLine lineNo line isLast = some result ∧
      ∀ store', result = .ok store' →
        store'.Valid ∧ store'.entries.length ≤ store.entries.length + 1 := by
  have hresult : ∃ result, store.replayLine lineNo line isLast = some result := by
    rw [replayLine]
    split
    · next record _ =>
      obtain ⟨store', happly⟩ := hvalid.exists_apply record hroom
      split
      · exact ⟨_, rfl⟩
      · exact ⟨.ok store', by rw [happly, Option.map_some]⟩
    · split
      · exact ⟨_, rfl⟩
      · exact ⟨_, rfl⟩
  obtain ⟨result, hline⟩ := hresult
  refine ⟨result, hline, ?_⟩
  rintro store' rfl
  rcases replayLine_eq_ok_iff.mp hline with ⟨record, -, hseq, happly⟩ | ⟨-, rfl, -⟩
  · obtain ⟨hvalid', hentries, -⟩ := hvalid.apply hseq happly
    exact ⟨hvalid', by simp [hentries]⟩
  · exact ⟨hvalid, by omega⟩

theorem Valid.exists_replayLoop_result {store : LogStore} (hvalid : store.Valid) (lineNo : ℕ)
    (line : String) (rest : List (Except String String))
    (hroom : store.entries.length + 1 + rest.length < 2 ^ 64) :
    ∃ result, store.replayLoop lineNo line rest = some result := by
  induction rest generalizing store lineNo line with
  | nil =>
      obtain ⟨result, hline, -⟩ := hvalid.exists_replayLine lineNo line true (by simpa using hroom)
      exact ⟨result, hline⟩
  | cons next rest ih =>
      rw [List.length_cons] at hroom
      cases next with
      | error e => exact ⟨_, rfl⟩
      | ok next =>
          obtain ⟨result, hline, hgrown⟩ :=
            hvalid.exists_replayLine lineNo line false (by omega)
          simp only [LogStore.replayLoop, hline, Option.bind_eq_bind, Option.bind_some]
          cases result with
          | error e => exact ⟨_, rfl⟩
          | ok mid =>
              obtain ⟨hmid, hle⟩ := hgrown mid rfl
              exact ih hmid (lineNo + 1) next (by omega)

/-- A journal is opened or refused, as long as its lines can be counted. -/
theorem exists_open (bytes : List UInt8) (hroom : (Text.lines bytes).length < 2 ^ 64) :
    ∃ result, LogStore.open (some (some bytes)) = some result := by
  have hreplay : ∃ result, replay { tree := .new, entries := [], journal := none } bytes =
      some result := by
    rw [replay]
    split
    · exact ⟨_, rfl⟩
    · exact ⟨_, rfl⟩
    · next line rest hlines =>
      rw [hlines, List.length_cons] at hroom
      exact (valid_empty none).exists_replayLoop_result 1 line rest (by simp; omega)
  obtain ⟨result, hreplay⟩ := hreplay
  simp only [LogStore.open, hreplay, Option.bind_eq_bind, Option.bind_some]
  cases result <;> exact ⟨_, rfl⟩

theorem exists_open_of_recovers {bytes : List UInt8} {entries : List CommitRecord}
    (h : Recovers lineCodec inSequence bytes entries) (hroom : entries.length < 2 ^ 64) :
    ∃ store, LogStore.open (some (some bytes)) = some (.ok store) := by
  obtain ⟨texts, hlines, hreplays⟩ := h
  obtain ⟨store, hrun, -⟩ := (valid_empty none).exists_replay hlines hreplays hroom
  simp only [LogStore.open, hrun, Option.bind_eq_bind, Option.bind_some]
  exact ⟨_, rfl⟩

variable {bytes : List UInt8} {texts : List String}

/-- The entries that replay makes of lines that can be counted. -/
theorem recovers_iff (hlines : Text.lines bytes = texts.map .ok) (hroom : texts.length < 2 ^ 64)
    {entries : List CommitRecord} :
    Recovers lineCodec inSequence bytes entries ↔
      AcceptableFrom lineCodec CommitRecord.number 0 texts ∧
        entries = recordsOf lineCodec texts := by
  have hreplays : Journal.Replays lineCodec inSequence [] texts entries ↔ _ :=
    Journal.replays_iff inSequence_iff (by simpa using hroom.le)
  rw [List.nil_append, List.length_nil] at hreplays
  rw [← hreplays]
  constructor
  · rintro ⟨texts', hlines', h⟩
    have hmap := hlines'.symm.trans hlines
    obtain rfl := List.map_injective_iff.mpr (fun _ _ h => Except.ok.inj h) hmap
    exact h
  · exact fun h => ⟨texts, hlines, h⟩

theorem exists_open_iff (hlines : Text.lines bytes = texts.map .ok)
    (hroom : texts.length < 2 ^ 64) :
    (∃ store, LogStore.open (some (some bytes)) = some (.ok store)) ↔
      AcceptableFrom lineCodec CommitRecord.number 0 texts := by
  constructor
  · rintro ⟨store, hopen⟩
    exact ((recovers_iff hlines hroom).mp (open_eq_ok_iff.mp hopen).1).1
  · intro haccept
    refine exists_open_of_recovers ((recovers_iff hlines hroom).mpr ⟨haccept, rfl⟩) ?_
    exact (List.length_filterMap_le _ _).trans_lt hroom

/-- A journal of UTF-8 lines opens exactly when each line is a record that carries
its number, or it is the last one and neither a record nor blank. The entries are
then the records that the lines are, and the tree is built from their
commitments. What was made of the lines of a valid journal by dropping, moving,
copying or overwriting some is refused. -/
theorem open_exactly (hlines : Text.lines bytes = texts.map .ok) (hroom : texts.length < 2 ^ 64) :
    ((∃ store, LogStore.open (some (some bytes)) = some (.ok store)) ↔
        AcceptableFrom lineCodec CommitRecord.number 0 texts) ∧
      (∀ store, LogStore.open (some (some bytes)) = some (.ok store) →
        store.entries = recordsOf lineCodec texts ∧
          MerkleTree.new.appendAll (store.entries.map CommitRecord.commitment) =
            some store.tree) ∧
        (NumberedFrom lineCodec CommitRecord.number 0 texts →
          ∀ bytes' texts', Tampers lineCodec CommitRecord.number texts texts' →
            Text.lines bytes' = texts'.map .ok → texts'.length < 2 ^ 64 →
              ∃ e, LogStore.open (some (some bytes')) = some (.error e)) := by
  refine ⟨exists_open_iff hlines hroom, fun store hopen => ?_, ?_⟩
  · obtain ⟨hrecovers, hvalid, -⟩ := open_eq_ok_iff.mp hopen
    exact ⟨((recovers_iff hlines hroom).mp hrecovers).2, hvalid.tree_eq⟩
  · intro hnumbered bytes' texts' htampers hlines' hroom'
    obtain ⟨result, hopen⟩ := exists_open bytes' (by rwa [hlines', List.length_map])
    cases result with
    | error e => exact ⟨e, hopen⟩
    | ok store =>
        exact absurd ((exists_open_iff hlines' hroom').mp ⟨store, hopen⟩)
          (hnumbered.not_acceptable htampers)

end LogStore

end

namespace Sample

/-- A record of the sample log. -/
def record (seq : UInt64) (second : Fin 60) (subject : String) : CommitRecord where
  seq := seq
  loggedAt := second
  subject := subject
  commitment := digest (encode subject.toList)
  saltRef := none

def records : List CommitRecord :=
  [record 0 1 "dpp:1", record 1 2 "dpp:2"]

theorem lawful : lineCodec.Lawful :=
  lineCodec_lawful recordTextForms serdeJson_conforms

/-- A journal of two lines opens, and does not with the lines the other way
round. -/
theorem open_swapped_refused :
    ∃ store e,
      LogStore.open (some (some (lineCodec.written records))) = some (.ok store) ∧
        store.entries.length = 2 ∧
          LogStore.open (some (some (lineCodec.written records.reverse))) = some (.error e) := by
  have hnumbered : NumberedFrom lineCodec CommitRecord.number 0
      (records.map fun r => String.ofList (lineCodec.text r)) := by
    refine lawful.numberedFrom fun i r hr => ?_
    obtain ⟨hi, rfl⟩ := List.getElem?_eq_some_iff.mp hr
    have hcases : i = 0 ∨ i = 1 := by
      have hlt : i < 2 := hi
      omega
    rcases hcases with rfl | rfl <;> rfl
  have hne : (records.reverse.map fun r => String.ofList (lineCodec.text r)) ≠
      records.map fun r => String.ofList (lineCodec.text r) := by
    intro heq
    have hfirst : lineCodec.parse (String.ofList (lineCodec.text (record 1 2 "dpp:2"))) =
        lineCodec.parse (String.ofList (lineCodec.text (record 0 1 "dpp:1"))) :=
      congrArg lineCodec.parse (List.cons.inj heq).1
    rw [lawful.parse_text, lawful.parse_text] at hfirst
    exact absurd (congrArg CommitRecord.seq (Except.ok.inj hfirst)) (by decide)
  obtain ⟨hiff, hopened, hrefuses⟩ :=
    LogStore.open_exactly (lawful.lines_written records) (by simp [records])
  obtain ⟨store, hopen⟩ := hiff.mpr hnumbered.acceptable
  obtain ⟨e, hrefused⟩ := hrefuses hnumbered _ _
    (.reorder ((List.reverse_perm records).map _) hne) (lawful.lines_written _)
    (by simp [records])
  refine ⟨store, e, hopen, ?_, hrefused⟩
  rw [(hopened store hopen).1]
  simp [Journal.recordsOf, records, lawful.parse_text, Except.toOption]

end Sample

section

variable [Unidpp] [SerdeJson]

/-- Of a journal that opens, every line with a line feed put its record at its own
place, exactly when the file does not end in a line feed, or is empty, or its last
line is a record. -/
theorem LogStore.open_contributes_iff {bytes : List UInt8} {store : LogStore}
    (hopen : LogStore.open (some (some bytes)) = some (.ok store)) :
    (∀ i piece, (Text.pieces bytes)[i]? = some piece → piece.getLast? = some newline →
        Journal.Contributes lineCodec store.entries i piece) ↔
      bytes.getLast? ≠ some newline ∨ EndsInRecord lineCodec bytes :=
  (LogStore.open_eq_ok_iff.mp hopen).1.contributes_iff

end

namespace Sample

/-- The line of a record that has lost its closing brace. -/
def damaged : List UInt8 :=
  encode (lineCodec.text (record 0 1 "dpp:1")).dropLast ++ [newline]

theorem damaged_isPrefix : (lineCodec.text (record 0 1 "dpp:1")).dropLast <+:
    lineCodec.text (record 0 1 "dpp:1") :=
  List.dropLast_prefix _

theorem lines_damaged :
    Text.lines damaged =
      [String.ofList (lineCodec.text (record 0 1 "dpp:1")).dropLast].map .ok := by
  refine Text.lines_encode_newline ?_ fun hlast => ?_
  · exact fun hmem => lawful.newline_free _ (damaged_isPrefix.subset hmem)
  · have hmem := damaged_isPrefix.subset (List.mem_of_getLast? hlast)
    have hcontrol := Json.Value.noControl_render 0 _ (record 0 1 "dpp:1").plain_toJson '\r' hmem
    exact absurd hcontrol (by decide)

theorem damaged_not_record (r : CommitRecord) :
    parseLine (String.ofList (lineCodec.text (record 0 1 "dpp:1")).dropLast) ≠ .ok r := by
  refine lawful.prefix_free _ _ damaged_isPrefix (fun heq => ?_) r
  have hlen := congrArg List.length heq
  have hpos := List.length_pos_iff.mpr (lawful.text_ne_nil (record 0 1 "dpp:1"))
  rw [List.length_dropLast] at hlen
  omega

theorem damaged_visible :
    ¬ Journal.Blank (lineCodec.text (record 0 1 "dpp:1")).dropLast := by
  obtain ⟨rest, htext⟩ := text_eq (record 0 1 "dpp:1")
  refine lawful.visible damaged_isPrefix ?_
  rw [htext]
  simp

/-- The damaged line is dropped, line feed and all. -/
theorem damaged_dropped :
    ∃ store, LogStore.open (some (some damaged)) = some (.ok store) ∧ store.entries = [] ∧
      ¬ ∀ i piece, (Text.pieces damaged)[i]? = some piece → piece.getLast? = some newline →
        Journal.Contributes lineCodec store.entries i piece := by
  obtain ⟨e, hparse⟩ : ∃ e, parseLine
      (String.ofList (lineCodec.text (record 0 1 "dpp:1")).dropLast) = .error e := by
    cases hparse : parseLine (String.ofList (lineCodec.text (record 0 1 "dpp:1")).dropLast) with
    | error e => exact ⟨e, rfl⟩
    | ok r => exact absurd hparse (damaged_not_record r)
  have hrecovers : Recovers lineCodec inSequence damaged [] :=
    ⟨_, lines_damaged, .torn hparse (by simpa using damaged_visible)⟩
  obtain ⟨store, hopen⟩ := LogStore.exists_open_of_recovers hrecovers (by simp)
  have hrecovered := (LogStore.open_eq_ok_iff.mp hopen).1
  refine ⟨store, hopen, hrecovered.unique hrecovers, hrecovered.contributes_iff.not.mpr ?_⟩
  rintro (hlast | hnil | ⟨-, line, r, hread, hrecord⟩)
  · exact hlast (by simp [damaged])
  · simp [damaged] at hnil
  · rw [lines_damaged] at hread
    obtain rfl : String.ofList (lineCodec.text (record 0 1 "dpp:1")).dropLast = line := by
      simpa using hread
    exact damaged_not_record r hrecord

theorem clean_records :
    Journal.Clean lineCodec inSequence (lineCodec.written records) records := by
  have hsequenced : Journal.Sequenced inSequence [] records := ⟨rfl, rfl, trivial⟩
  exact Journal.clean_nil.written lawful hsequenced

theorem pieces_written :
    Text.pieces (lineCodec.written records ++ encode ['{']) =
      records.map lineCodec.line ++ [encode ['{']] := by
  have hline : ∀ r, Text.pieces (lineCodec.line r) = [lineCodec.line r] := fun r =>
    Text.pieces_newline (lawful.newline_not_mem r)
  rw [Text.pieces_append clean_records.1, records, Journal.Codec.written_cons,
    Text.pieces_append (lineCodec.terminated_line _), hline, Journal.Codec.written_cons,
    Text.pieces_append (lineCodec.terminated_line _), hline]
  rfl

/-- Two records, and a brace that a crash has left of a third: both records are there, and the
brace is forgiven. -/
theorem torn_contributes :
    ∃ store, LogStore.open (some (some (lineCodec.written records ++ encode ['{']))) =
        some (.ok store) ∧ store.entries = records ∧
      Journal.Contributes lineCodec store.entries 0 (lineCodec.line (record 0 1 "dpp:1")) ∧
        Journal.Contributes lineCodec store.entries 1 (lineCodec.line (record 1 2 "dpp:2")) := by
  have hrecovers := recovers_brace recordTextForms serdeJson_conforms clean_records
    (show inSequence records (record 2 3 "dpp:3") from rfl)
  obtain ⟨store, hopen⟩ := LogStore.exists_open_of_recovers hrecovers (by decide)
  have hentries := (LogStore.open_eq_ok_iff.mp hopen).1.unique hrecovers
  have hlast : (lineCodec.written records ++ encode ['{']).getLast? ≠ some newline := by
    rw [List.getLast?_append_of_ne_nil _ (by decide)]
    decide
  have hcontributes := (LogStore.open_contributes_iff hopen).mpr (.inl hlast)
  rw [pieces_written] at hcontributes
  refine ⟨store, hopen, hentries, hcontributes 0 _ rfl ?_, hcontributes 1 _ rfl ?_⟩
  · exact List.getLast?_concat
  · exact List.getLast?_concat

end Sample

end UnidppLog
