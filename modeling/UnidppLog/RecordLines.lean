/-
# The lines of the journal

What an append writes for a record is its compact JSON text and a line feed. The
text holds no line feed itself, it reads back as the record, and no proper prefix
of it reads as any record: the braces and quotes of a subject stay inside its
string, so that the object is complete only at its last brace.
-/

import UnidppLog.StoreSpec
import UnidppLog.Sample.Crates

namespace UnidppLog

open Text (encode newline)

section

variable [Unidpp] [SerdeJson]

/-- An append that is acknowledged has added its record's line to the journal. -/
theorem LogStore.journal_of_append (hjson : SerdeJson.Conforms) {store store' : LogStore}
    {bytes : List UInt8} (hjournal : store.journal = some bytes) {request : AppendRequest}
    {record : CommitRecord} (hrun : store.append request .written = some (.ok record, store')) :
    store'.journal = some (bytes ++ lineCodec.line record) := by
  rw [append_written hjson hjournal, Option.map_eq_some_iff] at hrun
  obtain ⟨next, happly, heq⟩ := hrun
  obtain ⟨hrecord, rfl⟩ := Prod.mk.inj heq
  obtain rfl := Except.ok.inj hrecord
  obtain ⟨tree, -, rfl⟩ := apply_eq_some_iff.mp happly
  rfl

/-- Every record is serialised to one line without a line feed, which parses to
the record again and none of whose proper prefixes parses to any. The line is what
an acknowledged append adds to the journal, and what is read from there. -/
theorem CommitRecord.line_codec (hforms : RecordTextForms) (hjson : SerdeJson.Conforms)
    (record : CommitRecord) :
    ∃ line : String, SerdeJson.toString record.toJson = .ok line ∧
      '\n' ∉ line.toList ∧
      parseLine line = .ok record ∧
      (∀ cut : String, cut.toList <+: line.toList → cut ≠ line →
        ∀ record', parseLine cut ≠ .ok record') ∧
      (∀ (store store' : LogStore) (bytes : List UInt8) (request : AppendRequest),
        store.journal = some bytes → store.append request .written = some (.ok record, store') →
          store'.journal = some (bytes ++ (encode line.toList ++ [newline]))) ∧
      Text.lines (encode line.toList ++ [newline]) = [.ok line] := by
  have hlaw := lineCodec_lawful hforms hjson
  refine ⟨String.ofList (lineCodec.text record), record.toString_toJson hjson, ?_,
    hlaw.parse_text record, fun cut hinitial hne record' => ?_,
    fun store store' bytes request hjournal hrun => ?_, ?_⟩
  · rw [String.toList_ofList]
    exact hlaw.newline_free record
  · rw [String.toList_ofList] at hinitial
    have hproper : cut.toList ≠ lineCodec.text record := by
      intro heq
      exact hne (by rw [← heq, String.ofList_toList])
    have hnone := hlaw.prefix_free record cut.toList hinitial hproper record'
    rwa [String.ofList_toList] at hnone
  · rw [String.toList_ofList]
    exact LogStore.journal_of_append hjson hjournal hrun
  · rw [String.toList_ofList]
    exact Text.lines_encode_newline (hlaw.newline_free record) (hlaw.no_return record)

end

namespace Sample

/-- A record whose subject looks like the end of one, and the start of the next. -/
def forged : CommitRecord where
  seq := 18446744073709551615
  loggedAt := Fin.last 59
  subject := "dpp:1\",\"salt_ref\":null\x7d\n\x7b\"commitment\":\"\\\u0000"
  commitment := digest (Text.encode "dpp:1".toList)
  saltRef := some 18446744073709551615

/-- Wherever its line is cut, it is no record. -/
theorem forged_line :
    ∃ line : String, SerdeJson.toString forged.toJson = .ok line ∧ '\n' ∉ line.toList ∧
      parseLine line = .ok forged ∧ ∀ n < line.toList.length, ∀ record,
        parseLine (String.ofList (line.toList.take n)) ≠ .ok record := by
  obtain ⟨line, hserialised, hnewline, hparse, hcut, -⟩ :=
    forged.line_codec recordTextForms serdeJson_conforms
  refine ⟨line, hserialised, hnewline, hparse, fun n hn => hcut _ ?_ ?_⟩
  · rw [String.toList_ofList]
    exact List.take_prefix n line.toList
  · intro heq
    have hlength := congrArg (fun text : String => text.toList.length) heq
    simp only [String.toList_ofList, List.length_take] at hlength
    omega

end Sample

end UnidppLog
