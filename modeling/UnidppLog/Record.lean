/-
# Commit records and their journal lines

A commit record is one sequenced entry. Its JSON object, printed compactly, is
one line of the journal. The line codec this gives is lawful: a record is read
back from its line, and no cut line and no line run into another one reads as a
record.
-/

import UnidppLog.Crates
import UnidppLog.Json.Object
import UnidppLog.Json.Scanner
import UnidppLog.Journal.Recovery

namespace UnidppLog

open Json (Value)
open Unidpp

/-- JSON white space is white space. -/
theorem isWs_eq_false {c : Char} (hc : Text.isWhitespace c = false) : Json.isWs c = false := by
  rw [Bool.eq_false_iff] at hc ⊢
  intro hws
  refine hc ?_
  simp only [Json.isWs, Bool.or_eq_true, decide_eq_true_eq] at hws
  rcases hws with ((rfl | rfl) | rfl) | rfl <;> decide

theorem exists_of_not_blank {cs : List Char} (h : ¬ Journal.Blank cs) :
    ∃ c ∈ cs, Json.isWs c = false := by
  simp only [Journal.Blank, not_forall, Bool.not_eq_true] at h
  obtain ⟨c, hc, hws⟩ := h
  exact ⟨c, hc, isWs_eq_false hws⟩

theorem not_blank_of_mem {cs : List Char} (h : '{' ∈ cs) : ¬ Journal.Blank cs :=
  fun hblank => absurd (hblank '{' h) (by decide)

namespace CommitRecord

/-- `json!` of an optional integer. -/
def saltRefJson (saltRef : Option UInt64) : Value :=
  match saltRef with
  | none => .null
  | some n => .number (.posInt n)

/-- The `salt_ref` field: absent, `null`, or an unsigned integer. -/
def readSaltRef (field : Option Value) : Except String (Option UInt64) :=
  match field with
  | none => .ok none
  | some .null => .ok none
  | some (.number n) => (okOr n.asU64 "`salt_ref` must be a u64").map some
  | some _ => .error "`salt_ref` must be an unsigned integer"

@[simp]
theorem readSaltRef_saltRefJson (saltRef : Option UInt64) :
    readSaltRef (some (saltRefJson saltRef)) = .ok saltRef := by
  cases saltRef <;> rfl

end CommitRecord

variable [Unidpp]

/-- One sequenced entry in the append-only log. -/
structure CommitRecord where
  seq : UInt64
  loggedAt : Timestamp
  subject : String
  commitment : Hash
  saltRef : Option UInt64

namespace CommitRecord

def toJson (record : CommitRecord) : Value :=
  .ofFields [
    ("seq", .number (.posInt record.seq)),
    ("logged_at", .string (timestampToString record.loggedAt)),
    ("subject", .string record.subject),
    ("commitment", .string (hex record.commitment)),
    ("salt_ref", saltRefJson record.saltRef)]

def fromJson (v : Value) : Except String CommitRecord := do
  let obj ← okOr v.asObject "commit record must be an object"
  let seq ← okOr ((Json.lookup obj "seq").bind Value.asU64) "missing `seq`"
  let loggedAt ← okOr
    (((Json.lookup obj "logged_at").bind Value.asStr).bind fun s => (parseTimestamp s).toOption)
    "missing/invalid `logged_at`"
  let subject ← okOr ((Json.lookup obj "subject").bind Value.asStr) "missing `subject`"
  let commitment ← okOr (((Json.lookup obj "commitment").bind Value.asStr).bind fromHex)
    "missing/invalid `commitment` (64-char hex)"
  let saltRef ← readSaltRef (Json.lookup obj "salt_ref")
  return { seq, loggedAt, subject, commitment, saltRef }

/-- The fields stand in the order of their keys. -/
theorem toJson_eq (record : CommitRecord) :
    record.toJson = .object [
      ("commitment", .string (hex record.commitment)),
      ("logged_at", .string (timestampToString record.loggedAt)),
      ("salt_ref", saltRefJson record.saltRef),
      ("seq", .number (.posInt record.seq)),
      ("subject", .string record.subject)] := by
  simp +decide [toJson, Value.ofFields, Value.collect, Json.insert]

theorem plain_toJson (record : CommitRecord) : record.toJson.Plain := by
  rw [toJson_eq]
  cases hsalt : record.saltRef <;>
    simp +decide [saltRefJson, Value.Plain, Value.PlainFields, Json.SortedKeys]

theorem depth_toJson (record : CommitRecord) : record.toJson.depth = 1 := by
  rw [toJson_eq]
  cases hsalt : record.saltRef <;> simp [saltRefJson, Value.depth, Value.depthFields]

/-- A record is read back from its object. -/
theorem fromJson_toJson (hforms : RecordTextForms) (record : CommitRecord) :
    fromJson record.toJson = .ok record := by
  rw [toJson_eq]
  simp [fromJson, Value.asObject, Json.lookup_cons, Value.asU64, Value.asStr,
    Json.Number.asU64, hforms.fromHex_hex, hforms.parseTimestamp_toString, Except.toOption]

/-- Only an object reads as a record. -/
theorem exists_fields_of_fromJson {v : Value} {record : CommitRecord}
    (h : fromJson v = .ok record) : ∃ fields, v = .object fields := by
  cases v with
  | object fields => exact ⟨fields, rfl⟩
  | _ => simp [fromJson, Value.asObject] at h

end CommitRecord

variable [SerdeJson]

/-- What replay reads off one line. -/
def parseLine (line : String) : Except String CommitRecord := do
  let v ← SerdeJson.fromStr line
  CommitRecord.fromJson v

/-- The journal's line codec. The text is the record's compact object. -/
def lineCodec : Journal.Codec CommitRecord where
  parse := parseLine
  text record := record.toJson.compact

theorem lineCodec_text (record : CommitRecord) :
    lineCodec.text record = record.toJson.compact :=
  rfl

/-- What a record is serialised to is the text of its line. -/
theorem CommitRecord.toString_toJson (hjson : SerdeJson.Conforms) (record : CommitRecord) :
    SerdeJson.toString record.toJson = .ok (String.ofList (lineCodec.text record)) :=
  hjson.toString_compact _ record.plain_toJson

/-- A record's line starts with the brace and the first letter of its first
key. -/
theorem text_eq (record : CommitRecord) :
    ∃ rest, lineCodec.text record = '{' :: '"' :: 'c' :: rest := by
  rw [lineCodec_text, CommitRecord.toJson_eq, Value.compact, Value.render]
  exact ⟨_, rfl⟩

theorem derives_text (record : CommitRecord) :
    Json.Derives .object (lineCodec.text record) := by
  have hplain := record.plain_toJson
  rw [lineCodec_text]
  rw [CommitRecord.toJson_eq] at hplain ⊢
  exact Value.derives_compact_object hplain

/-- What reads as a record is the text of an object. -/
theorem objectText_of_parse (hjson : SerdeJson.Conforms) {cs : List Char}
    {record : CommitRecord} (h : lineCodec.parse (String.ofList cs) = .ok record) :
    Json.ObjectText cs := by
  simp only [lineCodec, parseLine] at h
  cases hv : SerdeJson.fromStr (String.ofList cs) with
  | error e => simp [hv] at h
  | ok v =>
      rw [hv, ok_bind] at h
      obtain ⟨fields, rfl⟩ := CommitRecord.exists_fields_of_fromJson h
      simpa using hjson.objectText_of_fromStr _ fields hv

/-- The journal's line codec is lawful. -/
theorem lineCodec_lawful (hforms : RecordTextForms) (hjson : SerdeJson.Conforms) :
    lineCodec.Lawful where
  parse_text record := by
    have hread := hjson.fromStr_compact record.toJson record.plain_toJson
      (by rw [record.depth_toJson]; omega)
    simp only [lineCodec, parseLine, hread, ok_bind]
    exact record.fromJson_toJson hforms
  newline_free record hmem := by
    have hcontrol := Value.noControl_render 0 _ record.plain_toJson '\n' hmem
    exact absurd hcontrol (by decide)
  no_return record := by
    rw [(derives_text record).getLast?_object]
    simp
  opens record := by
    obtain ⟨rest, heq⟩ := text_eq record
    exact ⟨'{', _, heq, by decide, by decide⟩
  record_visible cs record h := by
    obtain ⟨ws, body, ws', rfl, -, hbody, -⟩ := objectText_of_parse hjson h
    refine not_blank_of_mem ?_
    have hmem := List.mem_of_head? hbody.head?_object
    simp [hmem]
  prefix_free record cs hinitial hne record' h :=
    hne ((objectText_of_parse hjson h).eq_of_isPrefix (derives_text record) hinitial)
  not_fused cs record hvisible record' h := by
    obtain ⟨rest, heq⟩ := text_eq record
    exact Json.not_objectText_append (exists_of_not_blank hvisible) (derives_text record) heq
      (by decide) (objectText_of_parse hjson h)

end UnidppLog
