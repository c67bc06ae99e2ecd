/-
# Hostile replies

Which bytes of an authority take the handler down that reads them. The sum of the
place behind a size line and the size is the one that is not bounded by what was
received, so a reply does if complete chunks lead to a size for which it overflows.
Every other reply leaves a commit that was sequenced with its 201.
-/

import UnidppLog.Answers
import UnidppLog.Replies
import UnidppLog.Sample.Service

namespace UnidppLog

open Json (Value)
open Text (First decodeLossy)

/-- Complete chunks lead from one place in the body of a reply to another. -/
inductive ChunksTo : List UInt8 → List UInt8 → Prop
  | refl (rest : List UInt8) : ChunksTo rest rest
  | chunk {line data back rest : List UInt8} (hline : First crlf line)
      (hsize : chunkSize line = some data.length) (hne : data ≠ [])
      (hrest : ChunksTo (skipLineEnd back) rest) : ChunksTo (line ++ crlf ++ (data ++ back)) rest

/-- A line with a size that reaches beyond the address space. -/
def Overflows (rest : List UInt8) : Prop :=
  ∃ line back size, rest = line ++ crlf ++ back ∧ First crlf line ∧
    chunkSize line = some size ∧ 2 ^ 64 ≤ line.length + 2 + size

/-- A chunked reply of status 200 whose chunks lead to such a line. -/
def Overflowing (text : List UInt8) : Prop :=
  ∃ header body rest, text = header ++ terminator ++ body ∧ First terminator header ∧
    statusOf (decodeLossy header) = some 200 ∧ isChunked (decodeLossy header) = true ∧
      ChunksTo body rest ∧ Overflows rest

theorem overflows_of_nextChunk {rest : List UInt8} (h : nextChunk rest = none) :
    Overflows rest := by
  by_cases hin : crlf <:+: rest
  · obtain ⟨line, back, rfl, hline⟩ := Text.exists_first hin
    rw [nextChunk_of_line hline] at h
    cases hsize : chunkSize line with
    | none => simp [hsize] at h
    | some size =>
        simp only [hsize] at h
        split_ifs at h with hzero hhuge
        exact ⟨line, back, size, rfl, hline, hsize, hhuge⟩
  · simp [nextChunk_of_no_line hin] at h

theorem Overflows.nextChunk_eq_none {rest : List UInt8} (h : Overflows rest)
    (hlength : rest.length < 2 ^ 64) : nextChunk rest = none := by
  obtain ⟨line, back, size, rfl, hline, hsize, hhuge⟩ := h
  simp only [List.length_append, crlf, List.length_cons, List.length_nil] at hlength
  have hpos : size ≠ 0 := by omega
  rw [nextChunk_of_line hline, hsize]
  simp only [if_neg hpos, if_pos hhuge]

/-- The loop panics where complete chunks lead to a line that overflows. -/
theorem dechunk_eq_none_iff {joined rest : List UInt8} (hlength : rest.length < 2 ^ 64) :
    dechunk joined rest = none ↔ ∃ stuck, ChunksTo rest stuck ∧ Overflows stuck := by
  constructor
  · intro h
    clear hlength
    induction joined, rest using dechunk.induct with
    | case1 joined rest hnext => exact ⟨rest, .refl rest, overflows_of_nextChunk hnext⟩
    | case2 joined rest e hnext => simp [dechunk_eq, hnext] at h
    | case3 joined rest hnext => simp [dechunk_eq, hnext] at h
    | case4 joined rest data next hnext ih =>
        rw [dechunk_eq, hnext] at h
        obtain ⟨stuck, hstuck, hoverflows⟩ := ih h
        obtain ⟨line, back, rfl, hline, hsize, hne, rfl⟩ := exists_of_nextChunk hnext
        exact ⟨stuck, .chunk hline hsize hne hstuck, hoverflows⟩
  · rintro ⟨stuck, hstuck, hoverflows⟩
    induction hstuck generalizing joined with
    | refl rest => rw [dechunk_eq, hoverflows.nextChunk_eq_none hlength]
    | @chunk line data back rest hline hsize hne hrest ih =>
        have hle := length_skipLineEnd_le back
        simp only [List.length_append, crlf, List.length_cons, List.length_nil] at hlength
        rw [dechunk_eq, nextChunk_chunk hline hsize hne (by omega)]
        exact ih (by omega) hoverflows

/-- The decoder panics on the replies that overflow. -/
theorem decodeReply_eq_none_iff {text : List UInt8} (hlength : text.length < 2 ^ 64) :
    decodeReply text = none ↔ Overflowing text := by
  constructor
  · intro h
    by_cases hin : terminator <:+: text
    · obtain ⟨header, body, rfl, hheader⟩ := Text.exists_first hin
      have hbody : body.length < 2 ^ 64 := by
        rw [List.length_append] at hlength
        omega
      rw [decodeReply_of_header hheader _ hlength] at h
      split at h
      · simp at h
      · next status hstatus =>
        split_ifs at h with hother hchunked
        · obtain ⟨rest, hrest, hoverflows⟩ := (dechunk_eq_none_iff hbody).mp h
          rw [not_not.mp hother] at hstatus
          exact ⟨header, body, rest, rfl, hheader, hstatus, hchunked, hrest, hoverflows⟩
        · split at h <;> simp at h
    · simp [decodeReply_of_no_terminator hin] at h
  · rintro ⟨header, body, rest, rfl, hheader, hstatus, hchunked, hrest, hoverflows⟩
    have hbody : body.length < 2 ^ 64 := by
      rw [List.length_append] at hlength
      omega
    rw [decodeReply_of_header hheader _ hlength, hstatus]
    simp only [ne_eq, not_true_eq_false, if_false, hchunked, if_true]
    exact (dechunk_eq_none_iff hbody).mpr ⟨rest, hrest, hoverflows⟩

section

variable [Unidpp] [ExternalAnchoring]

open Unidpp ExternalAnchoring

/-- The decoder and the check behind it. -/
def verifyReply (text : List UInt8) (digest : Hash) : Option (Except String Unit) := do
  match ← decodeReply text with
  | .error e => return .error e
  | .ok body => verifyTimestampResponse body digest

theorem verifyReply_eq_none_iff {text : List UInt8} {digest : Hash} :
    verifyReply text digest = none ↔ decodeReply text = none := by
  rw [verifyReply]
  rcases decodeReply text with - | (e | body)
  · simp
  · simp
  · simp [verifyTimestampResponse_ne_none]

/-- A clock whose back-off does not leave the range of a time stamp. -/
def InRange (now : Timestamp) : Prop :=
  -2 ^ 63 ≤ timestampSecs now + TsaRecord.retryAfterSecs ∧
    timestampSecs now + TsaRecord.retryAfterSecs < 2 ^ 63

/-- A submission is recorded, whatever was decoded. -/
theorem exists_submitAnchor (anchor : ExternalAnchor) (tsaUrl : String) {now : Timestamp}
    (hnow : InRange now) (reply : Except String (List UInt8)) :
    ∃ record, submitAnchor anchor tsaUrl now reply = some record := by
  cases reply with
  | error e => exact TsaRecord.exists_degraded _ tsaUrl now hnow.1 hnow.2
  | ok response =>
      rw [submitAnchor]
      rcases hverify : verifyTimestampResponse response anchor.digest with - | (e | ok)
      · exact absurd hverify (verifyTimestampResponse_ne_none _ _)
      · exact TsaRecord.exists_degraded _ tsaUrl now hnow.1 hnow.2
      · exact ⟨_, rfl⟩

variable [SerdeJson]

/-- The bytes of the authority reach the handler that waits for them. A panic ends it
outside of every lock. -/
def System.receive (s : System) (i : ℕ) (now : Timestamp) (text : List UInt8) : Option System :=
  match decodeReply text with
  | none => s.step (.leave i)
  | some reply => s.step (.record i now reply)

/-- A handler that waits with a sequenced commit answers with 201 when the bytes arrive. -/
def System.Survives (s : System) (i : ℕ) (v : Value) (now : Timestamp) (text : List UInt8) :
    Prop :=
  ∃ t response, s.receive i now text = some t ∧
    t.handlers[i]? = some (.commit (.ok v) (.answered (some response))) ∧
      jsonResponse 201 v = some response

/-- The bytes of an authority are decoded and checked without a panic, and every handler
that waits for them with a sequenced commit answers with 201, unless they overflow. -/
theorem survives_iff (hjson : SerdeJson.Conforms) {text : List UInt8}
    (hlength : text.length < 2 ^ 64) :
    ((∀ digest, verifyReply text digest ≠ none) ∧
      ∀ (config : Config) (journal : Option JournalFile) (service : Service)
        (actions : List Action) (s : System) (i : ℕ) (v : Value) (head : SignedTreeHead)
        (now : Timestamp), Service.new config journal = some (.ok service) →
        (System.init service).run actions = some s →
        s.handlers[i]? = some (.commit (.ok v) (.submitting head)) → InRange now →
        s.Survives i v now text) ↔
      ¬ Overflowing text := by
  rw [← decodeReply_eq_none_iff hlength]
  constructor
  · rintro ⟨hverify, -⟩ hnone
    exact hverify zeroHash (verifyReply_eq_none_iff.mpr hnone)
  · intro hdecoded
    refine ⟨fun digest => verifyReply_eq_none_iff.not.mpr hdecoded, ?_⟩
    intro config journal service actions s i v head now hnew hrun hi hnow
    obtain ⟨reply, hreply⟩ := Option.ne_none_iff_exists'.mp hdecoded
    have hagrees := ((System.agrees_init service).run (System.sound_init hnew) hrun).1
    obtain ⟨hplain, hurl⟩ := hagrees _ (List.mem_of_getElem? hi)
    obtain ⟨tsaUrl, htsaUrl⟩ := Option.ne_none_iff_exists'.mp hurl
    obtain ⟨response, hresponse⟩ := exists_jsonResponse hjson 201 (hplain v rfl)
    obtain ⟨record, hrecord⟩ := exists_submitAnchor head.anchoredExternally tsaUrl hnow reply
    refine ⟨s.record i (.ok v) head tsaUrl now reply, response, ?_, ?_, hresponse⟩
    · rw [System.receive, hreply]
      simp only [System.step, hi, htsaUrl]
    · obtain ⟨hlt, -⟩ := List.getElem?_eq_some_iff.mp hi
      simp only [System.record, hrecord, System.set, respond, hresponse]
      rw [List.getElem?_set_self hlt]

end

namespace Sample

open Text (encode)

/-- The reply of two bytes. -/
def sizedReply : List UInt8 :=
  encode sizedHeader ++ terminator ++ [104, 105]

theorem sizedReply_survived :
    ∃ (s : System) (v : Value) (head : SignedTreeHead),
      (System.init (service (some tsaUrl))).run [commitAt 1, .readHead 0] = some s ∧
      s.handlers[0]? = some (.commit (.ok v) (.submitting head)) ∧
      s.Survives 0 v (⟨1, by decide⟩ : Fin 60) sizedReply := by
  have hlength : sizedReply.length < 2 ^ 64 := by decide +kernel
  have hdecoded : ¬ Overflowing sizedReply := by
    rw [← decodeReply_eq_none_iff hlength, sizedReply,
      decodeReply_of_header accepted_sizedHeader.first _ hlength, accepted_sizedHeader.status,
      isChunked_sizedHeader, givesLength_sizedHeader.contentLength (by decide)]
    simp
  obtain ⟨s, v, head, hrun, -, hhandlers, -⟩ := exists_submitting
  have hi : s.handlers[0]? = some (.commit (.ok v) (.submitting head)) := by
    rw [hhandlers]
    rfl
  have hsurvives := ((survives_iff serdeJson_conforms hlength).mpr hdecoded).2
  refine ⟨s, v, head, hrun, hi, hsurvives _ _ _ _ s 0 v head _ (new_service _) hrun hi ?_⟩
  constructor <;> decide

/-- A chunk that announces all of the address space. -/
def hugeReply : List UInt8 :=
  encode chunkedHeader ++ terminator ++ (encode "ffffffffffffffff".toList ++ crlf ++ [])

/-- It panics in the decoder, and the commit that waits for it is not answered. -/
theorem hugeReply_panics :
    verifyReply hugeReply sevens = none ∧
      ∃ (s t : System) (v : Value) (head : SignedTreeHead),
        (System.init (service (some tsaUrl))).run [commitAt 1, .readHead 0] = some s ∧
        s.handlers[0]? = some (.commit (.ok v) (.submitting head)) ∧
        s.receive 0 (⟨1, by decide⟩ : Fin 60) hugeReply = some t ∧
        t.handlers[0]? = some (.commit (.ok v) (.answered none)) := by
  have hsize : IsSizeText "ffffffffffffffff".toList (2 ^ 64 - 1) := ⟨0, by decide +kernel⟩
  have hdecoded : decodeReply hugeReply = none := by
    rw [decodeReply_eq_none_iff (by decide +kernel)]
    exact ⟨_, _, _, rfl, accepted_chunkedHeader.first, accepted_chunkedHeader.status,
      isChunked_chunkedHeader, .refl _, _, [], _, rfl, hsize.first, hsize.chunkSize (by decide),
      by decide⟩
  obtain ⟨s, v, head, hrun, -, hhandlers, -⟩ := exists_submitting
  have hi : s.handlers[0]? = some (.commit (.ok v) (.submitting head)) := by
    rw [hhandlers]
    rfl
  refine ⟨verifyReply_eq_none_iff.mpr hdecoded, s, s.set 0 (.commit (.ok v) (.answered none)), v,
    head, hrun, hi, ?_, ?_⟩
  · rw [System.receive, hdecoded]
    simp only [System.step, hi]
  · rw [System.set, hhandlers]
    rfl

end Sample

end UnidppLog
