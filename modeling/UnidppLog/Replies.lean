/-
# Replies, whole and cut short

A reply of either framing is decoded to its body, whatever bytes the body has and
however it is cut into chunks. When the connection ends early, the headers and the
data of a chunk are noticed to be incomplete; a size line, the end of a chunk and a
body that is shorter than announced are not.
-/

import UnidppLog.Exchange

namespace UnidppLog

open Text (First decodeLossy textLines trim encode)

/-- The header block of a reply with status 200: it ends at the first blank line. -/
structure Accepted (header : List UInt8) : Prop where
  first : First terminator header
  status : statusOf (decodeLossy header) = some 200

/-- The headers give this content length, in the first line that gives one. -/
def GivesLength (headers : List Char) (n : ℕ) : Prop :=
  ∃ before line after, textLines headers = before ++ line :: after ∧
    (∀ l ∈ before, isLengthLine l = false) ∧
    ∃ name left right, line = name ++ ':' :: (left ++ (Nat.toDigits 10 n ++ right)) ∧
      name.map Char.toLower = "content-length".toList ∧
      (∀ c ∈ left, Text.isWhitespace c = true) ∧ ∀ c ∈ right, Text.isWhitespace c = true

/-- The hexadecimal text of a size, in either case and with zeros in front or not. -/
def IsSizeText (size : List Char) (n : ℕ) : Prop :=
  ∃ zeros, size.map Char.toLower = List.replicate zeros '0' ++ Nat.toDigits 16 n

theorem parseUnsigned_of_number {radix bits n : ℕ} {cs : List Char} (hne : cs ≠ [])
    (hnumber : Text.numberFrom radix 0 cs = some n) (hn : n < 2 ^ bits) :
    parseUnsigned radix bits cs = some n := by
  have hplus : ∀ rest, cs ≠ '+' :: rest := by
    rintro rest rfl
    have hdigit := Text.isSome_digit_of_numberFrom hnumber '+' List.mem_cons_self
    exact Text.of_isSome_digit (p := (· ≠ '+')) hdigit (by decide) rfl
  rw [parseUnsigned]
  · simp [hne, hnumber, hn]
  · exact hplus

theorem IsSizeText.number {size : List Char} {n : ℕ} (h : IsSizeText size n) :
    size ≠ [] ∧ Text.numberFrom 16 0 size = some n := by
  obtain ⟨zeros, hsize⟩ := h
  constructor
  · rintro rfl
    simp [Nat.toDigits_ne_nil] at hsize
  · rw [← Text.numberFrom_map_toLower, hsize, Text.numberFrom_zeros (by decide) (by decide),
      Text.numberFrom_toDigits (by decide) (by decide)]

/-- The line of a size is read. -/
theorem IsSizeText.chunkSize {size : List Char} {n : ℕ} (h : IsSizeText size n)
    (hn : n < 2 ^ 64) : chunkSize (encode size) = some n := by
  obtain ⟨hne, hnumber⟩ := h.number
  have hdigits := Text.isSome_digit_of_numberFrom hnumber
  have htrim : trim size = size := Text.trim_eq_self fun c hc =>
    Text.of_isSome_digit (p := (Text.isWhitespace · = false)) (hdigits c hc) (by decide)
  have hsemicolon : ';' ∉ size := fun hmem =>
    Text.of_isSome_digit (p := (· ≠ ';')) (hdigits ';' hmem) (by decide) rfl
  rw [UnidppLog.chunkSize, Text.decodeLossy_encode, htrim, List.splitOn_eq_singleton hsemicolon]
  exact parseUnsigned_of_number hne hnumber hn

theorem IsSizeText.first {size : List Char} {n : ℕ} (h : IsSizeText size n) :
    First crlf (encode size) := by
  obtain ⟨-, hnumber⟩ := h.number
  have hdigits := Text.isSome_digit_of_numberFrom hnumber
  have hreturn : '\r' ∉ size := fun hmem =>
    Text.of_isSome_digit (p := (· ≠ '\r')) (hdigits '\r' hmem) (by decide) rfl
  refine First.of_not_mem fun hmem => hreturn ?_
  exact (Text.mem_encode_iff (a := '\r') (by decide)).mp hmem

/-- A content length is read where it is given. -/
theorem GivesLength.contentLength {headers : List Char} {n : ℕ} (h : GivesLength headers n)
    (hn : n < 2 ^ 64) : contentLength headers = some n := by
  obtain ⟨before, line, after, hlines, hbefore, name, left, right, rfl, hname, hleft, hright⟩ := h
  have hnumber : Text.numberFrom 10 0 (Nat.toDigits 10 n) = some n :=
    Text.numberFrom_toDigits (by decide) (by decide) n
  have hdigits := Text.isSome_digit_of_numberFrom hnumber
  have htrim : trim (left ++ (Nat.toDigits 10 n ++ right)) = Nat.toDigits 10 n :=
    Text.trim_of_blank hleft hright fun c hc =>
      Text.of_isSome_digit (p := (Text.isWhitespace · = false)) (hdigits c hc) (by decide)
  have hblank : Text.isWhitespace ':' = false := by decide
  have hcolonName : ':' ∉ name := fun hmem => by
    have hlower : (':' : Char).toLower ∈ name.map Char.toLower := List.mem_map_of_mem hmem
    rw [hname] at hlower
    exact absurd hlower (by decide)
  have hcolonValue : ':' ∉ left ++ (Nat.toDigits 10 n ++ right) := by
    simp only [List.mem_append, not_or]
    refine ⟨fun hmem => ?_, fun hmem => ?_, fun hmem => ?_⟩
    · simp [hleft ':' hmem] at hblank
    · exact Text.of_isSome_digit (p := (· ≠ ':')) (hdigits ':' hmem) (by decide) rfl
    · simp [hright ':' hmem] at hblank
  have hline : isLengthLine (name ++ ':' :: (left ++ (Nat.toDigits 10 n ++ right))) = true := by
    have hstart : "content-length:".toList = "content-length".toList ++ [':'] := by decide
    have hcolon : (':' : Char).toLower = ':' := by decide
    rw [isLengthLine, List.map_append, hname, List.map_cons, hcolon, hstart, decide_eq_true_eq,
      List.prefix_append_right_inj]
    exact List.prefix_append [':'] _
  have hfind : (textLines headers).find? isLengthLine =
      some (name ++ ':' :: (left ++ (Nat.toDigits 10 n ++ right))) := by
    rw [hlines, List.find?_append, List.find?_eq_none.mpr (by simpa using hbefore),
      List.find?_cons_of_pos hline]
    rfl
  rw [UnidppLog.contentLength, hfind, Option.bind_eq_bind, Option.bind_some,
    List.splitOn_append_cons_self_of_not_mem hcolonName, List.splitOn_eq_singleton hcolonValue]
  simp only [List.getElem?_cons_succ, List.getElem?_cons_zero, Option.bind_some, htrim]
  exact parseUnsigned_of_number Nat.toDigits_ne_nil hnumber hn

/-- A chunk that is not empty, with the text of its size. -/
structure Chunk where
  size : List Char
  data : List UInt8
  ne_nil : data ≠ []
  sizeText : IsSizeText size data.length

namespace Chunk

/-- The line in front of the data. -/
def line (chunk : Chunk) : List UInt8 :=
  encode chunk.size ++ crlf

def bytes (chunk : Chunk) : List UInt8 :=
  chunk.line ++ (chunk.data ++ crlf)

theorem length_line (chunk : Chunk) : chunk.line.length = (encode chunk.size).length + 2 := by
  simp [line, crlf]

end Chunk

/-- The body that chunks carry. -/
def joinedData (chunks : List Chunk) : List UInt8 :=
  chunks.flatMap Chunk.data

/-- Chunks with the last one, of size zero, behind them. -/
def payload (chunks : List Chunk) : List UInt8 :=
  chunks.flatMap Chunk.bytes ++ (encode ['0'] ++ crlf ++ crlf)

theorem payload_cons (chunk : Chunk) (chunks : List Chunk) :
    payload (chunk :: chunks) = chunk.line ++ (chunk.data ++ (crlf ++ payload chunks)) := by
  simp [payload, Chunk.bytes]

theorem skipLineEnd_crlf (rest : List UInt8) : skipLineEnd (crlf ++ rest) = rest := by
  rw [skipLineEnd, if_pos (List.prefix_append _ _)]
  rfl

/-- A complete chunk is taken. -/
theorem dechunk_chunk (joined : List UInt8) (chunk : Chunk) (back : List UInt8)
    (hlength : (chunk.line ++ chunk.data).length < 2 ^ 64) :
    dechunk joined (chunk.line ++ (chunk.data ++ back)) =
      dechunk (joined ++ chunk.data) (skipLineEnd back) := by
  have hsum : (encode chunk.size).length + 2 + chunk.data.length < 2 ^ 64 := by
    rwa [List.length_append, chunk.length_line] at hlength
  rw [dechunk_eq, Chunk.line, nextChunk_chunk chunk.sizeText.first
    (chunk.sizeText.chunkSize (by omega)) chunk.ne_nil hsum]

/-- At the chunk of size zero, the loop is left. -/
theorem dechunk_zero (joined back : List UInt8) :
    dechunk joined (encode ['0'] ++ crlf ++ back) = some (.ok joined) := by
  have hsize : IsSizeText ['0'] 0 := ⟨0, rfl⟩
  rw [dechunk_eq, nextChunk_of_line hsize.first, hsize.chunkSize (by decide)]
  rfl

/-- The data of the chunks is joined, whatever it is. -/
theorem dechunk_payload (joined : List UInt8) (chunks : List Chunk)
    (hlength : (payload chunks).length < 2 ^ 64) :
    dechunk joined (payload chunks) = some (.ok (joined ++ joinedData chunks)) := by
  induction chunks generalizing joined with
  | nil =>
      rw [joinedData, List.flatMap_nil, List.append_nil]
      exact dechunk_zero joined crlf
  | cons chunk chunks ih =>
      rw [payload_cons] at hlength ⊢
      simp only [List.length_append] at hlength
      rw [dechunk_chunk joined chunk _ (by rw [List.length_append]; omega), skipLineEnd_crlf,
        ih _ (by omega)]
      simp [joinedData]

/-! ## Cut short -/

/-- A reply of status 200 is decoded to its body: of chunks, whatever their data and
however their sizes are written, and of an announced length, whatever follows. -/
theorem decodeReply_framed :
    (∀ (header : List UInt8) (chunks : List Chunk), Accepted header →
      isChunked (decodeLossy header) = true →
      (header ++ terminator ++ payload chunks).length < 2 ^ 64 →
      decodeReply (header ++ terminator ++ payload chunks) = some (.ok (joinedData chunks))) ∧
    ∀ header body trailing : List UInt8, Accepted header →
      isChunked (decodeLossy header) = false → GivesLength (decodeLossy header) body.length →
      (header ++ terminator ++ (body ++ trailing)).length < 2 ^ 64 →
      decodeReply (header ++ terminator ++ (body ++ trailing)) = some (.ok body) := by
  constructor
  · intro header chunks haccepted hchunked hlength
    have hpayload : (payload chunks).length < 2 ^ 64 := by
      rw [List.length_append] at hlength
      omega
    rw [decodeReply_of_header haccepted.first _ hlength, haccepted.status]
    simp only [ne_eq, not_true_eq_false, if_false, hchunked, if_true]
    exact dechunk_payload [] chunks hpayload
  · intro header body trailing haccepted hchunked hgives hlength
    have hbody : body.length < 2 ^ 64 := by
      simp only [List.length_append] at hlength
      omega
    rw [decodeReply_of_header haccepted.first _ hlength, haccepted.status]
    simp [hchunked, hgives.contentLength hbody]

namespace Sample

/-- The headers of a chunked reply. -/
def chunkedHeader : List Char :=
  "HTTP/1.1 200 OK\r\nTransfer-Encoding: chunked".toList

/-- The headers of a reply of two bytes. -/
def sizedHeader : List Char :=
  "HTTP/1.1 200 OK\r\nContent-Length: 2".toList

theorem accepted_chunkedHeader : Accepted (encode chunkedHeader) where
  first := by
    rw [First]
    decide +kernel
  status := by
    rw [Text.decodeLossy_encode]
    decide +kernel

theorem accepted_sizedHeader : Accepted (encode sizedHeader) where
  first := by
    rw [First]
    decide +kernel
  status := by
    rw [Text.decodeLossy_encode]
    decide +kernel

theorem isChunked_chunkedHeader : isChunked (decodeLossy (encode chunkedHeader)) = true := by
  rw [Text.decodeLossy_encode]
  decide +kernel

theorem isChunked_sizedHeader : isChunked (decodeLossy (encode sizedHeader)) = false := by
  rw [Text.decodeLossy_encode]
  decide +kernel

theorem givesLength_sizedHeader : GivesLength (decodeLossy (encode sizedHeader)) 2 := by
  have hblank : Text.isWhitespace ' ' = true := by decide
  rw [Text.decodeLossy_encode]
  exact ⟨["HTTP/1.1 200 OK".toList], "Content-Length: 2".toList, [], by decide +kernel,
    by decide +kernel, "Content-Length".toList, [' '], [], by decide +kernel, by decide +kernel,
    by simpa using hblank, by simp⟩

/-- A chunk whose data is a line end, with a zero in front of its size. -/
def lineEnd : Chunk where
  size := ['0', '2']
  data := crlf
  ne_nil := by decide
  sizeText := ⟨1, by decide⟩

theorem replies_decoded :
    decodeReply (encode chunkedHeader ++ terminator ++ payload [lineEnd, lineEnd]) =
        some (.ok [13, 10, 13, 10]) ∧
      decodeReply (encode sizedHeader ++ terminator ++ ([104, 105] ++ [33])) =
        some (.ok [104, 105]) := by
  obtain ⟨hchunked, hsized⟩ := decodeReply_framed
  constructor
  · exact hchunked _ [lineEnd, lineEnd] accepted_chunkedHeader isChunked_chunkedHeader
      (by decide +kernel)
  · exact hsized _ [104, 105] [33] accepted_sizedHeader isChunked_sizedHeader
      givesLength_sizedHeader (by decide +kernel)

end Sample

end UnidppLog
