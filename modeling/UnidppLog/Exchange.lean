/-
# The exchange with the authority

What is made of the bytes that the authority sends until it closes the connection:
the header block, its status, and a body that is chunked, as long as it says, or all
that follows. One round of the loop over the chunks is a function of its own, and an
outer `none` is a panic.
-/

import UnidppLog.Rust
import UnidppLog.Text.Lossy
import UnidppLog.Text.Number
import UnidppLog.Text.Search

namespace UnidppLog

open Text (First decodeLossy textLines words trim)

/-- The first index at which `needle` occurs. -/
def findSubsequence (haystack needle : List UInt8) : Option ℕ :=
  if needle = [] ∨ haystack.length < needle.length then none
  else (List.range (haystack.length + 1 - needle.length)).find? fun i =>
    (haystack.drop i).take needle.length = needle

/-- `from_str_radix` on an unsigned integer: digits, a plus sign in front of them
allowed. -/
def parseUnsigned (radix bits : ℕ) (cs : List Char) : Option ℕ := do
  let digits :=
    match cs with
    | '+' :: rest => rest
    | cs => cs
  if digits = [] then none
  let n ← Text.numberFrom radix 0 digits
  if n < 2 ^ bits then some n else none

def crlf : List UInt8 :=
  [13, 10]

/-- The blank line behind the header block. -/
def terminator : List UInt8 :=
  crlf ++ crlf

/-- The status of the status line, the first of the block. -/
def statusOf (headers : List Char) : Option ℕ :=
  (words ((textLines headers).headD []))[1]?.bind (parseUnsigned 10 16)

def isChunked (headers : List Char) : Bool :=
  "transfer-encoding: chunked".toList <:+: headers.map Char.toLower

def isLengthLine (line : List Char) : Bool :=
  "content-length:".toList <+: line.map Char.toLower

/-- The number in the first line that gives a content length, if it is one. -/
def contentLength (headers : List Char) : Option ℕ := do
  let line ← (textLines headers).find? isLengthLine
  let value ← (line.splitOn ':')[1]?
  parseUnsigned 10 64 (trim value)

/-- The size of a chunk, by the line in front of it: up to the first semicolon. -/
def chunkSize (line : List UInt8) : Option ℕ :=
  parseUnsigned 16 64 (((trim (decodeLossy line)).splitOn ';').headD ['0'])

/-- What follows a chunk, without the line end behind its data. -/
def skipLineEnd (rest : List UInt8) : List UInt8 :=
  if crlf <+: rest then rest.drop 2 else rest

/-- One round: the loop is left, or a chunk's data is taken and what follows it is next. -/
def nextChunk (rest : List UInt8) :
    Option (Except String (Option (List UInt8 × List UInt8))) :=
  match findSubsequence rest crlf with
  | none => some (.ok none)
  | some lineEnd => do
    match chunkSize (← subslice rest 0 lineEnd) with
    | none => return .error "bad chunk size"
    | some size =>
      if size = 0 then return .ok none
      let start ← U64.add lineEnd 2
      let stop ← U64.add start size
      if rest.length < stop then return .error "truncated chunk"
      let data ← subslice rest start stop
      let rest ← subslice rest stop rest.length
      return .ok (some (data, skipLineEnd rest))

theorem findSubsequence_of_absent {haystack needle : List UInt8}
    (hnot : ¬ needle <:+: haystack) :
    findSubsequence haystack needle = none := by
  rw [findSubsequence]
  split
  · rfl
  · rw [List.find?_range_eq_none]
    intro i hi
    rw [Bool.not_eq_true', decide_eq_false_iff_not]
    intro htake
    refine hnot (List.IsInfix.trans ?_ (List.drop_suffix i haystack).isInfix)
    rw [← htake]
    exact (List.take_prefix _ _).isInfix

theorem findSubsequence_of_first {front needle : List UInt8} (hne : needle ≠ [])
    (hfirst : First needle front) (back : List UInt8) :
    findSubsequence (front ++ needle ++ back) needle = some front.length := by
  have hpos : 0 < needle.length := List.length_pos_iff.mpr hne
  have hroom : ¬ (needle = [] ∨ (front ++ needle ++ back).length < needle.length) := by
    simp [hne]
    omega
  have hprefix : ∀ i, ((front ++ needle ++ back).drop i).take needle.length = needle ↔
      needle <+: (front ++ needle ++ back).drop i := by
    intro i
    rw [List.prefix_iff_eq_take, eq_comm]
  rw [findSubsequence, if_neg hroom, List.find?_range_eq_some]
  simp only [decide_eq_true_eq, hprefix, Bool.not_eq_true', decide_eq_false_iff_not]
  refine ⟨First.prefix_drop needle front back, ?_, fun j hj => hfirst.not_prefix_drop back hj⟩
  simp only [List.mem_range, List.length_append]
  omega

/-- Without a line, the loop is left. -/
theorem nextChunk_of_no_line {rest : List UInt8} (hnot : ¬ crlf <:+: rest) :
    nextChunk rest = some (.ok none) := by
  rw [nextChunk, findSubsequence_of_absent hnot]

/-- What a round makes of a line and what follows it. -/
theorem nextChunk_of_line {line : List UInt8} (hline : First crlf line) (back : List UInt8) :
    nextChunk (line ++ crlf ++ back) =
      match chunkSize line with
      | none => some (.error "bad chunk size")
      | some size =>
        if size = 0 then some (.ok none)
        else if 2 ^ 64 ≤ line.length + 2 + size then none
        else if back.length < size then some (.error "truncated chunk")
        else some (.ok (some (back.take size, skipLineEnd (back.drop size)))) := by
  have hfront : subslice (line ++ crlf ++ back) 0 line.length = some line := by
    rw [subslice_take (by simp), List.append_assoc, List.take_left]
  have hlength : (line ++ crlf).length = line.length + 2 := by simp [crlf]
  have hwhole : (line ++ crlf ++ back).length = line.length + 2 + back.length := by
    rw [List.length_append, hlength]
  rw [nextChunk, findSubsequence_of_first (by decide) hline]
  simp only [Option.bind_eq_bind, hfront, Option.bind_some]
  cases chunkSize line with
  | none => rfl
  | some size =>
      by_cases hzero : size = 0
      · simp [hzero]
      simp only [if_neg hzero]
      by_cases hhuge : 2 ^ 64 ≤ line.length + 2 + size
      · rw [if_pos hhuge]
        by_cases hstart : line.length + 2 < 2 ^ 64
        · have hstop : U64.add (line.length + 2) size = none := if_neg (Nat.not_lt.mpr hhuge)
          simp [U64.add_of_lt hstart, hstop]
        · have hstart' : U64.add line.length 2 = none := if_neg hstart
          simp [hstart']
      simp only [if_neg hhuge, U64.add_of_lt (show line.length + 2 < 2 ^ 64 by omega),
        Option.bind_some, U64.add_of_lt (Nat.not_le.mp hhuge), hwhole, Nat.add_lt_add_iff_left]
      by_cases hshort : back.length < size
      · simp [hshort]
      have hdata : subslice (line ++ crlf ++ back) (line.length + 2) (line.length + 2 + size) =
          some (back.take size) := by
        rw [← hlength]
        exact (subslice_append _ _ 0 _).trans (subslice_take (Nat.not_lt.mp hshort))
      have hback : subslice (line ++ crlf ++ back) (line.length + 2 + size)
          (line.length + 2 + back.length) = some (back.drop size) := by
        rw [← hlength, subslice_append, subslice_drop (Nat.not_lt.mp hshort)]
      simp only [if_neg hshort, hdata, hback, Option.bind_some, Option.pure_def]

/-- A complete chunk is taken, and the line end behind it. -/
theorem nextChunk_chunk {line data : List UInt8} (hline : First crlf line)
    (hsize : chunkSize line = some data.length) (hne : data ≠ [])
    (hfits : line.length + 2 + data.length < 2 ^ 64) (back : List UInt8) :
    nextChunk (line ++ crlf ++ (data ++ back)) = some (.ok (some (data, skipLineEnd back))) := by
  have hpos : data.length ≠ 0 := List.length_eq_zero_iff.not.mpr hne
  have hroom : ¬ (data ++ back).length < data.length := by simp
  rw [nextChunk_of_line hline, hsize]
  simp only [if_neg hpos, if_neg (Nat.not_le.mpr hfits), if_neg hroom, List.take_left,
    List.drop_left]

theorem length_skipLineEnd_le (rest : List UInt8) : (skipLineEnd rest).length ≤ rest.length := by
  rw [skipLineEnd]
  split
  · rw [List.length_drop]
    omega
  · exact le_rfl

/-- A round that goes on has taken a complete chunk. -/
theorem exists_of_nextChunk {rest data next : List UInt8}
    (h : nextChunk rest = some (.ok (some (data, next)))) :
    ∃ line back, rest = line ++ crlf ++ (data ++ back) ∧ First crlf line ∧
      chunkSize line = some data.length ∧ data ≠ [] ∧ next = skipLineEnd back := by
  by_cases hin : crlf <:+: rest
  · obtain ⟨line, back, rfl, hline⟩ := Text.exists_first hin
    rw [nextChunk_of_line hline] at h
    cases hsize : chunkSize line with
    | none => simp [hsize] at h
    | some size =>
        simp only [hsize] at h
        split_ifs at h with hzero hhuge hshort
        · simp at h
        · simp at h
        · simp only [Option.some.injEq, Except.ok.injEq, Prod.mk.injEq] at h
          obtain ⟨rfl, rfl⟩ := h
          have hlength : (back.take size).length = size :=
            List.length_take_of_le (Nat.not_lt.mp hshort)
          refine ⟨line, back.drop size, by rw [List.take_append_drop], hline,
            by rw [hlength, hsize], ?_, rfl⟩
          exact List.ne_nil_of_length_pos (by omega)
  · simp [nextChunk_of_no_line hin] at h

theorem length_of_nextChunk {rest data next : List UInt8}
    (h : nextChunk rest = some (.ok (some (data, next)))) : next.length < rest.length := by
  obtain ⟨line, back, rfl, -, -, -, rfl⟩ := exists_of_nextChunk h
  have hle := length_skipLineEnd_le back
  simp [crlf]
  omega

/-- The data of the chunks, behind what was joined so far. -/
def dechunk (joined rest : List UInt8) : Option (Except String (List UInt8)) :=
  match _h : nextChunk rest with
  | none => none
  | some (.error e) => some (.error e)
  | some (.ok none) => some (.ok joined)
  | some (.ok (some (data, next))) => dechunk (joined ++ data) next
termination_by rest.length
decreasing_by exact length_of_nextChunk _h

/-- The body of a reply. -/
def decodeReply (text : List UInt8) : Option (Except String (List UInt8)) :=
  match findSubsequence text terminator with
  | none => some (.error "malformed HTTP response (no header terminator)")
  | some headerEnd => do
    let headers := decodeLossy (← subslice text 0 headerEnd)
    match statusOf headers with
    | none => return .error "malformed HTTP status line"
    | some status =>
      if status ≠ 200 then return .error s!"TSA returned HTTP {status}"
      let bodyBytes ← subslice text (← U64.add headerEnd 4) text.length
      if isChunked headers then dechunk [] bodyBytes
      else
        match contentLength headers with
        | some range =>
          if range ≤ bodyBytes.length then return .ok (← subslice bodyBytes 0 range)
          else return .ok bodyBytes
        | none => return .ok bodyBytes

theorem dechunk_eq (joined rest : List UInt8) :
    dechunk joined rest =
      match nextChunk rest with
      | none => none
      | some (.error e) => some (.error e)
      | some (.ok none) => some (.ok joined)
      | some (.ok (some (data, next))) => dechunk (joined ++ data) next := by
  rw [dechunk]
  split <;> simp [*]

/-- What is made of a reply with a header block. -/
theorem decodeReply_of_header {header : List UInt8} (hheader : First terminator header)
    (body : List UInt8) (hlength : (header ++ terminator ++ body).length < 2 ^ 64) :
    decodeReply (header ++ terminator ++ body) =
      match statusOf (decodeLossy header) with
      | none => some (.error "malformed HTTP status line")
      | some status =>
        if status ≠ 200 then some (.error s!"TSA returned HTTP {status}")
        else if isChunked (decodeLossy header) then dechunk [] body
        else
          match contentLength (decodeLossy header) with
          | some range => some (.ok (body.take range))
          | none => some (.ok body) := by
  have hfront : subslice (header ++ terminator ++ body) 0 header.length = some header := by
    rw [subslice_take (by simp), List.append_assoc, List.take_left]
  have hend : (header ++ terminator).length = header.length + 4 := by simp [terminator, crlf]
  have hstart : U64.add header.length 4 = some (header.length + 4) :=
    U64.add_of_lt (by rw [← hend]; rw [List.length_append] at hlength; omega)
  have hbody : subslice (header ++ terminator ++ body) (header.length + 4)
      (header ++ terminator ++ body).length = some body := by
    have hdrop := subslice_drop
      (show (header ++ terminator).length ≤ (header ++ terminator ++ body).length by simp)
    rwa [List.drop_left, hend] at hdrop
  rw [decodeReply, findSubsequence_of_first (by decide) hheader]
  simp only [Option.bind_eq_bind, hfront, Option.bind_some, hstart, hbody]
  cases statusOf (decodeLossy header) with
  | none => rfl
  | some status =>
      by_cases hok : status = 200
      · simp only [hok, ne_eq, not_true_eq_false, if_false]
        split
        · rfl
        · cases contentLength (decodeLossy header) with
          | none => rfl
          | some range =>
              by_cases hrange : range ≤ body.length
              · simp [hrange, subslice_take hrange]
              · simp [hrange, List.take_of_length_le (Nat.not_le.mp hrange).le]
      · simp [hok]

/-- Without a blank line, a reply is refused. -/
theorem decodeReply_of_no_terminator {text : List UInt8} (hnot : ¬ terminator <:+: text) :
    decodeReply text = some (.error "malformed HTTP response (no header terminator)") := by
  rw [decodeReply, findSubsequence_of_absent hnot]

end UnidppLog
