/-
# External time-stamp anchoring

Submitting the digest of a signed tree head to a time-stamp authority, checking
offline that the reply is a response for that digest, and the record that is
kept of the outcome. The exchange over the network is an input: the bytes of the
reply's body, or why there is none.
-/

import UnidppLog.Asn1.Der
import UnidppLog.Receipt

namespace UnidppLog

open Json (Value)
open Unidpp

/-- What the external anchor needs of `unidpp-model` and `unidpp-signatif`
besides. An anchor is a function of the canonical bytes of its head. -/
class ExternalAnchoring [Unidpp] where
  /-- `Hash::as_bytes`. -/
  hashBytes : Hash → List UInt8
  /-- `Timestamp::secs`. -/
  timestampSecs : Timestamp → ℤ
  /-- `Timestamp::from_secs`. -/
  timestampFromSecs : ℤ → Timestamp
  /-- The digest of an RFC 3161 anchor. -/
  anchorDigest : List UInt8 → Hash
  /-- The query bytes of an RFC 3161 anchor. -/
  anchorPayload : List UInt8 → List UInt8

/-- One tag, length and value. -/
structure Tlv where
  tag : UInt8
  value : List UInt8
  rawLen : ℕ

/-- `from_be_bytes`. -/
def fromBeBytes (bytes : List UInt8) : ℕ :=
  bytes.foldl (fun acc b => acc * 256 + b.toNat) 0

/-- The lengths of content and header, from the first length byte on. The outer
`none` is a panic, the inner one a length that is not definite or too long. -/
def derLengths (bytes : List UInt8) (first : UInt8) : Option (Option (ℕ × ℕ)) :=
  if first ≤ 0x7f then some (some (first.toNat, 2))
  else if first = 0x81 ∧ 3 ≤ bytes.length then do
    return some (fromBeBytes [← bytes[2]?], 3)
  else if first = 0x82 ∧ 4 ≤ bytes.length then do
    return some (fromBeBytes [← bytes[2]?, ← bytes[3]?], 4)
  else if first = 0x83 ∧ 5 ≤ bytes.length then do
    return some (fromBeBytes [0, ← bytes[2]?, ← bytes[3]?, ← bytes[4]?], 5)
  else if first = 0x84 ∧ 6 ≤ bytes.length then do
    return some (fromBeBytes [← bytes[2]?, ← bytes[3]?, ← bytes[4]?, ← bytes[5]?], 6)
  else some none

/-- One definite-length TLV at the head of `bytes`, if there is one. -/
def derTlv (bytes : List UInt8) : Option (Option Tlv) :=
  if bytes.length < 2 then some none
  else do
    let tag ← bytes[0]?
    match ← derLengths bytes (← bytes[1]?) with
    | none => return none
    | some (contentLen, headerLen) =>
      let total ← U64.add headerLen contentLen
      if bytes.length < total then return none
      let value ← subslice bytes headerLen total
      return some { tag, value, rawLen := total }

open Asn1 (LengthOctets IsElement)

theorem derLengths_of_octets {n : ℕ} {first : UInt8} {more : List UInt8}
    (h : LengthOctets 4 n (first :: more)) (tag : UInt8) (tail : List UInt8) :
    derLengths (tag :: first :: (more ++ tail)) first = some (some (n, more.length + 2)) := by
  cases h with
  | short hb =>
      have hle : first ≤ 0x7f := UInt8.le_iff_toNat_le.mpr (Nat.le_of_lt_succ hb)
      rw [derLengths, if_pos hle]
      rfl
  | long hne hlimit hcount =>
      obtain rfl : first = UInt8.ofNat (128 + more.length) := by
        rw [← hcount, UInt8.ofNat_toNat]
      match more, hne, hlimit with
      | [a], _, _ => simp [derLengths, fromBeBytes, Asn1.ofBigEndian]
      | [a, b], _, _ => simp [derLengths, fromBeBytes, Asn1.ofBigEndian]
      | [a, b, c], _, _ => simp [derLengths, fromBeBytes, Asn1.ofBigEndian]
      | [a, b, c, d], _, _ => simp [derLengths, fromBeBytes, Asn1.ofBigEndian]

/-- A length is read if it is definite and takes four octets at most. -/
theorem derLengths_cases (tag first : UInt8) (bytes : List UInt8) :
    derLengths (tag :: first :: bytes) first = some none ∨
      ∃ n more tail, LengthOctets 4 n (first :: more) ∧ bytes = more ++ tail := by
  by_cases hshort : first ≤ 0x7f
  · have hb : first.toNat < 128 := Nat.lt_succ_of_le (UInt8.le_iff_toNat_le.mp hshort)
    exact .inr ⟨_, [], bytes, .short hb, rfl⟩
  have hlong : ∀ k, 0 < k → k ≤ 4 → first.toNat = 128 + k → k ≤ bytes.length →
      ∃ n more tail, LengthOctets 4 n (first :: more) ∧ bytes = more ++ tail := by
    intro k hpos hk hfirst hlength
    have htake : (bytes.take k).length = k := List.length_take_of_le hlength
    exact ⟨_, bytes.take k, bytes.drop k,
      .long (List.ne_nil_of_length_pos (by omega)) (by omega) (by omega),
      (List.take_append_drop k bytes).symm⟩
  simp only [derLengths, if_neg hshort, List.length_cons]
  split
  · next h => exact .inr (hlong 1 (by decide) (by decide) (by rw [h.1]; rfl) (by omega))
  split
  · next h => exact .inr (hlong 2 (by decide) (by decide) (by rw [h.1]; rfl) (by omega))
  split
  · next h => exact .inr (hlong 3 (by decide) (by decide) (by rw [h.1]; rfl) (by omega))
  split
  · next h => exact .inr (hlong 4 (by decide) (by decide) (by rw [h.1]; rfl) (by omega))
  · exact .inl rfl

/-- Header and content of such a length are far from the end of the address space. -/
theorem header_add_lt {n : ℕ} {first : UInt8} {more : List UInt8}
    (h : LengthOctets 4 n (first :: more)) : more.length + 2 + n < 2 ^ 64 := by
  have hlength : (first :: more).length ≤ 5 := h.length_le
  have hlt : n < 256 ^ 4 := h.lt
  rw [List.length_cons] at hlength
  omega

/-- An element in front of anything is read as it is. -/
theorem derTlv_of_isElement {tag : UInt8} {content element : List UInt8}
    (h : IsElement 4 tag content element) (rest : List UInt8) :
    derTlv (element ++ rest) =
      some (some { tag, value := content, rawLen := element.length }) := by
  obtain ⟨octets, hoctets, rfl⟩ := h
  obtain ⟨first, more, rfl⟩ := List.exists_cons_of_ne_nil hoctets.ne_nil
  have hbytes : tag :: (first :: more ++ content) ++ rest =
      tag :: first :: (more ++ (content ++ rest)) := by simp
  have hlength : (tag :: (first :: more ++ content)).length =
      more.length + 2 + content.length := by
    simp only [List.length_cons, List.length_append]
    omega
  have hroom : more.length + 2 + content.length ≤
      (tag :: first :: (more ++ (content ++ rest))).length := by
    simp only [List.length_cons, List.length_append]
    omega
  have hvalue : subslice (tag :: first :: (more ++ (content ++ rest))) (more.length + 2)
      (more.length + 2 + content.length) = some content := by
    rw [subslice_of_le _ (by omega) hroom]
    simp
  rw [hbytes, derTlv, if_neg (by simp), hlength]
  simp only [List.getElem?_cons_zero, List.getElem?_cons_succ, Option.bind_eq_bind,
    Option.bind_some, derLengths_of_octets hoctets, U64.add_of_lt (header_add_lt hoctets),
    if_neg (Nat.not_lt.mpr hroom), hvalue, Option.pure_def]

/-- There is an element in front, or none is read. -/
theorem derTlv_cases (bytes : List UInt8) :
    derTlv bytes = some none ∨
      ∃ tag content element rest, IsElement 4 tag content element ∧ bytes = element ++ rest := by
  match bytes with
  | [] => exact .inl rfl
  | [_] => exact .inl rfl
  | tag :: first :: bytes =>
      have htwo : ¬ (tag :: first :: bytes).length < 2 := by simp
      rcases derLengths_cases tag first bytes with hnone | ⟨n, more, tail, hoctets, rfl⟩
      · refine .inl ?_
        rw [derTlv, if_neg htwo]
        simp [hnone]
      by_cases hroom : tail.length < n
      · have htotal : (tag :: first :: (more ++ tail)).length < more.length + 2 + n := by
          simp only [List.length_cons, List.length_append]
          omega
        refine .inl ?_
        rw [derTlv, if_neg htwo]
        simp only [List.getElem?_cons_zero, List.getElem?_cons_succ, Option.bind_eq_bind,
          Option.bind_some, derLengths_of_octets hoctets, U64.add_of_lt (header_add_lt hoctets),
          if_pos htotal, Option.pure_def]
      · have htake : (tail.take n).length = n := List.length_take_of_le (Nat.not_lt.mp hroom)
        refine .inr ⟨tag, tail.take n, tag :: (first :: more ++ tail.take n), tail.drop n,
          ⟨first :: more, by rwa [htake], rfl⟩, ?_⟩
        simp

/-- Whether an octet string of 32 bytes with this content starts at `offset`. -/
def octetsAt (der needle : List UInt8) (offset : ℕ) : Bool :=
  der[offset]? = some 0x04 ∧ der[offset + 1]? = some 0x20 ∧
    (der.drop (offset + 2)).take 32 = needle

/-- An octet string of 32 bytes. -/
def octetString (content : List UInt8) : List UInt8 :=
  0x04 :: 0x20 :: content

theorem octetsAt_iff {der needle : List UInt8} (hlength : needle.length = 32) {offset : ℕ} :
    octetsAt der needle offset = true ↔ octetString needle <+: der.drop offset := by
  have hdrop : der.drop (offset + 2) = (der.drop offset).drop 2 := by rw [List.drop_drop]
  have hfirst : der[offset]? = (der.drop offset)[0]? := by simp
  have hsecond : der[offset + 1]? = (der.drop offset)[1]? := by simp
  rw [octetsAt, hdrop, hfirst, hsecond, decide_eq_true_iff]
  rcases der.drop offset with - | ⟨a, - | ⟨b, tail⟩⟩
  · simp [octetString]
  · simp [octetString]
  · have hprefix : tail.take 32 = needle ↔ needle <+: tail := by
      rw [List.prefix_iff_eq_take, hlength, eq_comm]
    simp [octetString, hprefix, List.cons_prefix_cons, eq_comm]

/-- The search finds an octet string wherever it stands. -/
theorem any_octetsAt_iff {der needle : List UInt8} (hlength : needle.length = 32) :
    (List.range (der.length + 1 - 34)).any (octetsAt der needle) = true ↔
      octetString needle <:+: der := by
  rw [List.any_eq_true]
  constructor
  · rintro ⟨offset, -, hat⟩
    exact ((octetsAt_iff hlength).mp hat).isInfix.trans (List.drop_suffix _ _).isInfix
  · rintro ⟨front, back, rfl⟩
    have hneedle : (octetString needle).length = 34 := by simp [octetString, hlength]
    refine ⟨front.length, ?_, (octetsAt_iff hlength).mpr ?_⟩
    · simp only [List.mem_range, List.length_append]
      omega
    · simp

/-- A sextet of base 64. -/
def sextet (n : ℕ) : Char :=
  "ABCDEFGHIJKLMNOPQRSTUVWXYZabcdefghijklmnopqrstuvwxyz0123456789+/".toList.getD (n &&& 63) '='

/-- `chunks(3)`. -/
def chunks : List UInt8 → List (List UInt8)
  | [] => []
  | b₀ :: b₁ :: b₂ :: rest => [b₀, b₁, b₂] :: chunks rest
  | bytes => [bytes]

/-- The four characters of a chunk of one to three bytes. -/
def quad (chunk : List UInt8) : List Char :=
  let b₀ := (chunk.getD 0 0).toNat
  let b₁ := (chunk.getD 1 0).toNat
  let b₂ := (chunk.getD 2 0).toNat
  let triple := b₀ <<< 16 ||| b₁ <<< 8 ||| b₂
  [sextet (triple >>> 18), sextet (triple >>> 12),
    if 1 < chunk.length then sextet (triple >>> 6) else '=',
    if 2 < chunk.length then sextet triple else '=']

def base64 (bytes : List UInt8) : String :=
  String.ofList ((chunks bytes).flatMap quad)

variable [Unidpp]

/-- The stored outcome of the latest external submission. -/
structure TsaRecord where
  treeSize : UInt64
  digest : Hash
  status : String
  tsaUrl : String
  response : Option (List UInt8)
  submittedAt : Timestamp
  retryAt : Option Timestamp

namespace TsaRecord

/-- The wire view of a record. -/
def toWire (record : TsaRecord) : Value :=
  .ofFields [
    ("status", .string record.status),
    ("tsa_url", .string record.tsaUrl),
    ("tree_size", .number (.posInt record.treeSize)),
    ("digest", .string (hex record.digest)),
    ("submitted_at", .string (timestampToString record.submittedAt)),
    ("retry_at",
      match record.retryAt with
      | some t => .string (timestampToString t)
      | none => .null),
    ("response",
      match record.response with
      | some bytes => .string (base64 bytes)
      | none => .null)]

end TsaRecord

/-- A record is plain JSON of one bracket. -/
theorem TsaRecord.plain_toWire (record : TsaRecord) :
    record.toWire.Plain ∧ record.toWire.depth ≤ 1 := by
  constructor
  · refine Value.plain_ofFields ?_
    cases record.retryAt <;> cases record.response <;> simp [Value.Plain]
  · refine Value.depth_ofFields_le ?_
    cases record.retryAt <;> cases record.response <;> simp [Value.depth]

variable [ExternalAnchoring]

open ExternalAnchoring

/-- An RFC 3161 anchor. -/
structure ExternalAnchor where
  digest : Hash
  payload : List UInt8

/-- The bytes a head is signed over. -/
def SignedTreeHead.canonical (head : SignedTreeHead) : List UInt8 :=
  canonicalBytes head.logId head.treeSize head.timestamp head.root

/-- `anchored_externally`: the anchor it attaches. -/
def SignedTreeHead.anchoredExternally (head : SignedTreeHead) : ExternalAnchor where
  digest := anchorDigest head.canonical
  payload := anchorPayload head.canonical

/-- Whether a reply is a time-stamp response for `digest`: a sequence that starts
with a sequence, with the digest in an octet string at one of the offsets at which 34
bytes are left. -/
def verifyTimestampResponse (der : List UInt8) (digest : Hash) : Option (Except String Unit) := do
  match ← derTlv der with
  | none => return .error "not a DER TimeStampResp (no top-level TLV)"
  | some top =>
    if top.tag ≠ 0x30 then
      return .error "not a DER TimeStampResp (top level is not a SEQUENCE)"
    match ← derTlv top.value with
    | none => return .error "not a DER TimeStampResp (missing PKIStatusInfo)"
    | some status =>
      if status.tag ≠ 0x30 then
        return .error "not a DER TimeStampResp (first element is not PKIStatusInfo)"
      let _ ← subslice top.value status.rawLen top.value.length
      if (List.range (der.length + 1 - 34)).any (octetsAt der (hashBytes digest)) then
        return .ok ()
      return .error "the response's messageImprint does not carry this head's digest"

/-- A sequence that starts with a sequence: what follows in it behind that one, and what
follows behind the whole. -/
def Framed (der rest trailing : List UInt8) : Prop :=
  ∃ status statusContent element, IsElement 4 0x30 (status ++ rest) element ∧
    IsElement 4 0x30 statusContent status ∧ der = element ++ trailing

theorem verifyTimestampResponse_of_framed {der rest trailing : List UInt8}
    (h : Framed der rest trailing) (digest : Hash) :
    verifyTimestampResponse der digest = some
      (if (List.range (der.length + 1 - 34)).any (octetsAt der (hashBytes digest)) then .ok ()
      else .error "the response's messageImprint does not carry this head's digest") := by
  obtain ⟨status, statusContent, element, helement, hstatus, rfl⟩ := h
  have hrest : subslice (status ++ rest) status.length (status ++ rest).length = some rest := by
    rw [subslice_of_le _ (by simp) le_rfl]
    simp
  rw [verifyTimestampResponse, derTlv_of_isElement helement]
  simp only [Option.bind_eq_bind, Option.bind_some, derTlv_of_isElement hstatus, hrest, ne_eq,
    not_true_eq_false, if_false]
  split <;> rfl

/-- A response that is not framed is refused. -/
theorem verifyTimestampResponse_cases (der : List UInt8) (digest : Hash) :
    (∃ e, verifyTimestampResponse der digest = some (.error e)) ∨
      ∃ rest trailing, Framed der rest trailing := by
  rcases derTlv_cases der with hnone | ⟨tag, content, element, trailing, helement, rfl⟩
  · exact .inl ⟨_, by rw [verifyTimestampResponse, hnone]; rfl⟩
  rw [verifyTimestampResponse, derTlv_of_isElement helement]
  by_cases htag : tag = 0x30
  · rcases derTlv_cases content with hnone | ⟨tag', status, front, rest, hstatus, rfl⟩
    · exact .inl ⟨_, by simp [htag, hnone]; rfl⟩
    · by_cases htag' : tag' = 0x30
      · exact .inr ⟨rest, trailing, front, status, element, htag ▸ helement, htag' ▸ hstatus, rfl⟩
      · exact .inl ⟨_, by simp [htag, htag', derTlv_of_isElement hstatus]; rfl⟩
  · exact .inl ⟨_, by simp [htag]; rfl⟩

/-- A response is accepted if it is framed and has the digest somewhere. -/
theorem verifyTimestampResponse_eq_ok_iff (der : List UInt8) {digest : Hash}
    (hlength : (hashBytes digest).length = 32) :
    verifyTimestampResponse der digest = some (.ok ()) ↔
      (∃ rest trailing, Framed der rest trailing) ∧
        octetString (hashBytes digest) <:+: der := by
  rw [← any_octetsAt_iff hlength]
  constructor
  · intro hok
    rcases verifyTimestampResponse_cases der digest with ⟨e, herror⟩ | ⟨rest, trailing, hframed⟩
    · simp [herror] at hok
    · refine ⟨⟨rest, trailing, hframed⟩, ?_⟩
      rw [verifyTimestampResponse_of_framed hframed] at hok
      by_contra hnot
      rw [if_neg hnot] at hok
      simp at hok
  · rintro ⟨⟨rest, trailing, hframed⟩, hany⟩
    rw [verifyTimestampResponse_of_framed hframed, if_pos hany]

/-- Whatever the bytes, the check returns. -/
theorem verifyTimestampResponse_ne_none (der : List UInt8) (digest : Hash) :
    verifyTimestampResponse der digest ≠ none := by
  rcases verifyTimestampResponse_cases der digest with ⟨e, herror⟩ | ⟨rest, trailing, hframed⟩
  · simp [herror]
  · simp [verifyTimestampResponse_of_framed hframed]

namespace TsaRecord

/-- The back-off of a degraded anchor. -/
def retryAfterSecs : ℤ :=
  60

def degraded (digest : Hash) (tsaUrl : String) (now : Timestamp) : Option TsaRecord := do
  let retrySecs ← I64.add (timestampSecs now) retryAfterSecs
  return {
    treeSize := 0
    digest
    status := "unreachable"
    tsaUrl
    response := none
    submittedAt := now
    retryAt := some (timestampFromSecs retrySecs) }

end TsaRecord

/-- The outcome of a submission at `now`, by what the exchange returned. -/
def submitAnchor (anchor : ExternalAnchor) (tsaUrl : String) (now : Timestamp)
    (reply : Except String (List UInt8)) : Option TsaRecord :=
  match reply with
  | .error _ => TsaRecord.degraded anchor.digest tsaUrl now
  | .ok response => do
    match ← verifyTimestampResponse response anchor.digest with
    | .error _ => TsaRecord.degraded anchor.digest tsaUrl now
    | .ok () =>
      return {
        treeSize := 0
        digest := anchor.digest
        status := "anchored"
        tsaUrl
        response := some response
        submittedAt := now
        retryAt := none }

/-! ## What is recorded -/

theorem TsaRecord.of_degraded {digest : Hash} {tsaUrl : String} {now : Timestamp}
    {record : TsaRecord} (h : TsaRecord.degraded digest tsaUrl now = some record) :
    record.digest = digest ∧ record.status = "unreachable" := by
  simp only [TsaRecord.degraded, Option.bind_eq_bind, Option.bind_eq_some_iff] at h
  obtain ⟨retrySecs, -, heq⟩ := h
  obtain rfl := Option.some.inj heq
  exact ⟨rfl, rfl⟩

/-- A degraded record is made unless its back-off leaves the range of the clock. -/
theorem TsaRecord.exists_degraded (digest : Hash) (tsaUrl : String) (now : Timestamp)
    (hlow : -2 ^ 63 ≤ timestampSecs now + retryAfterSecs)
    (hhigh : timestampSecs now + retryAfterSecs < 2 ^ 63) :
    ∃ record, TsaRecord.degraded digest tsaUrl now = some record := by
  rw [TsaRecord.degraded, I64.add, if_pos ⟨hlow, hhigh⟩]
  exact ⟨_, rfl⟩

/-- An accepted response is kept as it is. -/
theorem submitAnchor_of_accepted {anchor : ExternalAnchor} {response : List UInt8}
    (h : verifyTimestampResponse response anchor.digest = some (.ok ())) (tsaUrl : String)
    (now : Timestamp) :
    submitAnchor anchor tsaUrl now (.ok response) = some
      { treeSize := 0, digest := anchor.digest, status := "anchored", tsaUrl
        response := some response, submittedAt := now, retryAt := none } := by
  rw [submitAnchor, h]
  rfl

/-- A submission records the anchor's digest, and is anchored by an accepted
response only. -/
theorem of_submitAnchor {anchor : ExternalAnchor} {tsaUrl : String} {now : Timestamp}
    {reply : Except String (List UInt8)} {record : TsaRecord}
    (h : submitAnchor anchor tsaUrl now reply = some record) :
    record.digest = anchor.digest ∧
      (record.status = "anchored" → ∃ response, reply = .ok response ∧
        record.response = some response ∧
          verifyTimestampResponse response anchor.digest = some (.ok ())) := by
  cases reply with
  | error e =>
      obtain ⟨hdigest, hstatus⟩ := TsaRecord.of_degraded h
      exact ⟨hdigest, fun hanchored => by simp [hstatus] at hanchored⟩
  | ok response =>
      obtain ⟨result, hverify, h⟩ := Option.bind_eq_some_iff.mp h
      cases result with
      | error e =>
          obtain ⟨hdigest, hstatus⟩ := TsaRecord.of_degraded h
          exact ⟨hdigest, fun hanchored => by simp [hstatus] at hanchored⟩
      | ok _ =>
          obtain rfl := Option.some.inj h
          exact ⟨rfl, fun _ => ⟨response, rfl, rfl, hverify⟩⟩

end UnidppLog
