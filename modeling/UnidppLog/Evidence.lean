/-
# The stored response

`GET /tree/head` shows the response of the time-stamp authority in base 64. The text is
the encoding of the standard, the test suite's decoder gets the bytes back, and these are
the bytes that arrived and were checked.
-/

import UnidppLog.Anchors
import UnidppLog.Rfc4648.Base64

namespace UnidppLog

open Json (Value)
open Rfc4648 (Encodes symbol pads)

/-- Bits that the first number leaves free. -/
theorem or_eq_add {a b i : ℕ} (ha : 2 ^ i ∣ a) (hb : b < 2 ^ i) : a ||| b = a + b := by
  obtain ⟨q, rfl⟩ := ha
  exact (Nat.two_pow_add_eq_or_of_lt hb q).symm

theorem sextet_eq (n : ℕ) : sextet n = symbol (n % 64) := by
  rw [sextet, symbol, show n &&& 63 = n % 64 from Nat.and_two_pow_sub_one_eq_mod n 6]
  rfl

/-- The sextets of three bytes. -/
theorem sextets_eq (a b c : UInt8) {triple : ℕ}
    (htriple : a.toNat <<< 16 ||| b.toNat <<< 8 ||| c.toNat = triple) :
    sextet (triple >>> 18) = symbol (a.toNat / 4) ∧
      sextet (triple >>> 12) = symbol (a.toNat % 4 * 16 + b.toNat / 16) ∧
      sextet (triple >>> 6) = symbol (b.toNat % 16 * 4 + c.toNat / 64) ∧
      sextet triple = symbol (c.toNat % 64) := by
  have ha := a.toNat_lt
  have hb := b.toNat_lt
  have hc := c.toNat_lt
  have hfront : a.toNat <<< 16 ||| b.toNat <<< 8 = a.toNat * 65536 + b.toNat * 256 := by
    rw [Nat.shiftLeft_eq, Nat.shiftLeft_eq]
    exact or_eq_add (Nat.dvd_mul_left _ _) (by omega)
  have hsum : triple = a.toNat * 65536 + b.toNat * 256 + c.toNat := by
    rw [← htriple, hfront]
    exact or_eq_add (show 2 ^ 8 ∣ _ by omega) (by omega)
  simp only [sextet_eq, Nat.shiftRight_eq_div_pow, hsum]
  refine ⟨congrArg symbol ?_, congrArg symbol ?_, congrArg symbol ?_, congrArg symbol ?_⟩ <;> omega

/-- The chunks are written as the standard has it. -/
theorem encodes_chunks : ∀ bytes : List UInt8, Encodes bytes ((chunks bytes).flatMap quad)
  | [] => .nil
  | [a] => by
      obtain ⟨h₀, h₁, -, -⟩ := sextets_eq a 0 0 rfl
      have hquad : quad [a] = [symbol (a.toNat / 4), symbol (a.toNat % 4 * 16), '=', '='] := by
        rw [← h₀, show symbol (a.toNat % 4 * 16) = _ from h₁.symm]
        rfl
      rw [show (chunks [a]).flatMap quad = quad [a] from rfl, hquad]
      exact .one a
  | [a, b] => by
      obtain ⟨h₀, h₁, h₂, -⟩ := sextets_eq a b 0 rfl
      have hquad : quad [a, b] = [symbol (a.toNat / 4),
          symbol (a.toNat % 4 * 16 + b.toNat / 16), symbol (b.toNat % 16 * 4), '='] := by
        rw [← h₀, ← h₁, show symbol (b.toNat % 16 * 4) = _ from h₂.symm]
        rfl
      rw [show (chunks [a, b]).flatMap quad = quad [a, b] from rfl, hquad]
      exact .two a b
  | a :: b :: c :: rest => by
      obtain ⟨h₀, h₁, h₂, h₃⟩ := sextets_eq a b c rfl
      have hquad : quad [a, b, c] = [symbol (a.toNat / 4),
          symbol (a.toNat % 4 * 16 + b.toNat / 16), symbol (b.toNat % 16 * 4 + c.toNat / 64),
          symbol (c.toNat % 64)] := by
        rw [← h₀, ← h₁, ← h₂, ← h₃]
        rfl
      rw [chunks, List.flatMap_cons, hquad]
      exact .three a b c (encodes_chunks rest)

theorem encodes_base64 (bytes : List UInt8) : Encodes bytes (base64 bytes).toList := by
  rw [base64, String.toList_ofList]
  exact encodes_chunks bytes

/-- The sextet of a symbol; the decoder panics on every other byte. -/
def base64Value (byte : UInt8) : Option ℕ :=
  if 'A'.toUInt8 ≤ byte ∧ byte ≤ 'Z'.toUInt8 then some (byte - 'A'.toUInt8).toNat
  else if 'a'.toUInt8 ≤ byte ∧ byte ≤ 'z'.toUInt8 then some (byte - 'a'.toUInt8 + 26).toNat
  else if '0'.toUInt8 ≤ byte ∧ byte ≤ '9'.toUInt8 then some (byte - '0'.toUInt8 + 52).toNat
  else if byte = '+'.toUInt8 then some 62
  else if byte = '/'.toUInt8 then some 63
  else none

/-- `u8::is_ascii_whitespace`. -/
def isAsciiWhitespace (byte : UInt8) : Bool :=
  byte ∈ [0x09, 0x0a, 0x0c, 0x0d, 0x20]

/-- `chunks(4)`. -/
def quartets : List UInt8 → List (List UInt8)
  | [] => []
  | b₀ :: b₁ :: b₂ :: b₃ :: rest => [b₀, b₁, b₂, b₃] :: quartets rest
  | bytes => [bytes]

/-- The bytes of a chunk of one to four symbols. -/
def decodeQuartet (chunk : List UInt8) : Option (List UInt8) := do
  let acc ← chunk.zipIdx.foldlM (fun acc (byte, i) => do
    let value ← base64Value byte
    return acc ||| value <<< (18 - 6 * i)) 0
  return (List.range (chunk.length - 1)).map fun i =>
    UInt8.ofNat ((acc >>> (16 - 8 * i)) &&& 0xff)

/-- The decoder of the test suite. -/
def base64Decode (text : String) : Option (List UInt8) := do
  let bytes := (Text.encode text.toList).filter fun b => !isAsciiWhitespace b && b ≠ '='.toUInt8
  let decoded ← (quartets bytes).mapM decodeQuartet
  return decoded.flatten

/-- The byte of a symbol. -/
def symbolByte (n : ℕ) : UInt8 :=
  (symbol n).toUInt8

theorem symbolByte_spec {n : ℕ} (hn : n < 64) :
    base64Value (symbolByte n) = some n ∧ isAsciiWhitespace (symbolByte n) = false ∧
      symbolByte n ≠ '='.toUInt8 ∧ String.utf8EncodeChar (symbol n) = [symbolByte n] := by
  revert n
  decide

/-- The bytes of a text that the decoder looks at. -/
def significant (text : List Char) : List UInt8 :=
  (Text.encode text).filter fun b => !isAsciiWhitespace b && b ≠ '='.toUInt8

theorem significant_symbol {n : ℕ} (hn : n < 64) (text : List Char) :
    significant (symbol n :: text) = symbolByte n :: significant text := by
  obtain ⟨-, hblank, hpad, hencode⟩ := symbolByte_spec hn
  rw [significant, Text.encode_cons, hencode, List.singleton_append, List.filter_cons,
    if_pos (by simp [hblank, hpad])]
  rfl

theorem significant_pad (text : List Char) : significant ('=' :: text) = significant text := by
  rw [significant, Text.encode_cons, show String.utf8EncodeChar '=' = ['='.toUInt8] by decide,
    List.singleton_append, List.filter_cons, if_neg (by decide)]
  rfl

/-- The number that sextets make, the first of them at index `i` of its chunk. -/
def packed (i : ℕ) : List ℕ → ℕ
  | [] => 0
  | value :: rest => value * 2 ^ (18 - 6 * i) + packed (i + 1) rest

/-- The symbols of a chunk are put together without a carry. -/
theorem foldlM_symbols {values : List ℕ} (hvalues : ∀ value ∈ values, value < 64) {i acc : ℕ}
    (hroom : i + values.length ≤ 4) (hacc : 2 ^ (24 - 6 * i) ∣ acc) :
    ((values.map symbolByte).zipIdx i).foldlM (fun acc (byte, i) => do
      let value ← base64Value byte
      return acc ||| value <<< (18 - 6 * i)) acc = some (acc + packed i values) := by
  induction values generalizing i acc with
  | nil => simp [packed]
  | cons value rest ih =>
      rw [List.length_cons] at hroom
      have hvalue := hvalues value List.mem_cons_self
      have hbits : 24 - 6 * i = 18 - 6 * i + 6 := by omega
      have hlow : value * 2 ^ (18 - 6 * i) < 2 ^ (24 - 6 * i) := by
        rw [hbits, pow_add, mul_comm]
        exact Nat.mul_lt_mul_of_pos_left hvalue (Nat.two_pow_pos _)
      have hput : acc ||| value <<< (18 - 6 * i) = acc + value * 2 ^ (18 - 6 * i) := by
        rw [Nat.shiftLeft_eq]
        exact or_eq_add hacc hlow
      have hnext : 2 ^ (24 - 6 * (i + 1)) ∣ acc + value * 2 ^ (18 - 6 * i) := by
        rw [show 24 - 6 * (i + 1) = 18 - 6 * i by omega]
        exact dvd_add ((pow_dvd_pow 2 (by omega)).trans hacc) (Nat.dvd_mul_left _ _)
      have hrest := ih (fun v hv => hvalues v (List.mem_cons_of_mem value hv)) (by omega) hnext
      rw [List.map_cons, List.zipIdx_cons, List.foldlM_cons]
      simp only [(symbolByte_spec hvalue).1, Option.bind_eq_bind, Option.bind_some,
        Option.pure_def, hput] at hrest ⊢
      rw [hrest, packed, add_assoc]

/-- A chunk decodes to the bytes of the number that its sextets make, one byte less than
there are symbols. -/
theorem decodeQuartet_symbols (values : List ℕ) (bytes : List UInt8)
    (hvalues : ∀ value ∈ values, value < 64) (hcount : values.length = bytes.length + 1)
    (hroom : values.length ≤ 4)
    (hbytes : (List.range bytes.length).map (fun i => packed 0 values / 2 ^ (16 - 8 * i) % 256) =
      bytes.map UInt8.toNat) :
    decodeQuartet (values.map symbolByte) = some bytes := by
  have hcut : ∀ n, n &&& 0xff = n % 256 := fun n => Nat.and_two_pow_sub_one_eq_mod n 8
  have hlist := congrArg (List.map UInt8.ofNat) hbytes
  simp only [List.map_map, Function.comp_def, UInt8.ofNat_toNat, List.map_id'] at hlist
  rw [decodeQuartet, foldlM_symbols hvalues (by omega) (dvd_zero _), List.length_map, hcount,
    Nat.add_sub_cancel]
  simp only [hcut, Nat.shiftRight_eq_div_pow, Option.bind_eq_bind, Option.bind_some, zero_add,
    hlist, Option.pure_def]

theorem decodeQuartet_one (a : UInt8) :
    decodeQuartet [symbolByte (a.toNat / 4), symbolByte (a.toNat % 4 * 16)] = some [a] := by
  have ha := a.toNat_lt
  refine decodeQuartet_symbols [a.toNat / 4, a.toNat % 4 * 16] [a] ?_ rfl (by simp) ?_
  · simp only [List.forall_mem_cons]
    exact ⟨by omega, by omega, by simp⟩
  · simp only [packed, List.length_singleton, List.range_one, List.map_singleton,
      List.singleton_inj]
    omega

theorem decodeQuartet_two (a b : UInt8) :
    decodeQuartet [symbolByte (a.toNat / 4), symbolByte (a.toNat % 4 * 16 + b.toNat / 16),
      symbolByte (b.toNat % 16 * 4)] = some [a, b] := by
  have ha := a.toNat_lt
  have hb := b.toNat_lt
  refine decodeQuartet_symbols [a.toNat / 4, a.toNat % 4 * 16 + b.toNat / 16, b.toNat % 16 * 4]
    [a, b] ?_ rfl (by simp) ?_
  · simp only [List.forall_mem_cons]
    exact ⟨by omega, by omega, by omega, by simp⟩
  · simp only [packed, List.length_cons, List.length_nil, List.range_succ, List.range_zero,
      List.nil_append, List.cons_append, List.map_cons, List.map_nil, List.cons.injEq, and_true]
    omega

theorem decodeQuartet_three (a b c : UInt8) :
    decodeQuartet [symbolByte (a.toNat / 4), symbolByte (a.toNat % 4 * 16 + b.toNat / 16),
      symbolByte (b.toNat % 16 * 4 + c.toNat / 64), symbolByte (c.toNat % 64)] =
        some [a, b, c] := by
  have ha := a.toNat_lt
  have hb := b.toNat_lt
  have hc := c.toNat_lt
  refine decodeQuartet_symbols [a.toNat / 4, a.toNat % 4 * 16 + b.toNat / 16,
    b.toNat % 16 * 4 + c.toNat / 64, c.toNat % 64] [a, b, c] ?_ rfl (by simp) ?_
  · simp only [List.forall_mem_cons]
    exact ⟨by omega, by omega, by omega, by omega, by simp⟩
  · simp only [packed, List.length_cons, List.length_nil, List.range_succ, List.range_zero,
      List.nil_append, List.cons_append, List.map_cons, List.map_nil, List.cons.injEq, and_true]
    omega

/-- The decoder gets back what was encoded. -/
theorem decode_of_encodes {bytes : List UInt8} {text : List Char} (h : Encodes bytes text) :
    ∃ decoded, (quartets (significant text)).mapM decodeQuartet = some decoded ∧
      decoded.flatten = bytes := by
  induction h with
  | nil => exact ⟨[], rfl, rfl⟩
  | one a =>
      have ha := a.toNat_lt
      refine ⟨[[a]], ?_, rfl⟩
      rw [significant_symbol (by omega), significant_symbol (by omega), significant_pad,
        significant_pad]
      simp [significant, quartets, decodeQuartet_one]
  | two a b =>
      have ha := a.toNat_lt
      have hb := b.toNat_lt
      refine ⟨[[a, b]], ?_, rfl⟩
      rw [significant_symbol (by omega), significant_symbol (by omega),
        significant_symbol (by omega), significant_pad]
      simp [significant, quartets, decodeQuartet_two]
  | three a b c _ ih =>
      obtain ⟨decoded, hdecoded, rfl⟩ := ih
      have ha := a.toNat_lt
      have hb := b.toNat_lt
      have hc := c.toNat_lt
      refine ⟨[a, b, c] :: decoded, ?_, rfl⟩
      rw [significant_symbol (by omega), significant_symbol (by omega),
        significant_symbol (by omega), significant_symbol (by omega), quartets, List.mapM_cons,
        decodeQuartet_three, hdecoded]
      rfl

theorem base64Decode_base64 (bytes : List UInt8) : base64Decode (base64 bytes) = some bytes := by
  obtain ⟨decoded, hdecoded, hflatten⟩ := decode_of_encodes (encodes_base64 bytes)
  rw [base64Decode, ← significant, hdecoded]
  exact congrArg some hflatten

section

variable [Unidpp]

open Unidpp

/-- A response that is shown is the text of the one in the record. -/
theorem exists_of_field_response {record : TsaRecord} {text : String}
    (h : record.toWire.field ["response"] = some (.string text)) :
    ∃ bytes, record.response = some bytes ∧ text = base64 bytes := by
  cases hresponse : record.response with
  | none => simp [TsaRecord.toWire, Value.field_ofFields, Json.lookup_cons, hresponse] at h
  | some bytes =>
      rw [field_toWire.2 bytes hresponse, Option.some.injEq, Value.string.injEq] at h
      exact ⟨bytes, rfl, h.symm⟩

variable [ExternalAnchoring]

/-- A response is recorded as it arrived, after it was accepted. -/
theorem submitAnchor_response {anchor : ExternalAnchor} {tsaUrl : String} {now : Timestamp}
    {reply : Except String (List UInt8)} {record : TsaRecord} {bytes : List UInt8}
    (h : submitAnchor anchor tsaUrl now reply = some record)
    (hresponse : record.response = some bytes) :
    reply = .ok bytes ∧ record.digest = anchor.digest ∧
      verifyTimestampResponse bytes anchor.digest = some (.ok ()) := by
  have hdegraded : TsaRecord.degraded anchor.digest tsaUrl now ≠ some record := by
    intro hdegraded
    simp only [TsaRecord.degraded, Option.bind_eq_bind, Option.bind_eq_some_iff] at hdegraded
    obtain ⟨retrySecs, -, heq⟩ := hdegraded
    obtain rfl := Option.some.inj heq
    simp at hresponse
  cases reply with
  | error e => exact absurd h hdegraded
  | ok response =>
      obtain ⟨result, hverify, h⟩ := Option.bind_eq_some_iff.mp h
      cases result with
      | error e => exact absurd h hdegraded
      | ok _ =>
          obtain rfl := Option.some.inj h
          obtain rfl := Option.some.inj hresponse
          exact ⟨rfl, rfl, hverify⟩

variable [SerdeJson]

namespace System

variable {s s' : System} {config : Config} {journal : Option JournalFile} {service : Service}
  {actions : List Action}

/-- A response in the slot arrived for a head, and was accepted for the digest of that
head, which is the digest beside it. -/
def Kept (s : System) : Prop :=
  ∀ record bytes, s.service.tsa = some record → record.response = some bytes →
    ∃ head, (head, bytes) ∈ s.replies ∧ record.digest = head.anchoredExternally.digest ∧
      verifyTimestampResponse bytes record.digest = some (.ok ())

/-- A step records a response that has arrived and was accepted, or leaves the slot. -/
theorem Kept.step (h : s.Kept) (hsound : s.Sound) {action : Action}
    (hstep : s.step action = some s') : s'.Kept := by
  have hgrows := (hsound.step hstep).2
  intro stored bytes hstored hresponse
  have hold : s.service.tsa = some stored → ∃ head, (head, bytes) ∈ s'.replies ∧
      stored.digest = head.anchoredExternally.digest ∧
        verifyTimestampResponse bytes stored.digest = some (.ok ()) := by
    intro hbefore
    obtain ⟨head, hreply, hdigest, hverify⟩ := h stored bytes hbefore hresponse
    exact ⟨head, hgrows.replies.subset hreply, hdigest, hverify⟩
  cases steps_of_step hsound.valid hstep with
  | @recorded i now reply outcome head tsaUrl record hi hsubmit =>
      obtain rfl := Option.some.inj hstored
      obtain ⟨rfl, hdigest, hverify⟩ := submitAnchor_response hsubmit hresponse
      refine ⟨head, List.mem_append_right _ List.mem_cons_self, hdigest, ?_⟩
      rw [hdigest]
      exact hverify
  | _ => exact hold hstored

/-- The response in the slot is kept over every run. -/
theorem kept_of_run (hnew : Service.new config journal = some (.ok service))
    (hrun : (init service).run actions = some s) : s.Sound ∧ s.Kept := by
  refine Transition.run_invariant (I := fun t => t.Sound ∧ t.Kept) ?_ ⟨sound_init hnew, ?_⟩ hrun
  · rintro mid action next ⟨hsound, hkept⟩ hstep
    exact ⟨(hsound.step hstep).1, hkept.step hsound hstep⟩
  · intro record bytes hrecord
    obtain ⟨-, -, -, htsa⟩ := Service.exists_of_new hnew
    rw [show (init service).service.tsa = none from htsa] at hrecord
    simp at hrecord

end System

/-- The text of any bytes is theirs in the standard: four characters for every three bytes,
symbols and then the pads, and the decoder gets the bytes back. So the response that a
verifier decodes from `GET /tree/head`, in any run, is one that arrived for a head and was
accepted for its digest, which is the digest shown beside it. -/
theorem base64_faithful (hjson : SerdeJson.Conforms) :
    (∀ bytes : List UInt8,
      Encodes bytes (base64 bytes).toList ∧
      (base64 bytes).length = 4 * ((bytes.length + 2) / 3) ∧
      (∃ symbols, (base64 bytes).toList = symbols ++ List.replicate (pads bytes.length) '=' ∧
        ∀ c ∈ symbols, c ∈ Rfc4648.alphabet ∧ c ≠ '=') ∧
      base64Decode (base64 bytes) = some bytes) ∧
    ∀ (config : Config) (journal : Option JournalFile) (service : Service)
      (actions : List Action) (s s' : System) (i : ℕ) (head : Option SignedTreeHead)
      (response : Response), Service.new config journal = some (.ok service) →
      (System.init service).run actions = some s → s.step (.view i) = some s' →
      s'.handlers[i]? = some (.viewed head (some response)) →
        ∃ v, SerdeJson.fromStr response.body = .ok v ∧
          ∀ text, v.field ["external_anchor", "submission", "response"] = some (.string text) →
            ∃ bytes sth, base64Decode text = some bytes ∧ (sth, bytes) ∈ s.replies ∧
              v.field ["external_anchor", "digest"] =
                some (.string (hex sth.anchoredExternally.digest)) ∧
              verifyTimestampResponse bytes sth.anchoredExternally.digest = some (.ok ()) := by
  refine ⟨fun bytes => ?_, ?_⟩
  · have hencodes := encodes_base64 bytes
    refine ⟨hencodes, ?_, ?_, base64Decode_base64 bytes⟩
    · rw [← String.length_toList]
      exact hencodes.length_eq
    · obtain ⟨symbols, htext, hsymbols⟩ := hencodes.exists_symbols
      refine ⟨symbols, htext, fun c hc => ⟨hsymbols c hc, ?_⟩⟩
      rintro rfl
      exact Rfc4648.pad_not_mem (hsymbols _ hc)
  · intro config journal service actions s s' i head response hnew hrun hview hi
    obtain ⟨hsound, hkept⟩ := System.kept_of_run hnew hrun
    obtain ⟨-, hread⟩ := System.exists_of_view hjson hsound.valid hview hi
    refine ⟨_, hread, fun text htext => ?_⟩
    cases head with
    | none => simp [field_treeHeadJson_none] at htext
    | some sth =>
        rw [field_treeHeadJson_anchor] at htext ⊢
        obtain ⟨record, htsa, hsize, hdigest⟩ := exists_of_submission htext
        rw [htsa, field_submission hsize] at htext
        obtain ⟨bytes, hbytes, rfl⟩ := exists_of_field_response htext
        obtain ⟨minted, hreply, hdigest', hverify⟩ := hkept record bytes htsa hbytes
        refine ⟨bytes, minted, base64Decode_base64 bytes, hreply, ?_, ?_⟩
        · rw [hdigest, hdigest']
        · rwa [← hdigest']

end

/-- The anchored response of the first head, decoded. -/
theorem Sample.shown_response_decoded :
    base64Decode (base64 [0xff, 0xef, 0xff]) = some [0xff, 0xef, 0xff] ∧
    ∃ (head : SignedTreeHead) (response : Response) (v : Value) (text : String),
      SerdeJson.fromStr response.body = .ok v ∧
      v.field ["external_anchor", "submission", "response"] = some (.string text) ∧
      base64Decode text = some (reply head.anchoredExternally.digest) ∧
      verifyTimestampResponse (reply head.anchoredExternally.digest)
        head.anchoredExternally.digest = some (.ok ()) := by
  obtain ⟨hencoding, hserved⟩ := base64_faithful serdeJson_conforms
  refine ⟨(hencoding [0xff, 0xef, 0xff]).2.2.2, ?_⟩
  obtain ⟨s, s', head, sth, response, record, hrun, hview, hshown, hreplies, htsa, hsize, -,
    hresponse, hbody⟩ := exists_anchored_view
  obtain ⟨v, hv, hdecoded⟩ := hserved _ _ _ _ s s' 1 (some sth) response
    (new_service (some tsaUrl)) hrun hview hshown
  obtain rfl := Except.ok.inj (hv.symm.trans hbody)
  have htext : (treeHeadJson s.service.operator (some sth) s.service.tsa).field
      ["external_anchor", "submission", "response"] =
        some (.string (base64 (reply head.anchoredExternally.digest))) := by
    rw [field_treeHeadJson_anchor, htsa, field_submission hsize, field_toWire.2 _ hresponse]
  obtain ⟨bytes, kept, hdecode, hreply, -, hverify⟩ := hdecoded _ htext
  rw [hreplies, List.mem_singleton] at hreply
  obtain ⟨rfl, rfl⟩ := Prod.mk.inj hreply
  exact ⟨kept, response, _, _, hv, htext, hdecode, hverify⟩

end UnidppLog
