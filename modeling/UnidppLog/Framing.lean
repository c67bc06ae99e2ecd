/-
# Elements that are read back

What the reader of DER elements makes of any bytes and of an encoded element with
anything behind it, at every length that four octets hold; and the responses that are
accepted because of it.
-/

import UnidppLog.Sample.Service

namespace UnidppLog

open Asn1 (LengthOctets IsElement element lengthOctets isElement)

/-- The element that is read is in front of the bytes: its tag, octets for its length, and
its value, with nothing left out and nothing besides. -/
def Tlv.InFrontOf (tlv : Tlv) (bytes : List UInt8) : Prop :=
  tlv.rawLen ≤ bytes.length ∧ ∃ octets, LengthOctets 4 tlv.value.length octets ∧
    bytes.take tlv.rawLen = tlv.tag :: (octets ++ tlv.value)

/-- Reading does not panic, and does not read over the end. -/
theorem derTlv_inFrontOf (bytes : List UInt8) :
    ∃ found, derTlv bytes = some found ∧ ∀ tlv, found = some tlv → tlv.InFrontOf bytes := by
  rcases derTlv_cases bytes with hnone | ⟨tag, content, whole, rest, hwhole, rfl⟩
  · exact ⟨none, hnone, by simp⟩
  · refine ⟨_, derTlv_of_isElement hwhole rest, fun tlv htlv => ?_⟩
    obtain rfl := Option.some.inj htlv
    obtain ⟨octets, hoctets, rfl⟩ := hwhole
    exact ⟨by simp, octets, hoctets, List.take_left⟩

theorem isElement_of_lt (tag : UInt8) {content : List UInt8} (hlength : content.length < 2 ^ 32) :
    IsElement 4 tag content (element tag content) :=
  isElement (by decide) tag hlength

/-- A header takes six bytes at most. -/
theorem length_element_le (tag : UInt8) {content : List UInt8}
    (hlength : content.length < 2 ^ 32) :
    (element tag content).length ≤ content.length + 6 := by
  obtain ⟨octets, hoctets, heq⟩ := isElement_of_lt tag hlength
  have hcount := hoctets.length_le
  rw [heq, List.length_cons, List.length_append]
  omega

theorem suffix_element (tag : UInt8) (content : List UInt8) : content <:+ element tag content := by
  rw [element, ← List.cons_append]
  exact List.suffix_append _ _

/-- A response is framed by its sequence and that of its status. -/
theorem framed_response {status token : List UInt8}
    (hlength : (element 0x30 status ++ token).length < 2 ^ 32) :
    Framed (element 0x30 (element 0x30 status ++ token)) token [] := by
  have hstatus : status.length < 2 ^ 32 := by
    have hle := (suffix_element 0x30 status).length_le
    rw [List.length_append] at hlength
    omega
  exact ⟨_, status, _, isElement_of_lt 0x30 hlength, isElement_of_lt 0x30 hstatus,
    (List.append_nil _).symm⟩

section

variable [Unidpp] [ExternalAnchoring]

open Unidpp ExternalAnchoring

/-- Reading returns nothing or what is in front of the bytes. It reads back every element of
a content below `2 ^ 32` bytes, encoded with the fewest octets for its length; and so a
response of a status and a token is accepted for the digest that its token carries. -/
theorem derTlv_inverts (hhash : ∀ digest : Hash, (hashBytes digest).length = 32) :
    (∀ bytes, ∃ found, derTlv bytes = some found ∧
      ∀ tlv, found = some tlv → tlv.InFrontOf bytes) ∧
    (∀ (tag : UInt8) (content tail : List UInt8), content.length < 2 ^ 32 →
      derTlv (element tag content ++ tail) =
        some (some { tag, value := content, rawLen := (element tag content).length }) ∧
      LengthOctets 4 content.length (lengthOctets content.length) ∧
      ∀ octets, LengthOctets 4 content.length octets →
        (lengthOctets content.length).length ≤ octets.length) ∧
    ∀ (status token : List UInt8) (digest : Hash),
      (element 0x30 status ++ element 0x30 token).length < 2 ^ 32 →
      octetString (hashBytes digest) <:+: element 0x30 token →
        verifyTimestampResponse (element 0x30 (element 0x30 status ++ element 0x30 token)) digest =
          some (.ok ()) := by
  refine ⟨derTlv_inFrontOf, fun tag content tail hlength => ?_,
    fun status token digest hlength hcarries => ?_⟩
  · exact ⟨derTlv_of_isElement (isElement_of_lt tag hlength) tail,
      Asn1.isLengthOctets (by decide) hlength, fun _ hoctets => hoctets.length_lengthOctets_le⟩
  · rw [verifyTimestampResponse_eq_ok_iff _ (hhash digest)]
    refine ⟨⟨_, _, framed_response hlength⟩, hcarries.trans ?_⟩
    exact ((List.suffix_append _ _).trans (suffix_element _ _)).isInfix

end

namespace Sample

/-- The digest, and so many more bytes that the lengths take the long form. -/
def longToken (digest : Hash) : List UInt8 :=
  octetString digest.val ++ List.replicate 300 0x41

theorem length_longToken (digest : Hash) : (longToken digest).length = 334 := by
  rw [longToken, List.length_append, List.length_replicate, octetString, List.length_cons,
    List.length_cons, digest.property]

/-- A granted status and the long token. -/
theorem longReply_accepted :
    derTlv (element 0x30 (longToken sevens)) =
        some (some ⟨0x30, longToken sevens, (element 0x30 (longToken sevens)).length⟩) ∧
      verifyTimestampResponse
        (element 0x30 (element 0x30 [2, 1, 0] ++ element 0x30 (longToken sevens))) sevens =
          some (.ok ()) := by
  obtain ⟨-, hread, haccepted⟩ := derTlv_inverts fun digest : Hash => digest.property
  have hlong := length_longToken sevens
  have htoken := length_element_le 0x30 (show (longToken sevens).length < 2 ^ 32 by omega)
  have hstatus := length_element_le 0x30 (show ([2, 1, 0] : List UInt8).length < 2 ^ 32 by decide)
  constructor
  · have hwhole := (hread 0x30 (longToken sevens) [] (by omega)).1
    rwa [List.append_nil] at hwhole
  · refine haccepted [2, 1, 0] (longToken sevens) sevens ?_ ?_
    · rw [List.length_append]
      simp only [List.length_cons, List.length_nil] at hstatus
      omega
    · exact (List.prefix_append _ _).isInfix.trans (suffix_element _ _).isInfix

end Sample

end UnidppLog
