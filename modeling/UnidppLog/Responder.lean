/-
# The responder of the tests

An authority that grants whatever it is asked: it looks for an octet string of 32 bytes in
a query, and has it in its response. The service and this responder are run together here.
What the service records is said by the query alone, and so is what it shows.
-/

import UnidppLog.Anchors
import UnidppLog.Posting

namespace UnidppLog

open Json (Value)
open Text (First decodeLossy textLines encode)
open Unidpp

/-- What is behind the first blank line. -/
def splitHttpBody (raw : List UInt8) : Option (List UInt8) := do
  let start := (← findSubsequence raw terminator) + 4
  subslice raw start raw.length

/-- The first octet string of 32 bytes. -/
def findOctetString32 (bytes : List UInt8) : Option (List UInt8) :=
  ((List.range (bytes.length + 1 - 34)).find? fun offset =>
    bytes[offset]? = some 0x04 ∧ bytes[offset + 1]? = some 0x20).map fun offset =>
      (bytes.drop (offset + 2)).take 32

/-- A sequence, its length in a single byte. -/
def derSeq (children : List (List UInt8)) : List UInt8 :=
  0x30 :: UInt8.ofNat children.flatten.length :: children.flatten

def derOctets (bytes : List UInt8) : List UInt8 :=
  0x04 :: UInt8.ofNat bytes.length :: bytes

/-- A response of a granted status, with a token if a digest was found. -/
def timeStampResp (digest : Option (List UInt8)) : List UInt8 :=
  match digest with
  | some digest => derSeq [derSeq [[0x02, 0x01, 0x00]], derSeq [derOctets digest]]
  | none => derSeq [derSeq [[0x02, 0x01, 0x00]]]

/-- The headers of a reply. -/
def replyHeader (length : ℕ) : List Char :=
  "HTTP/1.1 200 OK\r\nContent-Type: application/timestamp-reply\r\nContent-Length: ".toList ++
    Nat.toDigits 10 length ++ "\r\nConnection: close".toList

/-- What is written to a connection before it is closed, by what was read from it. -/
def mockTsa (request : List UInt8) : List UInt8 :=
  match splitHttpBody request with
  | none => []
  | some body =>
    let response := timeStampResp (findOctetString32 body)
    encode (replyHeader response.length) ++ terminator ++ response

/-- A network with the responder at every address. -/
def mockNetwork : Network :=
  fun _ _ request => .closed (mockTsa request)

theorem length_of_findOctetString32 {bytes digest : List UInt8}
    (h : findOctetString32 bytes = some digest) : digest.length = 32 := by
  obtain ⟨offset, hfind, rfl⟩ := Option.map_eq_some_iff.mp h
  have hmem := List.mem_of_find?_eq_some hfind
  rw [List.mem_range] at hmem
  rw [List.length_take, List.length_drop]
  omega

/-- The octet string of 32 bytes that no other is in front of is found. -/
theorem findOctetString32_of_first {front content : List UInt8} (hlength : content.length = 32)
    (hfirst : First [0x04, 0x20] front) (back : List UInt8) :
    findOctetString32 (front ++ octetString content ++ back) = some content := by
  have hwhole : front ++ octetString content ++ back =
      front ++ [0x04, 0x20] ++ (content ++ back) := by simp [octetString]
  have hprefix : ∀ (bytes : List UInt8) (offset : ℕ),
      (bytes[offset]? = some 0x04 ∧ bytes[offset + 1]? = some 0x20) ↔
        [0x04, 0x20] <+: bytes.drop offset := by
    intro bytes offset
    have hhead : bytes[offset]? = (bytes.drop offset)[0]? := by simp
    have hnext : bytes[offset + 1]? = (bytes.drop offset)[1]? := by simp
    rw [hhead, hnext]
    rcases bytes.drop offset with - | ⟨a, - | ⟨b, tail⟩⟩
    · simp
    · simp
    · simp [List.cons_prefix_cons, eq_comm]
  have hfind : ((List.range ((front ++ octetString content ++ back).length + 1 - 34)).find?
      fun offset => (front ++ octetString content ++ back)[offset]? = some 0x04 ∧
        (front ++ octetString content ++ back)[offset + 1]? = some 0x20) = some front.length := by
    rw [List.find?_range_eq_some]
    simp only [decide_eq_true_eq, hprefix, Bool.not_eq_true', decide_eq_false_iff_not, hwhole]
    refine ⟨First.prefix_drop _ front _, ?_, fun j hj => hfirst.not_prefix_drop _ hj⟩
    simp only [List.mem_range, List.length_append, List.length_cons, List.length_nil, hlength]
    omega
  rw [findOctetString32, hfind, Option.map_some]
  simp [octetString, hlength]

/-- What is behind the blank line is read whole. -/
theorem FramesRequest.splitHttpBody {request body : List UInt8} {lines : List (List Char)}
    (h : FramesRequest request lines body) : splitHttpBody request = some body := by
  have hend : (encode (Text.block lines)).length + 4 =
      (encode (Text.block lines) ++ terminator).length := by simp [terminator, crlf]
  have hrest := subslice_drop (show (encode (Text.block lines) ++ terminator).length ≤
    (encode (Text.block lines) ++ terminator ++ body).length by simp)
  rw [h.whole, UnidppLog.splitHttpBody, findSubsequence_of_first (by decide) h.first,
    Option.bind_eq_bind, Option.bind_some]
  dsimp only
  rw [hend, hrest, List.drop_left]

theorem length_timeStampResp {digest : Option (List UInt8)}
    (hlength : ∀ bytes, digest = some bytes → bytes.length = 32) :
    (timeStampResp digest).length = 43 ∨ (timeStampResp digest).length = 7 := by
  cases digest with
  | none => exact .inr rfl
  | some bytes => exact .inl (by simp [timeStampResp, derSeq, derOctets, hlength bytes rfl])

theorem accepted_replyHeader {n : ℕ} (hn : n = 43 ∨ n = 7) :
    Accepted (encode (replyHeader n)) where
  first := by
    rw [First]
    rcases hn with rfl | rfl
    · decide +kernel
    · decide +kernel
  status := by
    rw [Text.decodeLossy_encode]
    rcases hn with rfl | rfl
    · decide +kernel
    · decide +kernel

theorem isChunked_replyHeader {n : ℕ} (hn : n = 43 ∨ n = 7) :
    isChunked (decodeLossy (encode (replyHeader n))) = false := by
  rw [Text.decodeLossy_encode]
  rcases hn with rfl | rfl
  · decide +kernel
  · decide +kernel

theorem contentLength_replyHeader {n : ℕ} (hn : n = 43 ∨ n = 7) :
    contentLength (decodeLossy (encode (replyHeader n))) = some n := by
  rw [Text.decodeLossy_encode]
  rcases hn with rfl | rfl
  · decide +kernel
  · decide +kernel

theorem decodeReply_replyHeader {response : List UInt8}
    (hlength : response.length = 43 ∨ response.length = 7) :
    decodeReply (encode (replyHeader response.length) ++ terminator ++ response) =
      some (.ok response) := by
  have hheader : (encode (replyHeader response.length)).length < 128 := by
    rcases hlength with hlength | hlength
    · rw [hlength]
      decide +kernel
    · rw [hlength]
      decide +kernel
  have hterminator : terminator.length = 4 := rfl
  rw [decodeReply_of_header (accepted_replyHeader hlength).first _
    (by simp only [List.length_append]; omega), (accepted_replyHeader hlength).status,
    isChunked_replyHeader hlength, contentLength_replyHeader hlength]
  simp

/-- What is posted to the responder comes back as its response to what is in the body. -/
theorem httpPostBinary_mockNetwork {endpoint : Endpoint} {url : String} {contentType : List Char}
    (hled : endpoint.LedToBy url) (hreturn : '\r' ∉ url.toList ∧ '\r' ∉ contentType)
    (hfeed : '\n' ∉ url.toList ∧ '\n' ∉ contentType) (body : List UInt8) :
    httpPostBinary mockNetwork url contentType body =
      some (.ok (timeStampResp (findOctetString32 body))) := by
  have hbody := (hled.framesRequest hreturn hfeed body).splitHttpBody
  have hlength : (timeStampResp (findOctetString32 body)).length = 43 ∨
      (timeStampResp (findOctetString32 body)).length = 7 :=
    length_timeStampResp fun _ => length_of_findOctetString32
  rw [hled.httpPostBinary_eq, mockNetwork, Connection.reply, mockTsa, hbody]
  exact decodeReply_replyHeader hlength

theorem timeStampResp_some {digest : List UInt8} (hlength : digest.length = 32) :
    timeStampResp (some digest) =
      [0x30, 41, 0x30, 3, 2, 1, 0, 0x30, 34] ++ octetString digest := by
  simp [timeStampResp, derSeq, derOctets, octetString, hlength]

/-- There is one octet string of 32 bytes in a response, the one that was found. -/
theorem octetString_infix_timeStampResp_iff {found : Option (List UInt8)} {needle : List UInt8}
    (hfound : ∀ bytes, found = some bytes → bytes.length = 32) (hneedle : needle.length = 32) :
    octetString needle <:+: timeStampResp found ↔ found = some needle := by
  cases found with
  | none =>
      refine iff_of_false (fun hin => ?_) (by simp)
      have hle := hin.length_le
      simp [octetString, hneedle, timeStampResp, derSeq] at hle
  | some digest =>
      have hlength := hfound digest rfl
      rw [timeStampResp_some hlength, Option.some.injEq]
      constructor
      · rintro ⟨front, back, heq⟩
        have hsizes := congrArg List.length heq
        simp only [List.length_append, octetString, List.length_cons, List.length_nil, hneedle,
          hlength] at hsizes
        have hbyte := congrArg (·[front.length]?) heq
        simp only [octetString, List.append_assoc, List.cons_append, List.getElem?_append_right
          le_rfl, Nat.sub_self, List.getElem?_cons_zero] at hbyte
        have hnine : front.length = 9 := by
          by_contra hne
          have hlt : front.length < 9 := by omega
          interval_cases hk : front.length
          all_goals simp at hbyte
        have hcut := List.append_inj (heq.trans (List.append_nil _).symm) (by
          simp [octetString, hnine, hneedle, hlength])
        obtain ⟨-, htail⟩ := List.append_inj hcut.1 hnine
        simpa [octetString] using htail.symm
      · rintro rfl
        exact ⟨_, [], by rw [List.append_nil]⟩

theorem framed_timeStampResp {found : Option (List UInt8)}
    (hfound : ∀ bytes, found = some bytes → bytes.length = 32) :
    ∃ rest, Framed (timeStampResp found) rest [] := by
  cases found with
  | none => exact ⟨[], Sample.framed_granted [] [] (by decide)⟩
  | some digest =>
      have hlength := hfound digest rfl
      have hgranted := Sample.framed_granted ([0x30, 34] ++ octetString digest) []
        (by simp [octetString, hlength])
      refine ⟨[0x30, 34] ++ octetString digest, ?_⟩
      rw [timeStampResp_some hlength]
      simpa [octetString, hlength] using hgranted

section

variable [Unidpp] [ExternalAnchoring]

open ExternalAnchoring

/-- The first octet string of 32 bytes in a query is the digest. -/
def ExternalAnchor.CarriesDigest (anchor : ExternalAnchor) : Prop :=
  findOctetString32 anchor.payload = some (hashBytes anchor.digest)

instance (anchor : ExternalAnchor) : Decidable anchor.CarriesDigest :=
  inferInstanceAs (Decidable (_ = _))

/-- What a record says of a submission to the responder. -/
def TsaRecord.Settles (record : TsaRecord) (anchor : ExternalAnchor) : Prop :=
  record.digest = anchor.digest ∧
    if anchor.CarriesDigest then
      record.status = "anchored" ∧
        record.response = some (timeStampResp (some (hashBytes anchor.digest))) ∧
          record.retryAt = none
    else record.status = "unreachable" ∧ record.response = none ∧ record.retryAt ≠ none

/-- A response is accepted for the digest that was found, and for no other. -/
theorem verifyTimestampResponse_timeStampResp {found : Option (List UInt8)} {digest : Hash}
    (hfound : ∀ bytes, found = some bytes → bytes.length = 32)
    (hlength : (hashBytes digest).length = 32) :
    verifyTimestampResponse (timeStampResp found) digest = some (.ok ()) ↔
      found = some (hashBytes digest) := by
  obtain ⟨rest, hframed⟩ := framed_timeStampResp hfound
  rw [verifyTimestampResponse_eq_ok_iff _ hlength,
    octetString_infix_timeStampResp_iff hfound hlength, and_iff_right ⟨rest, [], hframed⟩]

theorem settles_of_submitAnchor {anchor : ExternalAnchor} {tsaUrl : String} {now : Timestamp}
    {record : TsaRecord} (hlength : (hashBytes anchor.digest).length = 32)
    (h : submitAnchor anchor tsaUrl now
      (.ok (timeStampResp (findOctetString32 anchor.payload))) = some record) :
    record.Settles anchor := by
  have hfound : ∀ bytes, findOctetString32 anchor.payload = some bytes → bytes.length = 32 :=
    fun _ => length_of_findOctetString32
  have hverify := verifyTimestampResponse_timeStampResp hfound hlength
  by_cases hcarries : anchor.CarriesDigest
  · rw [submitAnchor_of_accepted (hverify.mpr hcarries)] at h
    obtain rfl := Option.some.inj h
    refine ⟨rfl, ?_⟩
    rw [if_pos hcarries, show findOctetString32 anchor.payload = _ from hcarries]
    exact ⟨rfl, rfl, rfl⟩
  · have hdegraded : TsaRecord.degraded anchor.digest tsaUrl now = some record := by
      cases hresult : verifyTimestampResponse
          (timeStampResp (findOctetString32 anchor.payload)) anchor.digest with
      | none => exact absurd hresult (verifyTimestampResponse_ne_none _ _)
      | some result =>
          rw [submitAnchor, hresult] at h
          cases result with
          | error e => exact h
          | ok _ => exact absurd (hverify.mp hresult) hcarries
    obtain ⟨hdigest, hstatus⟩ := TsaRecord.of_degraded hdegraded
    obtain ⟨retrySecs, -, heq⟩ := Option.bind_eq_some_iff.mp hdegraded
    obtain rfl := Option.some.inj heq
    refine ⟨hdigest, ?_⟩
    rw [if_neg hcarries]
    exact ⟨hstatus, rfl, by simp⟩

/-! ## Service and responder together -/

variable [SerdeJson]

namespace System

variable {s s' : System} {config : Config} {journal : Option JournalFile} {service : Service}
  {actions : List Action}

/-- The reply that comes to a submission is what its exchange over the network returns. -/
def Exchanges (network : Network) (s : System) : Action → Prop
  | .record i _ reply => ∀ outcome head tsaUrl,
      s.handlers[i]? = some (.commit outcome (.submitting head)) →
        s.service.externalTsaUrl = some tsaUrl →
          postQuery network head.anchoredExternally tsaUrl = some reply
  | _ => True

/-- The record is of a minted head, and says what the head's query was answered with. -/
def Settled (s : System) : Prop :=
  ∀ record, s.service.tsa = some record → ∃ head : SignedTreeHead, s.service.Minted head ∧
    record.treeSize = head.treeSize ∧ record.Settles head.anchoredExternally

/-- A step whose replies are the responder's keeps the record settled. -/
theorem Settled.step (h : s.Settled) (hsound : s.Sound)
    (hhash : ∀ hash : Hash, (hashBytes hash).length = 32)
    (hurl : ∀ url, s.service.externalTsaUrl = some url →
      (∃ endpoint : Endpoint, endpoint.LedToBy url) ∧ '\r' ∉ url.toList ∧ '\n' ∉ url.toList)
    {action : Action} (hexchanges : s.Exchanges mockNetwork action)
    (hstep : s.step action = some s') : s'.Settled := by
  intro stored hstored
  obtain ⟨hsound', hgrows⟩ := hsound.step hstep
  have hminted : ∀ head, s.service.Minted head → s'.service.Minted head := fun head hold =>
    hold.mono hsound.valid hsound'.valid hgrows.operator hgrows.entries
  rcases tsa_step hsound.valid hstep with hsame |
    ⟨i, now, reply, outcome, head, tsaUrl, record, rfl, hi, hsubmit, hrecord⟩
  · obtain ⟨head, hold, hrest⟩ := h stored (hsame ▸ hstored)
    exact ⟨head, hminted head hold, hrest⟩
  · obtain ⟨url, hconfigured⟩ : ∃ url, s.service.externalTsaUrl = some url := by
      cases hconfigured : s.service.externalTsaUrl with
      | none => simp [System.step, hi, hconfigured] at hstep
      | some url => exact ⟨url, rfl⟩
    obtain ⟨⟨endpoint, hled⟩, hreturn, hfeed⟩ := hurl url hconfigured
    have hreply := hexchanges outcome head url hi hconfigured
    rw [postQuery, httpPostBinary_mockNetwork hled ⟨hreturn, by decide⟩ ⟨hfeed, by decide⟩]
      at hreply
    obtain rfl := Option.some.inj hreply
    obtain rfl := Option.some.inj (hrecord.symm.trans hstored)
    have hsettles := settles_of_submitAnchor (hhash _) hsubmit
    exact ⟨head, hminted head (hsound.minted _ (List.mem_of_getElem? hi) head rfl), rfl, hsettles⟩

/-- Behind every start and every run in which the responder answers what is submitted, the
record is of a head that was minted: it is anchored, by a response to that head, if the digest
was the first octet string of 32 bytes in the query, and degraded otherwise. The same is said
of every head that is shown with its record. -/
theorem responder_settles (hjson : SerdeJson.Conforms)
    (hhash : ∀ hash : Hash, (hashBytes hash).length = 32)
    (hnew : Service.new config journal = some (.ok service))
    (hurl : ∀ url, service.externalTsaUrl = some url →
      (∃ endpoint : Endpoint, endpoint.LedToBy url) ∧ '\r' ∉ url.toList ∧ '\n' ∉ url.toList)
    (halong : Transition.Along step (Exchanges mockNetwork) (init service) actions)
    (hrun : (init service).run actions = some s) :
    (∀ record, s.service.tsa = some record → ∃ head : SignedTreeHead, s.service.Minted head ∧
      record.treeSize = head.treeSize ∧ record.Settles head.anchoredExternally) ∧
    ∀ (i : ℕ) (s' : System) (head : Option SignedTreeHead) (response : Response),
      s.step (.view i) = some s' → s'.handlers[i]? = some (.viewed head (some response)) →
        ∃ v, SerdeJson.fromStr response.body = .ok v ∧
          ∀ w, v.field ["external_anchor", "submission", "status"] = some w →
            ∃ sth, head = some sth ∧
              w = .string (if sth.anchoredExternally.CarriesDigest then "anchored"
                else "unreachable") := by
  obtain ⟨hsound, hsettled, -⟩ : s.Sound ∧ s.Settled ∧
      s.service.externalTsaUrl = service.externalTsaUrl := by
    refine Transition.run_keeps (I := fun t => t.Sound ∧ t.Settled ∧
      t.service.externalTsaUrl = service.externalTsaUrl) ?_ ⟨sound_init hnew, ?_, rfl⟩ halong hrun
    · rintro t action next ⟨ht, hsettled, hsame⟩ hallowed hstep
      obtain ⟨ht', hgrows⟩ := ht.step hstep
      exact ⟨ht', hsettled.step ht hhash (hsame ▸ hurl) hallowed hstep,
        hgrows.externalTsaUrl.trans hsame⟩
    · intro record hrecord
      obtain ⟨-, -, -, htsa⟩ := Service.exists_of_new hnew
      rw [show (init service).service.tsa = none from htsa] at hrecord
      simp at hrecord
  refine ⟨hsettled, fun i s' head response hview hi => ?_⟩
  obtain ⟨hviewing, hread⟩ := exists_of_view hjson hsound.valid hview hi
  refine ⟨_, hread, fun w hw => ?_⟩
  cases head with
  | none => simp [field_treeHeadJson_none] at hw
  | some sth =>
      rw [field_treeHeadJson_anchor] at hw
      obtain ⟨record, htsa, hsize, -⟩ := exists_of_submission hw
      obtain ⟨minted, hminted, hsize', -, hstatus⟩ := hsettled record htsa
      obtain rfl : minted = sth :=
        hminted.unique hsound.valid (hsound.minted _ (List.mem_of_getElem? hviewing) sth rfl)
          (hsize'.symm.trans hsize)
      rw [htsa, field_submission hsize, field_toWire.1] at hw
      obtain rfl := Option.some.inj hw
      refine ⟨minted, rfl, ?_⟩
      split at hstatus
      · next hcarries => rw [if_pos hcarries, hstatus.1]
      · next hcarries => rw [if_neg hcarries, hstatus.1]

end System

end

namespace Sample

/-- What is in front of the digest in a query with nothing in it that may be left out. -/
def queryFront : List UInt8 :=
  [0x30, 0x36, 0x02, 0x01, 0x01, 0x30, 0x31, 0x30, 0x0d, 0x06, 0x09, 0x60, 0x86, 0x48, 0x01, 0x65,
    0x03, 0x04, 0x02, 0x01, 0x05, 0x00]

section

local instance (priority := high) querying : ExternalAnchoring :=
  { anchoring with anchorPayload := fun bytes => queryFront ++ octetString (digest bytes).val }

theorem carriesDigest (head : SignedTreeHead) : head.anchoredExternally.CarriesDigest := by
  have hfirst : First [0x04, 0x20] queryFront := by
    rw [First]
    decide
  have hfound := findOctetString32_of_first (digest head.canonical).property hfirst []
  rwa [List.append_nil] at hfound

theorem submitAnchor_responder (head : SignedTreeHead) :
    submitAnchor head.anchoredExternally tsaUrl (2 : Fin 60)
      (.ok (timeStampResp (some (digest head.canonical).val))) = some
        { treeSize := 0, digest := digest head.canonical, status := "anchored", tsaUrl
          response := some (timeStampResp (some (digest head.canonical).val))
          submittedAt := (2 : Fin 60), retryAt := none } := by
  refine submitAnchor_of_accepted ((verifyTimestampResponse_timeStampResp ?_ ?_).mpr rfl) _ _
  · rintro bytes heq
    rw [← Option.some.inj heq]
    exact (digest head.canonical).property
  · exact (digest head.canonical).property

/-- The first head, anchored by the responder and shown to be. -/
theorem responder_settles_one :
    ∃ (s s' : System) (head sth : SignedTreeHead) (response : Response) (v : Value),
      (System.init (service (some tsaUrl))).run [commitAt 1, .readHead 0,
        .record 0 (2 : Fin 60) (.ok (timeStampResp (some (digest head.canonical).val))),
        .treeHead] = some s ∧
      s.step (.view 1) = some s' ∧ s'.handlers[1]? = some (.viewed (some sth) (some response)) ∧
      SerdeJson.fromStr response.body = .ok v ∧
      v.field ["external_anchor", "submission", "status"] = some (.string "anchored") := by
  obtain ⟨one, v, head, hone, hup, hhandlers, hsize, -, -, -⟩ := exists_submitting
  have hone' : (System.init (service (some tsaUrl))).run [commitAt 1, .readHead 0] =
    some one := hone
  have hi : one.handlers[0]? = some (.commit (.ok v) (.submitting head)) := by
    rw [hhandlers]
    rfl
  have hsubmit := submitAnchor_responder head
  obtain ⟨two, htwo, htsa, hup', hhandlers'⟩ : ∃ two : System,
      one.step (.record 0 (2 : Fin 60)
        (.ok (timeStampResp (some (digest head.canonical).val)))) = some two ∧
      (∃ record, two.service.tsa = some record ∧ record.treeSize = head.treeSize) ∧
      Up (some tsaUrl) 1 two ∧ two.handlers = [.commit (.ok v) (.answered (respond (.ok v)))] := by
    have hstep : one.step (.record 0 (2 : Fin 60)
        (.ok (timeStampResp (some (digest head.canonical).val)))) =
          some (one.record 0 (.ok v) head tsaUrl (2 : Fin 60)
            (.ok (timeStampResp (some (digest head.canonical).val)))) := by
      rw [System.step, hi, hup.url]
    rw [System.record, hsubmit] at hstep
    refine ⟨_, hstep, ⟨_, rfl, rfl⟩, ⟨⟨hup.running.valid, hup.running.unpoisoned,
      hup.running.signs⟩, hup.token, hup.url, hup.length, hup.journaled⟩, ?_⟩
    exact congrArg (List.set · 0 _) hhandlers
  obtain ⟨sth, hsize', hread⟩ := hup'.treeHead (by decide)
  have hread' : two.step .treeHead = some (two.push (.viewing (some sth))) := hread
  have hviewing : (two.push (.viewing (some sth))).handlers[1]? = some (.viewing (some sth)) := by
    rw [System.push, hhandlers']
    rfl
  obtain ⟨s', response, hshow, hshown⟩ := exists_view hviewing
  have hview : (two.push (.viewing (some sth))).step (.view 1) = some s' := hshow
  have hrun := Transition.run_snoc (Transition.run_snoc hone' htwo) hread'
  have hled : ∃ endpoint : Endpoint, endpoint.LedToBy tsaUrl :=
    ⟨⟨"tsa.example".toList, 80, "/tsr".toList⟩, parseHttpUrl_eq_ok_iff.mp (by decide +kernel)⟩
  have hexchanges : one.Exchanges mockNetwork (.record 0 (2 : Fin 60)
      (.ok (timeStampResp (some (digest head.canonical).val)))) := by
    intro outcome other url hother hconfigured
    obtain ⟨-, rfl⟩ : Except.ok v = outcome ∧ head = other := by simpa [hi] using hother
    obtain rfl := Option.some.inj (hup.url.symm.trans hconfigured)
    obtain ⟨endpoint, hled⟩ := hled
    rw [postQuery, httpPostBinary_mockNetwork hled (by decide) (by decide),
      show findOctetString32 head.anchoredExternally.payload = _ from carriesDigest head]
    rfl
  have hstart : Transition.Along System.step (System.Exchanges mockNetwork)
      (System.init (service (some tsaUrl))) [commitAt 1, .readHead 0] :=
    ⟨trivial, fun _ _ => ⟨trivial, fun _ _ => trivial⟩⟩
  have halong := Transition.along_snoc (Transition.along_snoc hstart hone' hexchanges)
    (Transition.run_snoc hone' htwo) (show two.Exchanges mockNetwork .treeHead from trivial)
  obtain ⟨-, hviews⟩ := System.responder_settles serdeJson_conforms
    (fun hash : Sample.Hash => hash.property) (new_service (some tsaUrl)) (by
      rintro url hurl
      obtain rfl : tsaUrl = url := Option.some.inj hurl
      exact ⟨hled, by decide, by decide⟩) halong hrun
  obtain ⟨w, hw, hstatus⟩ := hviews 1 s' (some sth) response hview hshown
  obtain ⟨-, hbody⟩ := System.exists_of_view serdeJson_conforms
    (show (two.push (.viewing (some sth))).service.store.Valid from hup'.running.valid) hview hshown
  obtain ⟨record, hrecord, hrecorded⟩ := htsa
  have hown : record.treeSize = sth.treeSize := by
    rw [hrecorded, ← UInt64.toNat_inj, hsize, hsize']
  have hfield : w.field ["external_anchor", "submission", "status"] =
      some (.string record.status) := by
    rw [Except.ok.inj (hw.symm.trans hbody), field_treeHeadJson_anchor,
      show (two.push (.viewing (some sth))).service.tsa = some record from hrecord,
      field_submission hown, field_toWire.1]
  obtain ⟨other, -, hanchored⟩ := hstatus _ hfield
  rw [if_pos (carriesDigest other)] at hanchored
  exact ⟨_, s', head, sth, response, w, hrun, hview, hshown, hw, hanchored ▸ hfield⟩

end

end Sample

end UnidppLog
