/-
# The service

The shared state with the external anchor's record in it, what brings it up, and
the read handlers: the discovery document, liveness, receipts and consistency
proofs, and the head with its view of the external anchor. What a client reads
off the head's JSON is said once, field by field.
-/

import UnidppLog.Api
import UnidppLog.Tsa

namespace UnidppLog

open Json (Value)
open Unidpp
open Text (trim)

section

variable [Unidpp]

/-- Deployment configuration. The listen address is left out, and the journal is
given apart; the build id is that of the binary. -/
structure Config where
  operator : OperatorConfig
  appendToken : Option String
  externalTsaUrl : Option String
  buildId : Option String

/-- The shared state, with the outcome of the latest external submission. -/
structure Service extends AppState where
  externalTsaUrl : Option String
  buildId : Option String
  tsa : Option TsaRecord

/-- A `GET` request to one of the routes that take one lock or none: the text of
a path segment or of the query parameters. -/
inductive Get
  | discovery
  | healthz
  | consistency (params : String → Option String)
  | receipt (seq : String)

/-- The external-anchor view for the head response. -/
def externalAnchorView (tsa : Option TsaRecord) (sth : SignedTreeHead) : Value :=
  match tsa with
  | none => .ofFields [("status", .string "not-configured")]
  | some record =>
    if record.treeSize ≠ sth.treeSize then
      .ofFields [
        ("status", .string "stale"),
        ("anchored_tree_size", .number (.posInt record.treeSize)),
        ("detail", .string "the record anchors an earlier head")]
    else
      .ofFields [
        ("method", .string "rfc3161"),
        ("digest", .string (hex record.digest)),
        ("submission", record.toWire)]

/-- The body of `GET /tree/head`, by the head and the record it reads. -/
def treeHeadJson (operator : Operator) (head : Option SignedTreeHead) (tsa : Option TsaRecord) :
    Value :=
  match head with
  | some sth => .ofFields [
      ("log_id", .string sth.logId),
      ("tree_size", .number (.posInt sth.treeSize)),
      ("timestamp", .string (timestampToString sth.timestamp)),
      ("root", .string (hex sth.root)),
      ("signature", .ofFields [
        ("suite", .string (suiteAsStr sth.signature.suite)),
        ("key_id", .string (keyIdAsStr sth.signature.keyId)),
        ("value", .string ((sth.signature.signature.map hexEncode).getD ""))]),
      ("external_anchor", externalAnchorView tsa sth),
      ("operator", operator.info)]
  | none => .ofFields [
      ("log_id", .string operator.logId),
      ("tree_size", .number (.posInt 0)),
      ("timestamp", .null),
      ("root", .null),
      ("signature", .null),
      ("operator", operator.info)]

/-- The discovery document. -/
def discoveryJson (operator : Operator) (buildId : Option String) : Value :=
  .ofFields [
    ("service", .string "unidpp-log"),
    ("version", .string "0.1.0"),
    ("build_id", .string (buildId.getD "dev")),
    ("description", .string <|
      "UniDPP transparency-log anchor: sequenced Merkle commitments with signed inclusion " ++
        "receipts and monotonic signed tree heads"),
    ("log_id", .string operator.logId),
    ("tree", .string <|
      "RFC 6962 Merkle tree over sequenced commitment leaves (Confium transparency-log " ++
        "constants 0x01/0x02, via unidpp-signatif)"),
    ("endpoints", .ofFields [
      ("commit", .string "POST /commitments"),
      ("tree_head", .string "GET /tree/head"),
      ("consistency", .string "GET /tree/consistency?from="),
      ("receipt", .string "GET /receipt/{seq}"),
      ("health", .string "GET /healthz")]),
    ("operator", operator.info),
    ("receipt_verification", .array [
      .string <|
        "1. verify tree_head.signature against the operator public key (this document)",
      .string <|
        "2. verify the inclusion proof reconstructs tree_head.root from the anchored commitment",
      .string <|
        "3. as the tree grows, GET /tree/consistency?from=<receipt tree_size> and verify it " ++
          "ties the receipt's pinned root to the current head"]),
    ("invariants", .ofFields [
      ("sequencing", .string <|
        "sequence numbers are strictly monotonic (0, 1, 2, ...); the journal replays with the " ++
          "same discipline"),
      ("heads", .string <|
        "a head is signed at append time over tree_size + root + timestamp; heads never move " ++
          "backwards"),
      ("enumeration", .string <|
        "none (I12): no endpoint lists subjects or commitments; the log is verifiable without " ++
          "being browsable")]),
    ("quorum", .ofFields [
      ("now", .string "M=1 of K=1 — one honest operator (see README)"),
      ("later", .string <|
        "M-of-K log-of-logs per the UniDPP operator model 6; unidpp-signatif already " ++
          "implements the master quorum verification"),
      ("deployment", .string <|
        "Durable Objects (sequencing) + R2 segments on Cloudflare is the documented " ++
          "succession path")])]

variable [SerdeJson]

/-- The answer of `GET /tree/head`. -/
def treeHeadResponse (operator : Operator) (head : Option SignedTreeHead)
    (tsa : Option TsaRecord) : Option Response :=
  jsonResponse 200 (treeHeadJson operator head tsa)

namespace Service

/-- Bring the service up on a journal. -/
def new (config : Config) (journal : Option JournalFile) : Option (Except StoreError Service) :=
  match Operator.fromConfig config.operator with
  | .error e => some (.error (.journal e))
  | .ok operator => do
    match ← LogStore.open journal with
    | .error e => return .error e
    | .ok store =>
      return .ok {
        appendToken := config.appendToken
        operator
        store
        externalTsaUrl := config.externalTsaUrl
        buildId := config.buildId
        tsa := none }

/-- The answer to a read that takes one lock or none. -/
def get (service : Service) : Get → Option Response
  | .discovery => jsonResponse 200 (discoveryJson service.operator service.buildId)
  | .healthz => some { status := 200, contentType := "text/plain", body := "ok" }
  | .consistency params => service.toAppState.treeConsistency params
  | .receipt seq => service.toAppState.receipt seq

/-- Whether a read takes the store's lock. -/
def locks : Get → Bool
  | .discovery => false
  | .healthz => false
  | .consistency params => (((params "from").map fun s => trim s.toList).bind parseU64).isSome
  | .receipt seq => (parseU64 (trim seq.toList)).isSome

/-- Whether a read panics while it holds the store's lock. -/
def panicsLocked (service : Service) : Get → Bool
  | .discovery => false
  | .healthz => false
  | .consistency params =>
    match ((params "from").map fun s => trim s.toList).bind parseU64 with
    | none => false
    | some oldSize =>
      if service.store.size < oldSize then false
      else
        (do
          let _ ← service.store.root
          let _ ← service.store.rootAtSize oldSize
          service.store.consistencyPath oldSize).isNone
  | .receipt seq =>
    match parseU64 (trim seq.toList) with
    | none => false
    | some seq =>
      (Receipt.of service.store seq service.operator.logId service.operator.key).isNone

theorem exists_of_new {config : Config} {journal : Option JournalFile} {service : Service}
    (h : new config journal = some (.ok service)) :
    Operator.fromConfig config.operator = .ok service.operator ∧
      LogStore.open journal = some (.ok service.store) ∧
        service.externalTsaUrl = config.externalTsaUrl ∧ service.tsa = none := by
  rw [new] at h
  split at h
  · simp at h
  · next operator hoperator =>
    obtain ⟨result, hopen, h⟩ := Option.bind_eq_some_iff.mp h
    cases result with
    | error e => simp at h
    | ok store =>
        obtain rfl : _ = service := by simpa using h
        exact ⟨hoperator, hopen, rfl, rfl⟩

end Service

end

section

variable [Unidpp] {operator : Operator} {head : Option SignedTreeHead} {sth : SignedTreeHead}
  {tsa : Option TsaRecord}

theorem plain_externalAnchorView (tsa : Option TsaRecord) (sth : SignedTreeHead) :
    (externalAnchorView tsa sth).Plain ∧ (externalAnchorView tsa sth).depth ≤ 2 := by
  cases tsa with
  | none =>
      constructor
      · exact Value.plain_ofFields (by simp [Value.Plain])
      · exact (Value.depth_ofFields_le (n := 0) (by simp [Value.depth])).trans (by omega)
  | some record =>
      obtain ⟨hplain, hdepth⟩ := record.plain_toWire
      rw [externalAnchorView]
      split
      · constructor
        · exact Value.plain_ofFields (by simp [Value.Plain])
        · exact (Value.depth_ofFields_le (n := 0) (by simp [Value.depth])).trans (by omega)
      · constructor
        · exact Value.plain_ofFields (by simp [Value.Plain, hplain])
        · exact Value.depth_ofFields_le (by simp [Value.depth, hdepth])

theorem plain_treeHeadJson (operator : Operator) (head : Option SignedTreeHead)
    (tsa : Option TsaRecord) :
    (treeHeadJson operator head tsa).Plain ∧ (treeHeadJson operator head tsa).depth ≤ 3 := by
  obtain ⟨hinfo, hinfo'⟩ := operator.plain_info
  cases head with
  | none =>
      constructor
      · exact Value.plain_ofFields (by simp [Value.Plain, hinfo])
      · exact (Value.depth_ofFields_le (n := 1) (by simp [Value.depth, hinfo'])).trans (by omega)
  | some sth =>
      obtain ⟨hview, hview'⟩ := plain_externalAnchorView tsa sth
      have hsignature : ∀ fields : List (String × Value),
          (∀ f ∈ fields, f.2.Plain ∧ f.2.depth ≤ 0) →
            (Value.ofFields fields).Plain ∧ (Value.ofFields fields).depth ≤ 1 :=
        fun fields h => ⟨Value.plain_ofFields fun f hf => (h f hf).1,
          Value.depth_ofFields_le fun f hf => (h f hf).2⟩
      obtain ⟨hslot, hslot'⟩ := hsignature [
        ("suite", .string (suiteAsStr sth.signature.suite)),
        ("key_id", .string (keyIdAsStr sth.signature.keyId)),
        ("value", .string ((sth.signature.signature.map hexEncode).getD ""))]
        (by simp [Value.Plain, Value.depth])
      constructor
      · exact Value.plain_ofFields (by simp [Value.Plain, hslot, hview, hinfo])
      · refine Value.depth_ofFields_le ?_
        simp [Value.depth, hview']
        omega

/-- The body of a head response reads back as what it was printed from. -/
theorem fromStr_treeHeadResponse [SerdeJson] (hjson : SerdeJson.Conforms) {response : Response}
    (h : treeHeadResponse operator head tsa = some response) :
    SerdeJson.fromStr response.body = .ok (treeHeadJson operator head tsa) := by
  obtain ⟨hplain, hdepth⟩ := plain_treeHeadJson operator head tsa
  exact fromStr_body hjson hplain (by omega) h

end

end UnidppLog
