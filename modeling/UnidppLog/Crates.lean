/-
# The crates the service builds on

`unidpp-model` and `unidpp-signatif` own the hash, the time stamp, the keys and
the signatures, and `serde_json` the text of a JSON value; the service only
calls them. They enter as two classes of types and functions, arbitrary
throughout. What a result relies on is a named hypothesis about a class, stated
where the result needs it.
-/

import UnidppLog.Rust
import UnidppLog.Json.Grammar

namespace UnidppLog

/-- The signing domains of signatif that this service uses. -/
inductive SigningDomain
  | treeHead
  deriving DecidableEq, Repr

/-- A signature under a suite and key; the bytes are absent in a slot that has
not been filled. -/
structure SignatureSlot (Suite KeyId : Type) where
  suite : Suite
  keyId : KeyId
  signature : Option (List UInt8)

/-- The types and functions of `unidpp-model` and `unidpp-signatif` that the
service calls. -/
class Unidpp where
  /-- `unidpp_model::Hash`. -/
  Hash : Type
  decEqHash : DecidableEq Hash
  /-- `Hash::ZERO`. -/
  zeroHash : Hash
  /-- `Hash::hex`. -/
  hex : Hash → String
  /-- `Hash::from_hex`. -/
  fromHex : String → Option Hash
  /-- `unidpp_model::Timestamp`. -/
  Timestamp : Type
  /-- `Timestamp::to_string`. -/
  timestampToString : Timestamp → String
  /-- `Timestamp::parse`. -/
  parseTimestamp : String → Except String Timestamp
  /-- `anchor::leaf_hash`. -/
  leafHash : Hash → Hash
  /-- `anchor::node_hash`. -/
  nodeHash : Hash → Hash → Hash
  /-- `sign::Suite`. -/
  Suite : Type
  /-- `Suite::as_str`. -/
  suiteAsStr : Suite → String
  /-- `Suite::parse_token`. -/
  parseSuite : String → Except String Suite
  /-- `keyring::KeyId`. -/
  KeyId : Type
  /-- `KeyId::as_str`. -/
  keyIdAsStr : KeyId → String
  /-- `KeyId::new`. -/
  newKeyId : String → Except String KeyId
  /-- `keyring::PublicKey`. -/
  PublicKey : Type
  /-- `PublicKey::as_bytes`. -/
  publicKeyBytes : PublicKey → List UInt8
  /-- `PublicKey::to_string`, the fingerprint. -/
  publicKeyToString : PublicKey → String
  /-- `keyring::KeyPair`. -/
  KeyPair : Type
  /-- `KeyPair::seeded`. -/
  seeded : Suite → List UInt8 → Except String KeyPair
  /-- `KeyPair::public`. -/
  publicKey : KeyPair → PublicKey
  /-- `KeyPair::key_id`. -/
  keyId : KeyPair → KeyId
  /-- `SignedTreeHead::canonical_bytes`. -/
  canonicalBytes : String → UInt64 → Timestamp → Hash → List UInt8
  /-- `SignatureSlot::sign`, a function of key, domain and bytes. -/
  sign : KeyPair → SigningDomain → List UInt8 → Except String (SignatureSlot Suite KeyId)
  /-- Whether a slot carries a signature by this key over these bytes. -/
  verifySlot : PublicKey → SigningDomain → List UInt8 → SignatureSlot Suite KeyId → Bool

export Unidpp (Hash Timestamp Suite KeyId PublicKey KeyPair)

instance [Unidpp] : DecidableEq Hash :=
  Unidpp.decEqHash

/-- The text forms in a commit record parse back to what they were printed
from. -/
structure RecordTextForms [Unidpp] : Prop where
  fromHex_hex : ∀ h : Hash, Unidpp.fromHex (Unidpp.hex h) = some h
  parseTimestamp_toString : ∀ t : Timestamp,
    Unidpp.parseTimestamp (Unidpp.timestampToString t) = .ok t

/-- The functions of `serde_json` that the service calls. -/
class SerdeJson where
  /-- `serde_json::from_str`. -/
  fromStr : String → Except String Json.Value
  /-- `serde_json::to_string`. -/
  toString : Json.Value → Except String String
  /-- `serde_json::to_string_pretty`. -/
  toStringPretty : Json.Value → Except String String

/-- `serde_json` follows the grammar: it prints a plain value in the compact and
the pretty layout, reads back what it prints up to its recursion limit, and
accepts no text as an object that the grammar does not derive as one. -/
structure SerdeJson.Conforms [SerdeJson] : Prop where
  toString_compact : ∀ v : Json.Value, v.Plain →
    SerdeJson.toString v = .ok (String.ofList v.compact)
  toString_pretty : ∀ v : Json.Value, v.Plain →
    SerdeJson.toStringPretty v = .ok (String.ofList v.pretty)
  fromStr_compact : ∀ v : Json.Value, v.Plain → v.depth < 128 →
    SerdeJson.fromStr (String.ofList v.compact) = .ok v
  fromStr_pretty : ∀ v : Json.Value, v.Plain → v.depth < 128 →
    SerdeJson.fromStr (String.ofList v.pretty) = .ok v
  objectText_of_fromStr : ∀ (text : String) (fields : List (String × Json.Value)),
    SerdeJson.fromStr text = .ok (.object fields) → Json.ObjectText text.toList

end UnidppLog
