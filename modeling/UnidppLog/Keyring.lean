/-
# The operator's key

The key that signs every head, derived from the configured seed, and the public
description of it that rides along with every receipt.
-/

import UnidppLog.Wire

namespace UnidppLog

open Json (Value)
open Unidpp

variable [Unidpp]

/-- What brings up the operator's key. -/
structure OperatorConfig where
  logId : String
  suite : Suite
  seed : String

/-- The operator: its configuration and the key derived from it. -/
structure Operator where
  config : OperatorConfig
  key : KeyPair
  pubKey : PublicKey

namespace Operator

def fromConfig (config : OperatorConfig) : Except String Operator :=
  match seeded config.suite (Text.encode config.seed.toList) with
  | .error e => .error s!"could not derive the operator key: {e}"
  | .ok key => .ok { config, key, pubKey := publicKey key }

def logId (operator : Operator) : String :=
  operator.config.logId

/-- The public description of the operator. -/
def info (operator : Operator) : Value :=
  .ofFields [
    ("log_id", .string operator.config.logId),
    ("suite", .string (suiteAsStr operator.config.suite)),
    ("key_id", .string (keyIdAsStr (keyId operator.key))),
    ("public_key_hex", .string (hexEncode (publicKeyBytes operator.pubKey))),
    ("fingerprint", .string (publicKeyToString operator.pubKey))]

theorem pubKey_of_fromConfig {config : OperatorConfig} {operator : Operator}
    (h : fromConfig config = .ok operator) : operator.pubKey = publicKey operator.key := by
  rw [fromConfig] at h
  split at h
  · simp at h
  · obtain rfl := Except.ok.inj h
    rfl

theorem plain_info (operator : Operator) : operator.info.Plain ∧ operator.info.depth ≤ 1 := by
  constructor
  · exact Value.plain_ofFields (by simp [Value.Plain])
  · exact Value.depth_ofFields_le (by simp [Value.depth])

/-- A receipt with the operator in it is plain JSON, four brackets deep. -/
theorem plain_receipt (operator : Operator) (receipt : Receipt) :
    (receipt.toJson operator.info).Plain ∧ (receipt.toJson operator.info).depth ≤ 4 := by
  obtain ⟨hplain, hdepth⟩ := operator.plain_info
  exact receipt.plain_toJson hplain (by omega)

end Operator

end UnidppLog
