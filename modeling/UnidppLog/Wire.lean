/-
# Wire views

The JSON of receipts, heads and proofs, and the readers that a verifier rebuilds
them with. Signatures travel as hexadecimal text. What is written is plain JSON
of a few brackets, and reads back as what it was written from.
-/

import UnidppLog.Receipt
import UnidppLog.Json.Object

namespace UnidppLog

open Json (Value)
open Rfc6962 (Side)
open Unidpp

/-- Two lower-case digits for each byte. -/
def hexEncode (bytes : List UInt8) : String :=
  String.ofList (Hex.text bytes)

/-- `u8::from_str_radix` in base 16 on two ASCII characters: a plus sign may stand
in front of a digit. -/
def fromStrRadix (high low : Char) : Option UInt8 :=
  if high = '+' then (Hex.value low).map UInt8.ofNat else Hex.byte high low

/-- The bytes of the two-byte slices of a text, as far as the first slice that is
no number. The outer `none` is a panic: a slice that starts or ends within a
character. -/
def hexSlices : List Char → Option (Option (List UInt8))
  | [] => some (some [])
  | c :: rest =>
    if c.utf8Size = 2 then some none
    else if c.utf8Size ≠ 1 then none
    else
      match rest with
      | [] => none
      | d :: rest =>
        if d.utf8Size ≠ 1 then none
        else
          match fromStrRadix c d with
          | none => some none
          | some b => (hexSlices rest).map fun bytes => bytes.map (b :: ·)

/-- The bytes of a hexadecimal text. -/
def hexDecode (s : String) : Option (Option (List UInt8)) :=
  if (Text.encode s.toList).length % 2 ≠ 0 then some none else hexSlices s.toList

theorem digitChar_ne_plus {n : ℕ} (hn : n < 16) : Nat.digitChar n ≠ '+' := by
  have hall : ∀ m : Fin 16, Nat.digitChar m ≠ '+' := by decide
  exact hall ⟨n, hn⟩

theorem utf8Size_digitChar {n : ℕ} (hn : n < 16) : (Nat.digitChar n).utf8Size = 1 := by
  have hall : ∀ m : Fin 16, (Nat.digitChar m).utf8Size = 1 := by decide
  exact hall ⟨n, hn⟩

theorem hexSlices_text (bytes : List UInt8) : hexSlices (Hex.text bytes) = some (some bytes) := by
  induction bytes with
  | nil => rfl
  | cons b rest ih =>
      have hb : b.toNat < 256 := b.toNat_lt
      have hhigh : b.toNat / 16 < 16 := by omega
      have hlow : b.toNat % 16 < 16 := by omega
      have hcons : Hex.text (b :: rest) =
          Nat.digitChar (b.toNat / 16) :: Nat.digitChar (b.toNat % 16) :: Hex.text rest := rfl
      rw [hcons, hexSlices, utf8Size_digitChar hhigh, if_neg (by decide), if_neg (by decide)]
      simp only [utf8Size_digitChar hlow, fromStrRadix, if_neg (digitChar_ne_plus hhigh),
        Hex.byte_digits, ih]
      rfl

theorem length_encode_text (bytes : List UInt8) :
    (Text.encode (Hex.text bytes)).length = 2 * bytes.length := by
  induction bytes with
  | nil => rfl
  | cons b rest ih =>
      have hb : b.toNat < 256 := b.toNat_lt
      have hcons : Hex.text (b :: rest) =
          Nat.digitChar (b.toNat / 16) :: Nat.digitChar (b.toNat % 16) :: Hex.text rest := rfl
      rw [hcons, Text.encode_cons, Text.encode_cons,
        Text.utf8EncodeChar_of_lt (Hex.digitChar_lt (by omega)),
        Text.utf8EncodeChar_of_lt (Hex.digitChar_lt (by omega))]
      simp only [List.length_append, List.length_cons, List.length_nil, ih]
      omega

/-- Bytes are read back from their hexadecimal text. -/
theorem hexDecode_hexEncode (bytes : List UInt8) :
    hexDecode (hexEncode bytes) = some (some bytes) := by
  rw [hexDecode, hexEncode, String.toList_ofList, length_encode_text, if_neg (by omega),
    hexSlices_text]

/-- `Option::ok_or` where what follows may panic. -/
def okOrT {α : Type} (value : Option α) (error : String) : ExceptT String Option α :=
  ExceptT.mk (some (okOr value error))

@[simp]
theorem okOrT_some {α : Type} (a : α) (error : String) : okOrT (some a) error = pure a :=
  rfl

variable [Unidpp]

/-- The text forms of a signature's suite and key parse back. -/
structure SignatureTextForms : Prop where
  parseSuite_asStr : ∀ s : Suite, parseSuite (suiteAsStr s) = .ok s
  newKeyId_asStr : ∀ k : KeyId, newKeyId (keyIdAsStr k) = .ok k

def signatureJson (slot : SignatureSlot Suite KeyId) : Value :=
  .ofFields [
    ("suite", .string (suiteAsStr slot.suite)),
    ("key_id", .string (keyIdAsStr slot.keyId)),
    ("value",
      match slot.signature with
      | some v => .string (hexEncode v)
      | none => .null)]

def sthJson (sth : SignedTreeHead) : Value :=
  .ofFields [
    ("log_id", .string sth.logId),
    ("tree_size", .number (.posInt sth.treeSize)),
    ("timestamp", .string (timestampToString sth.timestamp)),
    ("root", .string (hex sth.root)),
    ("signature", signatureJson sth.signature)]

def sideStr : Side → String
  | .left => "left"
  | .right => "right"

def nodeJson (node : ProofNode) : Value :=
  .ofFields [
    ("sibling", .string (hex node.sibling)),
    ("side", .string (sideStr node.side))]

def proofJson (proof : InclusionProof) (commitment : Hash) : Value :=
  .ofFields [
    ("leaf_index", .number (.posInt proof.leafIndex)),
    ("tree_size", .number (.posInt proof.treeSize)),
    ("leaf_hash", .string (hex (leafHash commitment))),
    ("commitment", .string (hex commitment)),
    ("path", .array (proof.path.map nodeJson))]

/-- The wire view of a receipt, with the operator's description riding along. -/
def Receipt.toJson (receipt : Receipt) (operatorInfo : Value) : Value :=
  .ofFields [
    ("receipt_id", .string (ToString.toString receipt.record.seq)),
    ("log_id", .string receipt.logId),
    ("seq", .number (.posInt receipt.record.seq)),
    ("subject", .string receipt.record.subject),
    ("commitment", .string (hex receipt.record.commitment)),
    ("salt_ref", CommitRecord.saltRefJson receipt.record.saltRef),
    ("logged_at", .string (timestampToString receipt.record.loggedAt)),
    ("inclusion", proofJson receipt.inclusion receipt.record.commitment),
    ("tree_head", sthJson receipt.treeHead),
    ("operator", operatorInfo)]

/-- Rebuild a head from its wire view. -/
def sthFromJson (v : Value) : ExceptT String Option SignedTreeHead := do
  let obj ← okOrT v.asObject "tree head must be an object"
  let logId ← okOrT ((Json.lookup obj "log_id").bind Value.asStr) "missing `log_id`"
  let treeSize ← okOrT ((Json.lookup obj "tree_size").bind Value.asU64) "missing `tree_size`"
  let timestamp ← okOrT
    (((Json.lookup obj "timestamp").bind Value.asStr).bind fun s => (parseTimestamp s).toOption)
    "missing/invalid `timestamp`"
  let root ← okOrT (((Json.lookup obj "root").bind Value.asStr).bind fromHex)
    "missing/invalid `root`"
  let signature ← okOrT (Json.lookup obj "signature") "missing `signature`"
  let sig ← okOrT signature.asObject "`signature` must be an object"
  let suite ← okOrT ((Json.lookup sig "suite").bind Value.asStr) "missing `signature.suite`"
  let suite ← ExceptT.mk (some (parseSuite suite))
  let keyId ← okOrT ((Json.lookup sig "key_id").bind Value.asStr) "missing `signature.key_id`"
  let keyId ← ExceptT.mk (some (newKeyId keyId))
  let value ←
    match Json.lookup sig "value" with
    | some (.string s) => do
      let bytes ← ExceptT.lift (hexDecode s)
      okOrT bytes "bad `signature.value` hex"
    | _ => throw "missing `signature.value`"
  return { logId, treeSize, timestamp, root
           signature := { suite, keyId, signature := some value } }

def nodeFromJson (node : Value) : Except String ProofNode := do
  let sibling ← okOr (((node.get "sibling").bind Value.asStr).bind fromHex) "bad `path[].sibling`"
  let side ←
    match (node.get "side").bind Value.asStr with
    | some "left" => .ok Side.left
    | some "right" => .ok Side.right
    | _ => .error "bad `path[].side`"
  return { sibling, side }

/-- Rebuild an inclusion proof from its wire view. -/
def proofFromJson (v : Value) : Except String InclusionProof := do
  let obj ← okOr v.asObject "inclusion must be an object"
  let leafIndex ← okOr ((Json.lookup obj "leaf_index").bind Value.asU64) "missing `leaf_index`"
  let treeSize ← okOr ((Json.lookup obj "tree_size").bind Value.asU64) "missing `tree_size`"
  let nodes ← okOr ((Json.lookup obj "path").bind Value.asArray) "missing `path`"
  let path ← nodes.mapM nodeFromJson
  return { leafIndex, treeSize, path }

/-- A wire view of this head, but for the bytes of its signature: their text is `text`. -/
structure ReadsAs (v : Value) (sth : SignedTreeHead) (text : String) : Prop where
  logId : (v.field ["log_id"]).bind Value.asStr = some sth.logId
  treeSize : (v.field ["tree_size"]).bind Value.asU64 = some sth.treeSize
  timestamp : ∃ s, (v.field ["timestamp"]).bind Value.asStr = some s ∧
    parseTimestamp s = .ok sth.timestamp
  root : ∃ s, (v.field ["root"]).bind Value.asStr = some s ∧ fromHex s = some sth.root
  suite : ∃ s, (v.field ["signature", "suite"]).bind Value.asStr = some s ∧
    parseSuite s = .ok sth.signature.suite
  keyId : ∃ s, (v.field ["signature", "key_id"]).bind Value.asStr = some s ∧
    newKeyId s = .ok sth.signature.keyId
  value : v.field ["signature", "value"] = some (.string text)

/-- The head with these bytes as its signature. -/
def SignedTreeHead.withSignature (sth : SignedTreeHead) (bytes : List UInt8) : SignedTreeHead :=
  { sth with signature := { sth.signature with signature := some bytes } }

/-- A head whose other fields are valid is read if its signature's text is decoded. -/
theorem ReadsAs.read {v : Value} {sth : SignedTreeHead} {text : String}
    (h : ReadsAs v sth text) :
    (sthFromJson v).run = (hexDecode text).map fun bytes =>
      (okOr bytes "bad `signature.value` hex").map sth.withSignature := by
  obtain ⟨signature, hsignature, hvalue⟩ := Option.bind_eq_some_iff.mp h.value
  obtain ⟨obj, hobj, hlookup⟩ := Option.bind_eq_some_iff.mp hsignature
  obtain ⟨w, hw, hwvalue⟩ := Option.bind_eq_some_iff.mp hvalue
  obtain rfl : w = .string text := Option.some.inj hwvalue
  obtain ⟨sig, hsig, hsigValue⟩ := Option.bind_eq_some_iff.mp hw
  have hfield : ∀ key, v.field [key] = Json.lookup obj key := fun key => by
    rw [Value.field_singleton, Value.get_of_asObject hobj]
  have hfieldSig : ∀ key, v.field ["signature", key] = Json.lookup sig key := fun key => by
    rw [Value.field, hsignature, Option.bind_some, Value.field_singleton,
      Value.get_of_asObject hsig]
  obtain ⟨timeText, htimeText, htime⟩ := h.timestamp
  obtain ⟨rootText, hrootText, hroot⟩ := h.root
  obtain ⟨suiteText, hsuiteText, hsuite⟩ := h.suite
  obtain ⟨keyIdText, hkeyIdText, hkeyId⟩ := h.keyId
  have hlogId := h.logId
  have htreeSize := h.treeSize
  rw [hfield] at hlogId htreeSize htimeText hrootText
  rw [hfieldSig] at hsuiteText hkeyIdText
  have htime' : (parseTimestamp timeText).toOption = some sth.timestamp := by rw [htime]; rfl
  rw [sthFromJson]
  simp only [hobj, hlogId, htreeSize, htimeText, Option.bind_some, htime', hrootText, hroot,
    hlookup, hsig, hsuiteText, hsuite, hkeyIdText, hkeyId, hsigValue, okOrT_some, pure_bind]
  cases hbytes : hexDecode text with
  | none => rfl
  | some bytes => cases bytes <;> rfl

section

variable {sth : SignedTreeHead} {bytes : List UInt8}

/-- The fields of a head and of its signature, with this text in place of the bytes. -/
theorem readsAs_of_lookup (hforms : RecordTextForms) (hsignature : SignatureTextForms)
    {fields sig : List (String × Value)} {text : String}
    (hlogId : Json.lookup fields.reverse "log_id" = some (.string sth.logId))
    (htreeSize : Json.lookup fields.reverse "tree_size" =
      some (.number (.posInt sth.treeSize)))
    (htimestamp : Json.lookup fields.reverse "timestamp" =
      some (.string (timestampToString sth.timestamp)))
    (hroot : Json.lookup fields.reverse "root" = some (.string (hex sth.root)))
    (hsig : Json.lookup fields.reverse "signature" = some (.ofFields sig))
    (hsuite : Json.lookup sig.reverse "suite" =
      some (.string (suiteAsStr sth.signature.suite)))
    (hkeyId : Json.lookup sig.reverse "key_id" =
      some (.string (keyIdAsStr sth.signature.keyId)))
    (hvalue : Json.lookup sig.reverse "value" = some (.string text)) :
    ReadsAs (.ofFields fields) sth text := by
  have hfield : ∀ key, (Value.ofFields fields).field [key] = Json.lookup fields.reverse key :=
    fun key => by rw [Value.field_singleton, Value.get_ofFields]
  have hfieldSig : ∀ key, (Value.ofFields fields).field ["signature", key] =
      Json.lookup sig.reverse key := fun key => by
    rw [Value.field_ofFields, hsig, Option.bind_some, Value.field_singleton, Value.get_ofFields]
  constructor
  · rw [hfield, hlogId]
    rfl
  · rw [hfield, htreeSize]
    rfl
  · exact ⟨_, by rw [hfield, htimestamp]; rfl, hforms.parseTimestamp_toString _⟩
  · exact ⟨_, by rw [hfield, hroot]; rfl, hforms.fromHex_hex _⟩
  · exact ⟨_, by rw [hfieldSig, hsuite]; rfl, hsignature.parseSuite_asStr _⟩
  · exact ⟨_, by rw [hfieldSig, hkeyId]; rfl, hsignature.newKeyId_asStr _⟩
  · rw [hfieldSig, hvalue]

theorem readsAs_sthJson (hforms : RecordTextForms) (hsignature : SignatureTextForms)
    (hbytes : sth.signature.signature = some bytes) :
    ReadsAs (sthJson sth) sth (hexEncode bytes) := by
  rw [sthJson, signatureJson, hbytes]
  exact readsAs_of_lookup hforms hsignature rfl rfl rfl rfl rfl rfl rfl rfl

/-- A head is read back from a view of it that has its own signature's text. -/
theorem ReadsAs.read_back {v : Value} (h : ReadsAs v sth (hexEncode bytes))
    (hbytes : sth.signature.signature = some bytes) : sthFromJson v = pure sth := by
  have hsame : sth.withSignature bytes = sth := by
    rw [SignedTreeHead.withSignature, ← hbytes]
  have hread := h.read
  rw [hexDecode_hexEncode, Option.map_some, okOr_some, Except.map, hsame] at hread
  exact hread

theorem sthFromJson_sthJson (hforms : RecordTextForms) (hsignature : SignatureTextForms)
    (hbytes : sth.signature.signature = some bytes) : sthFromJson (sthJson sth) = pure sth :=
  (readsAs_sthJson hforms hsignature hbytes).read_back hbytes

end

theorem nodeFromJson_nodeJson (hforms : RecordTextForms) (node : ProofNode) :
    nodeFromJson (nodeJson node) = .ok node := by
  obtain ⟨sibling, side⟩ := node
  cases side <;>
    simp [nodeFromJson, nodeJson, Value.get_ofFields, Json.lookup_cons, Value.asStr, sideStr,
      hforms.fromHex_hex, pure, Except.pure]

theorem mapM_nodeFromJson (hforms : RecordTextForms) (nodes : List ProofNode) :
    (nodes.map nodeJson).mapM nodeFromJson = .ok nodes := by
  induction nodes with
  | nil => rfl
  | cons node rest ih =>
      rw [List.map_cons, List.mapM_cons, nodeFromJson_nodeJson hforms, ok_bind, ih]
      rfl

theorem proofFromJson_proofJson (hforms : RecordTextForms) (proof : InclusionProof)
    (commitment : Hash) : proofFromJson (proofJson proof commitment) = .ok proof := by
  have hpath := mapM_nodeFromJson hforms proof.path
  simp [proofFromJson, proofJson, Value.lookup_collect_nil, Json.lookup_cons, Value.asU64,
    Json.Number.asU64, Value.asArray, hpath]

theorem plain_signatureJson (slot : SignatureSlot Suite KeyId) :
    (signatureJson slot).Plain ∧ (signatureJson slot).depth ≤ 1 := by
  constructor
  · refine Value.plain_ofFields ?_
    cases slot.signature <;> simp [Value.Plain]
  · refine Value.depth_ofFields_le ?_
    cases slot.signature <;> simp [Value.depth]

theorem plain_sthJson (sth : SignedTreeHead) :
    (sthJson sth).Plain ∧ (sthJson sth).depth ≤ 2 := by
  obtain ⟨hplain, hdepth⟩ := plain_signatureJson sth.signature
  constructor
  · refine Value.plain_ofFields ?_
    simp [Value.Plain, hplain]
  · refine Value.depth_ofFields_le ?_
    simp [Value.depth, hdepth]

theorem plain_nodeJson (node : ProofNode) :
    (nodeJson node).Plain ∧ (nodeJson node).depth ≤ 1 := by
  constructor
  · exact Value.plain_ofFields (by simp [Value.Plain])
  · exact Value.depth_ofFields_le (by simp [Value.depth])

theorem plain_proofJson (proof : InclusionProof) (commitment : Hash) :
    (proofJson proof commitment).Plain ∧ (proofJson proof commitment).depth ≤ 3 := by
  have hpath : ∀ v ∈ proof.path.map nodeJson, v.Plain ∧ v.depth ≤ 1 := by
    intro v hv
    obtain ⟨node, -, rfl⟩ := List.mem_map.mp hv
    exact plain_nodeJson node
  have hdepth := Value.depth_array_le fun v hv => (hpath v hv).2
  constructor
  · refine Value.plain_ofFields ?_
    simpa [Value.Plain, Value.plainItems_iff] using fun node _ => (plain_nodeJson node).1
  · refine Value.depth_ofFields_le ?_
    simp [Value.depth] at hdepth ⊢
    omega

/-- A receipt is plain JSON, four brackets deep. -/
theorem Receipt.plain_toJson (receipt : Receipt) {operatorInfo : Value}
    (hplain : operatorInfo.Plain) (hdepth : operatorInfo.depth ≤ 3) :
    (receipt.toJson operatorInfo).Plain ∧ (receipt.toJson operatorInfo).depth ≤ 4 := by
  obtain ⟨hproof, hproof'⟩ := plain_proofJson receipt.inclusion receipt.record.commitment
  obtain ⟨hsth, hsth'⟩ := plain_sthJson receipt.treeHead
  have hsalt : (CommitRecord.saltRefJson receipt.record.saltRef).Plain ∧
      (CommitRecord.saltRefJson receipt.record.saltRef).depth = 0 := by
    cases receipt.record.saltRef <;>
      exact ⟨by simp [CommitRecord.saltRefJson, Value.Plain],
        by simp [CommitRecord.saltRefJson, Value.depth]⟩
  constructor
  · refine Value.plain_ofFields ?_
    simp [Value.Plain, hproof, hsth, hsalt.1, hplain]
  · refine Value.depth_ofFields_le ?_
    simp [Value.depth, hsalt.2, hproof', hdepth]
    omega

end UnidppLog
