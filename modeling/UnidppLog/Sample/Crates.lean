/-
# Sample crates

A concrete hash, time stamp, signature and JSON library, to run the service on
an example. The text forms are the real ones, and JSON is read and printed as
the grammar has it; the hash and the signature are short stand-ins for SHA-256
and Ed25519, with the widths of the real ones.
-/

import UnidppLog.Crates
import UnidppLog.Hex
import UnidppLog.Json.Reader
import UnidppLog.Text.Utf8

namespace UnidppLog.Sample

/-- A digest of 32 bytes. -/
abbrev Hash : Type :=
  {bytes : List UInt8 // bytes.length = 32}

/-- A stand-in for SHA-256. -/
def digest (bytes : List UInt8) : Hash :=
  ⟨(List.range 32).map fun i =>
    UInt8.ofNat (bytes.foldl (fun acc b => acc * 263 + b.toNat + i) i % 65521), by simp⟩

def hex (h : Hash) : String :=
  String.ofList (Hex.text h.val)

def fromHex (s : String) : Option Hash := do
  let bytes ← Hex.read s.toList
  if hlength : bytes.length = 32 then some ⟨bytes, hlength⟩ else none

/-- The seconds of the first minute of the epoch. -/
abbrev Timestamp : Type :=
  Fin 60

def timestampText (t : Timestamp) : List Char :=
  "1970-01-01T00:00:".toList ++
    [Nat.digitChar (t.val / 10), Nat.digitChar (t.val % 10), 'Z']

def parseTimestamp (s : String) : Except String Timestamp :=
  match (List.finRange 60).find? fun t => timestampText t = s.toList with
  | some t => .ok t
  | none => .error "not a second of the first minute"

/-- The suites with real signatures. -/
inductive Suite
  | ed25519
  | ecdsaP256

def Suite.asStr : Suite → String
  | .ed25519 => "ed25519"
  | .ecdsaP256 => "ecdsa-p256"

def parseSuite (token : String) : Except String Suite :=
  if token = "ed25519" then .ok .ed25519
  else if token = "ecdsa-p256" then .ok .ecdsaP256
  else .error "unknown suite"

structure KeyPair where
  suite : Suite
  seed : List UInt8

def KeyPair.public (key : KeyPair) : List UInt8 :=
  (digest key.seed).val

def KeyPair.id (key : KeyPair) : String :=
  String.ofList (Hex.text (key.public.take 8))

/-- A stand-in for a signature of 64 bytes. -/
def signature (publicKey bytes : List UInt8) : List UInt8 :=
  (digest (publicKey ++ bytes)).val ++ (digest (bytes ++ publicKey)).val

scoped instance crates : Unidpp where
  Hash := Hash
  decEqHash := inferInstance
  zeroHash := ⟨List.replicate 32 0, by simp⟩
  hex := hex
  fromHex := fromHex
  Timestamp := Timestamp
  timestampToString t := String.ofList (timestampText t)
  parseTimestamp := parseTimestamp
  leafHash h := digest (1 :: h.val)
  nodeHash l r := digest (2 :: (l.val ++ r.val))
  Suite := Suite
  suiteAsStr := Suite.asStr
  parseSuite := parseSuite
  KeyId := String
  keyIdAsStr k := k
  newKeyId s := .ok s
  PublicKey := List UInt8
  publicKeyBytes k := k
  publicKeyToString k := String.ofList (Hex.text k)
  KeyPair := KeyPair
  seeded suite seed := .ok ⟨suite, seed⟩
  publicKey := KeyPair.public
  keyId := KeyPair.id
  canonicalBytes logId treeSize t root :=
    Text.encode (logId.toList ++ Nat.toDigits 10 treeSize.toNat ++ timestampText t) ++ root.val
  sign key _ bytes :=
    .ok { suite := key.suite, keyId := key.id, signature := some (signature key.public bytes) }
  verifySlot publicKey _ bytes slot := slot.signature = some (signature publicKey bytes)

scoped instance serdeJson : SerdeJson where
  fromStr s := Json.read s.toList
  toString v := .ok (String.ofList v.compact)
  toStringPretty v := .ok (String.ofList v.pretty)

theorem timestampText_injective {t t' : Timestamp} (heq : timestampText t = timestampText t') :
    t = t' := by
  have hdigits := List.append_cancel_left heq
  simp only [List.cons.injEq, and_true] at hdigits
  obtain ⟨htens, hones⟩ := hdigits
  have hvalue : ∀ {m n : ℕ}, m < 16 → n < 16 → Nat.digitChar m = Nat.digitChar n → m = n := by
    intro m n hm hn hchar
    have := (Hex.value_digitChar hm).symm.trans (hchar ▸ Hex.value_digitChar hn)
    exact Option.some.inj this
  have h₁ := hvalue (by omega) (by omega) htens
  have h₂ := hvalue (by omega) (by omega) hones
  exact Fin.ext (by omega)

theorem fromHex_hex (h : Hash) : fromHex (hex h) = some h := by
  simp [fromHex, hex, Hex.read_text h.val, h.property]

theorem parseTimestamp_timestampText (t : Timestamp) :
    parseTimestamp (String.ofList (timestampText t)) = .ok t := by
  simp only [parseTimestamp, String.toList_ofList]
  split
  · next t' hfind =>
    have heq := List.find?_some hfind
    rw [timestampText_injective (of_decide_eq_true heq)]
  · next hnone =>
    have hall := List.find?_eq_none.mp hnone t (List.mem_finRange t)
    simp at hall

theorem recordTextForms : RecordTextForms where
  fromHex_hex := fromHex_hex
  parseTimestamp_toString := parseTimestamp_timestampText

theorem read_ofList {layout : Json.Layout} (hblank : layout.Blank) {v : Json.Value}
    (hplain : v.Plain) :
    Json.read (String.ofList (v.render layout 0)).toList = .ok v := by
  rw [String.toList_ofList, Json.read_render hblank hplain]

theorem serdeJson_conforms : SerdeJson.Conforms where
  toString_compact _ _ := rfl
  toString_pretty _ _ := rfl
  fromStr_compact _ hplain _ := read_ofList Json.Layout.blank_compact hplain
  fromStr_pretty _ hplain _ := read_ofList Json.Layout.blank_pretty hplain
  objectText_of_fromStr _ _ hread := Json.objectText_of_read hread

end UnidppLog.Sample
