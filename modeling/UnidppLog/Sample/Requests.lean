/-
# Sample requests

The shared state over the sample log, and the bodies that ask it for an append.
-/

import UnidppLog.Api

namespace UnidppLog.Sample

open Json (Value)
open Unidpp (publicKey)
open Text (trim encode)

def operatorConfig : OperatorConfig where
  logId := logId
  suite := .ed25519
  seed := "unidpp-log-dev-seed-v1"

/-- The service over a store. -/
def app (store : LogStore) : AppState where
  appendToken := none
  operator := { config := operatorConfig, key := operator, pubKey := publicKey operator }
  store := store

/-- What a client sends to have a commitment sequenced under a subject. -/
def commitJson (subject : String) (commitment : Hash) : Value :=
  .ofFields [("subject", .string subject), ("commitment", .string (hex commitment))]

def body (subject : String) (commitment : Hash) : String :=
  String.ofList (commitJson subject commitment).compact

theorem isWhitespace_digitChar {n : ℕ} (hn : n < 16) :
    Text.isWhitespace (Nat.digitChar n) = false := by
  have hall : ∀ m : Fin 16, Text.isWhitespace (Nat.digitChar m) = false := by decide
  exact hall ⟨n, hn⟩

theorem trim_hex (h : Hash) : trim (hex h).toList = (hex h).toList := by
  refine Text.trim_eq_self fun c hc => ?_
  rw [hex, String.toList_ofList, Hex.text, List.mem_flatMap] at hc
  obtain ⟨b, -, hc⟩ := hc
  have hb : b.toNat < 256 := b.toNat_lt
  simp only [Hex.digits, List.mem_cons, List.not_mem_nil, or_false] at hc
  rcases hc with rfl | rfl
  · exact isWhitespace_digitChar (by omega)
  · exact isWhitespace_digitChar (Nat.mod_lt _ (by decide))

/-- A text without blanks at its ends is taken as it is. -/
theorem reqStr_of_get {v : Value} {key s : String} (hget : v.get key = some (.string s))
    (htrim : trim s.toList = s.toList) (hne : s.toList ≠ []) : reqStr v key = .ok s := by
  have hfilter : Option.filter (· ≠ []) (some s.toList) = some s.toList := by
    rw [Option.filter_some, if_pos (by simpa using hne)]
  rw [reqStr, hget]
  simp only [Option.bind_some, Value.asStr, Option.map_some, htrim, hfilter, String.ofList_toList,
    okOr_some]

theorem read_body (subject : String) (commitment : Hash) :
    SerdeJson.fromStr (body subject commitment) = .ok (commitJson subject commitment) := by
  have hplain : (commitJson subject commitment).Plain :=
    Value.plain_ofFields (by simp [Value.Plain])
  have hdepth : (commitJson subject commitment).depth ≤ 1 :=
    Value.depth_ofFields_le (by simp [Value.depth])
  exact serdeJson_conforms.fromStr_compact _ hplain (by omega)

theorem subject_commitJson (subject : String) (commitment : Hash) :
    (commitJson subject commitment).get "subject" = some (.string subject) := by
  simp [commitJson, Value.get_ofFields, Json.lookup_cons]

/-- A subject without blanks at its ends is sequenced as it is sent. -/
theorem parseCommit_body {subject : String} (htrim : trim subject.toList = subject.toList)
    (hne : subject.toList ≠ []) (hlength : (encode subject.toList).length ≤ 512)
    (commitment : Hash) (second : Fin 60) :
    parseCommit (body subject commitment) second =
      .ok { request second subject with commitment } := by
  set v := commitJson subject commitment with hv
  have hread : SerdeJson.fromStr (body subject commitment) = .ok v := read_body _ _
  have hsubject : v.get "subject" = some (.string subject) := subject_commitJson _ _
  have hcommitment : v.get "commitment" = some (.string (hex commitment)) := by
    simp [hv, commitJson, Value.get_ofFields, Json.lookup_cons]
  have hsalt : v.get "salt_ref" = none := by
    rw [hv, commitJson, Value.get_ofFields]
    simp only [List.reverse_cons, List.reverse_nil, List.nil_append, List.cons_append,
      Json.lookup_cons]
    rfl
  have hhex : (hex commitment).toList ≠ [] := by
    intro hnil
    have hback := fromHex_hex commitment
    rw [fromHex, hnil] at hback
    simp [Hex.read] at hback
  have hdigest : reqCommitment v = .ok commitment := by
    rw [reqCommitment, reqStr_of_get hcommitment (trim_hex _) hhex, ok_bind]
    exact congrArg (okOr · _) (fromHex_hex _)
  rw [parseCommit, parseBody, hread]
  simp only [ok_bind, reqStr_of_get hsubject htrim hne, hdigest, optU64, hsalt,
    if_neg (Nat.not_lt.mpr hlength)]
  rfl

end UnidppLog.Sample
