/-
# The HTTP handlers

Appending a commitment, serving a receipt and proving consistency, each as a
function of the shared state. A handler's outer `none` is a panic. A request is
what the router hands to the handler: the text of a header, of the body, of a
path segment or of a query parameter.
-/

import UnidppLog.Keyring

namespace UnidppLog

open Json (Value)
open Unidpp
open Text (trim encode)

/-- A response. -/
structure Response where
  status : ℕ
  contentType : String
  body : String

/-- `str::parse::<u64>`: decimal digits, a plus sign in front of them allowed. -/
def parseU64 (cs : List Char) : Option UInt64 :=
  let digits :=
    match cs with
    | '+' :: rest => rest
    | cs => cs
  let n := Nat.ofDigitChars 10 digits 0
  if digits ≠ [] ∧ digits.all Char.isDigit ∧ n < 2 ^ 64 then some (UInt64.ofNat n) else none

/-- A number is read back from its decimal digits. -/
theorem parseU64_toString (n : UInt64) : parseU64 (trim (ToString.toString n).toList) = some n := by
  have htext : (ToString.toString n).toList = Nat.toDigits 10 n.toNat := String.toList_ofList
  have hdigits := Json.digits_toDigits n.toNat
  have hlt := n.toNat_lt
  have htrim : trim (Nat.toDigits 10 n.toNat) = Nat.toDigits 10 n.toNat :=
    Text.trim_eq_self fun c hc => Text.isWhitespace_of_isDigit (hdigits.2 c hc)
  rw [htext, htrim, parseU64, Nat.ofDigitChars_ten_toDigits,
    if_pos ⟨hdigits.1, by simpa using hdigits.2, hlt⟩, UInt64.ofNat_toNat]
  intro rest hcons
  have hplus := hdigits.2 '+' (by simp [hcons])
  simp at hplus

/-- `str::strip_prefix`. -/
def stripPrefix (start s : String) : Option String :=
  if start.toList <+: s.toList then some (String.ofList (s.toList.drop start.toList.length))
  else none

section

variable [SerdeJson]

def jsonResponse (status : ℕ) (body : Value) : Option Response :=
  match SerdeJson.toStringPretty body with
  | .error _ => none
  | .ok body => some { status, contentType := "application/json", body }

variable {status : ℕ} {response : Response}

theorem status_of_jsonResponse {v : Value} (h : jsonResponse status v = some response) :
    response.status = status := by
  rw [jsonResponse] at h
  split at h
  · simp at h
  · obtain rfl := Option.some.inj h
    rfl

/-- A plain value of a few brackets is sent. -/
theorem exists_jsonResponse (hjson : SerdeJson.Conforms) (status : ℕ) {v : Value}
    (hplain : v.Plain) : ∃ response, jsonResponse status v = some response := by
  rw [jsonResponse, hjson.toString_pretty v hplain]
  exact ⟨_, rfl⟩

/-- A plain value of a few brackets is read back from the body. -/
theorem fromStr_body (hjson : SerdeJson.Conforms) {v : Value} (hplain : v.Plain)
    (hdepth : v.depth < 128) (h : jsonResponse status v = some response) :
    SerdeJson.fromStr response.body = .ok v := by
  rw [jsonResponse, hjson.toString_pretty v hplain] at h
  obtain rfl := Option.some.inj h
  exact hjson.fromStr_pretty v hplain hdepth

def errorResponse (status : ℕ) (msg : String) : Option Response :=
  jsonResponse status (.ofFields [("error", .string msg)])

def badRequest (msg : String) : Option Response :=
  errorResponse 400 msg

def notFound (msg : String) : Option Response :=
  errorResponse 404 msg

def unauthorized : Option Response :=
  errorResponse 401 "unauthorized"

def storeError (e : StoreError) : Option Response :=
  errorResponse 500 e.toString

/-- The body as a JSON value, or the message of a bad request. -/
def parseBody (body : String) : Except String Value :=
  match SerdeJson.fromStr body with
  | .ok v => .ok v
  | .error e => .error s!"invalid JSON body: {e}"

def reqStr (v : Value) (key : String) : Except String String :=
  let trimmed := ((v.get key).bind Value.asStr).map fun s => trim s.toList
  okOr ((trimmed.filter (· ≠ [])).map String.ofList) s!"`{key}` is required"

def optU64 (v : Value) (key : String) : Except String (Option UInt64) :=
  match v.get key with
  | none => .ok none
  | some .null => .ok none
  | some (.number n) => (okOr n.asU64 s!"`{key}` must be an unsigned integer").map some
  | some _ => .error s!"`{key}` must be an unsigned integer"

end

variable [Unidpp] [SerdeJson]

/-- The shared state. -/
structure AppState where
  appendToken : Option String
  operator : Operator
  store : LogStore

def reqCommitment (v : Value) : Except String Hash := do
  let s ← reqStr v "commitment"
  okOr (fromHex s) "`commitment` must be a 64-character hex SHA-256 value"

/-- The append that a body asks for, at the server's time. -/
def parseCommit (body : String) (now : Timestamp) : Except String AppendRequest := do
  let v ← parseBody body
  let subject ← reqStr v "subject"
  if 512 < (encode subject.toList).length then
    .error "`subject` must be at most 512 characters"
  let commitment ← reqCommitment v
  let saltRef ← optU64 v "salt_ref"
  return { subject, commitment, saltRef, loggedAt := now }

namespace AppState

/-- Whether the append token, if there is one, is the bearer token of the
request. -/
def allowsAppend (app : AppState) (authorization : Option String) : Bool :=
  match app.appendToken with
  | none => true
  | some token => authorization.bind (stripPrefix "Bearer ") = some token

/-- `POST /commitments`, without the exchange with an external time stamp service,
which follows the append and does not change the answer. -/
def commit (app : AppState) (authorization : Option String) (body : String) (now : Timestamp)
    (outcome : WriteOutcome) : Option (Response × AppState) :=
  if app.allowsAppend authorization = false then do
    return (← unauthorized, app)
  else
    match parseCommit body now with
    | .error msg => do
      return (← badRequest msg, app)
    | .ok request => do
      match ← app.store.append request outcome with
      | (.error e, store) => return (← storeError e, { app with store })
      | (.ok record, store) =>
        let receipt ← (← Receipt.of store record.seq app.operator.logId app.operator.key)
        return (← jsonResponse 201 (receipt.toJson app.operator.info), { app with store })

/-- `GET /receipt/{seq}`. -/
def receipt (app : AppState) (seq : String) : Option Response :=
  match parseU64 (trim seq.toList) with
  | none => badRequest "`seq` must be an unsigned integer"
  | some seq => do
    match ← Receipt.of app.store seq app.operator.logId app.operator.key with
    | some r => jsonResponse 200 (r.toJson app.operator.info)
    | none => notFound s!"no receipt for seq {seq}"

/-- The hexadecimal text of a root, if there is one. -/
def rootJson (root : Option Hash) : Value :=
  match root with
  | some h => .string (hex h)
  | none => .null

/-- `GET /tree/consistency?from=N`. -/
def treeConsistency (app : AppState) (params : String → Option String) : Option Response :=
  match (params "from").map fun s => trim s.toList with
  | none => badRequest "`from` is required (the pinned tree size)"
  | some [] => badRequest "`from` is required (the pinned tree size)"
  | some s =>
    match parseU64 s with
    | none => badRequest "`from` must be an unsigned integer"
    | some oldSize =>
      if app.store.size < oldSize then
        badRequest
          s!"`from` ({oldSize}) is larger than the current tree size ({app.store.size})"
      else do
        let root ← app.store.root
        let oldRoot ← app.store.rootAtSize oldSize
        let path ← app.store.consistencyPath oldSize
        jsonResponse 200 (.ofFields [
          ("log_id", .string app.operator.logId),
          ("old_size", .number (.posInt oldSize)),
          ("old_root", rootJson oldRoot),
          ("new_size", .number (.posInt app.store.size)),
          ("new_root", rootJson root),
          ("path", .array (path.map fun h => .string (hex h))),
          ("operator", app.operator.info)])

end AppState

end UnidppLog
