/-
# What is posted to the authority

The URL that is configured, the connection it leads to, and the request that is written
to it. Which texts are read as an endpoint is said exactly. What the authority reads is
said from its end: where the head stops and how many bytes it announces behind it.
-/

import UnidppLog.Replies
import UnidppLog.Router
import UnidppLog.Text.Blocks

namespace UnidppLog

open Text (First decodeLossy textLines encode splitOnce rsplitOnce)

/-- What a URL leads to. -/
structure Endpoint where
  host : List Char
  port : ℕ
  path : List Char
  deriving DecidableEq

/-- The authority of a URL, and its path. -/
def splitPath (rest : List Char) : List Char × List Char :=
  match splitOnce '/' rest with
  | some (authority, path) => (authority, '/' :: path)
  | none => (rest, ['/'])

/-- The host of an authority, and its port. -/
def splitPort (url : String) (authority : List Char) : Except String (List Char × ℕ) :=
  match rsplitOnce ':' authority with
  | some (host, port) =>
    match parseUnsigned 10 16 port with
    | some port => .ok (host, port)
    | none => .error s!"bad port in `{url}`"
  | none => .ok (authority, 80)

def parseHttpUrl (url : String) : Except String Endpoint :=
  match stripPrefix "http://" url with
  | none => .error s!"`{url}`: only plain http:// TSA endpoints (terminate TLS at a proxy)"
  | some rest =>
    match splitPort url (splitPath rest.toList).1 with
    | .error e => .error e
    | .ok (host, port) =>
      if host = [] then .error s!"`{url}`: no host"
      else .ok { host, port, path := (splitPath rest.toList).2 }

example : parseHttpUrl "http://tsa.example.org:8180/tsa" =
    .ok ⟨"tsa.example.org".toList, 8180, "/tsa".toList⟩ := by decide +kernel

/-- What becomes of the connection to the authority: where it fails and why, or the bytes that
are read from it until it is closed. -/
inductive Connection
  | connectTimeout
  | connectError (e : String)
  | writeError (e : String)
  | writeBodyError (e : String)
  | shutdownError (e : String)
  | readTimeout
  | readError (e : String)
  | closed (reply : List UInt8)

def Connection.reply : Connection → Except String (List UInt8)
  | connectTimeout => .error "connect timeout"
  | connectError e => .error s!"connect: {e}"
  | writeError e => .error s!"write: {e}"
  | writeBodyError e => .error s!"write body: {e}"
  | shutdownError e => .error s!"shutdown: {e}"
  | readTimeout => .error "read timeout"
  | readError e => .error s!"read: {e}"
  | closed reply => .ok reply

/-- The connection to a host and a port that a request is written to. -/
abbrev Network : Type :=
  List Char → ℕ → List UInt8 → Connection

/-- The head of a request, with the blank line behind it. -/
def requestHead (endpoint : Endpoint) (contentType : List Char) (length : ℕ) : List Char :=
  "POST ".toList ++ endpoint.path ++ " HTTP/1.1\r\nHost: ".toList ++ endpoint.host ++
    "\r\nContent-Type: ".toList ++ contentType ++ "\r\nContent-Length: ".toList ++
      Nat.toDigits 10 length ++
        "\r\nConnection: close\r\nAccept: application/timestamp-reply\r\n\r\n".toList

/-- The bytes of a request. -/
def requestBytes (endpoint : Endpoint) (contentType : List Char) (body : List UInt8) :
    List UInt8 :=
  encode (requestHead endpoint contentType body.length) ++ body

/-- The exchange. An outer `none` is a panic. -/
def httpPostBinary (network : Network) (url : String) (contentType : List Char)
    (body : List UInt8) : Option (Except String (List UInt8)) :=
  match parseHttpUrl url with
  | .error e => some (.error e)
  | .ok endpoint =>
    match (network endpoint.host endpoint.port (requestBytes endpoint contentType body)).reply with
    | .error e => some (.error e)
    | .ok text => decodeReply text

section

variable [Unidpp] [ExternalAnchoring]

/-- What a submission waits for: its query is posted. -/
def postQuery (network : Network) (anchor : ExternalAnchor) (tsaUrl : String) :
    Option (Except String (List UInt8)) :=
  httpPostBinary network tsaUrl "application/timestamp-query".toList anchor.payload

end

theorem splitPath_eq_iff {rest authority path : List Char} :
    splitPath rest = (authority, path) ↔ '/' ∉ authority ∧
      (rest = authority ++ path ∧ path.head? = some '/' ∨ rest = authority ∧ path = ['/']) := by
  rw [splitPath]
  cases hcut : splitOnce '/' rest with
  | none =>
      have hnot := Text.splitOnce_eq_none_iff.mp hcut
      constructor
      · intro heq
        obtain ⟨rfl, rfl⟩ := Prod.mk.inj heq
        exact ⟨hnot, .inr ⟨rfl, rfl⟩⟩
      · rintro ⟨-, ⟨rfl, hhead⟩ | ⟨rfl, rfl⟩⟩
        · exact absurd (List.mem_append_right _ (List.mem_of_mem_head? hhead)) hnot
        · rfl
  | some cut =>
      obtain ⟨front, back⟩ := cut
      obtain ⟨rfl, hnot⟩ := Text.splitOnce_eq_some_iff.mp hcut
      constructor
      · intro heq
        obtain ⟨rfl, rfl⟩ := Prod.mk.inj heq
        exact ⟨hnot, .inl ⟨rfl, rfl⟩⟩
      · rintro ⟨hauthority, ⟨hrest, hhead⟩ | ⟨rfl, -⟩⟩
        · obtain ⟨more, rfl⟩ : ∃ more, path = '/' :: more := by
            cases path with
            | nil => simp at hhead
            | cons c more =>
                obtain rfl : c = '/' := by simpa using hhead
                exact ⟨more, rfl⟩
          rw [hrest, Text.splitOnce_eq_some_iff.mpr ⟨rfl, hauthority⟩] at hcut
          obtain ⟨rfl, rfl⟩ := Prod.mk.inj (Option.some.inj hcut)
          rfl
        · simp at hauthority

theorem splitPort_eq_ok_iff {url : String} {authority host : List Char} {port : ℕ} :
    splitPort url authority = .ok (host, port) ↔
      (∃ digits, authority = host ++ ':' :: digits ∧ ':' ∉ digits ∧
          parseUnsigned 10 16 digits = some port) ∨
        authority = host ∧ ':' ∉ host ∧ port = 80 := by
  rw [splitPort]
  cases hcut : rsplitOnce ':' authority with
  | none =>
      have hnot := Text.rsplitOnce_eq_none_iff.mp hcut
      constructor
      · intro heq
        obtain ⟨rfl, rfl⟩ := Prod.mk.inj (Except.ok.inj heq)
        exact .inr ⟨rfl, hnot, rfl⟩
      · rintro (⟨digits, rfl, -⟩ | ⟨rfl, -, rfl⟩)
        · simp at hnot
        · rfl
  | some cut =>
      obtain ⟨front, digits⟩ := cut
      obtain ⟨rfl, hnot⟩ := Text.rsplitOnce_eq_some_iff.mp hcut
      constructor
      · intro heq
        cases hport : parseUnsigned 10 16 digits with
        | none => simp [hport] at heq
        | some n =>
            simp only [hport, Except.ok.injEq, Prod.mk.injEq] at heq
            obtain ⟨rfl, rfl⟩ := heq
            exact .inl ⟨digits, rfl, hnot, hport⟩
      · rintro (⟨digits', heq, hnot', hport⟩ | ⟨rfl, hhost, -⟩)
        · rw [heq, Text.rsplitOnce_eq_some_iff.mpr ⟨rfl, hnot'⟩] at hcut
          obtain ⟨rfl, rfl⟩ := Prod.mk.inj (Option.some.inj hcut)
          simp only [hport]
        · simp at hhost

/-- A URL leads to an endpoint: the port may be left out of it, and the path. A host may be
anything but empty that has no slash in it. -/
def Endpoint.LedToBy (endpoint : Endpoint) (url : String) : Prop :=
  endpoint.host ≠ [] ∧ ∃ authority rest,
    url.toList = "http://".toList ++ rest ∧ '/' ∉ authority ∧
    (rest = authority ++ endpoint.path ∧ endpoint.path.head? = some '/' ∨
      rest = authority ∧ endpoint.path = ['/']) ∧
    ((∃ digits, authority = endpoint.host ++ ':' :: digits ∧ ':' ∉ digits ∧
        parseUnsigned 10 16 digits = some endpoint.port) ∨
      authority = endpoint.host ∧ ':' ∉ endpoint.host ∧ endpoint.port = 80)

theorem parseHttpUrl_eq_ok_iff {url : String} {endpoint : Endpoint} :
    parseHttpUrl url = .ok endpoint ↔ endpoint.LedToBy url := by
  rw [parseHttpUrl]
  cases hstrip : stripPrefix "http://" url with
  | none =>
      refine iff_of_false (by simp) ?_
      rintro ⟨-, authority, rest, hurl, -⟩
      rw [stripPrefix, if_pos (hurl ▸ List.prefix_append _ _)] at hstrip
      simp at hstrip
  | some rest =>
      have hurl := eq_append_of_stripPrefix hstrip
      obtain ⟨host, port, path⟩ := endpoint
      constructor
      · intro h
        cases hsplit : splitPort url (splitPath rest.toList).1 with
        | error e => simp [hsplit] at h
        | ok cut =>
            obtain ⟨host', port'⟩ := cut
            simp only [hsplit] at h
            split at h
            · simp at h
            · next hne =>
              obtain ⟨rfl, rfl, rfl⟩ := Endpoint.mk.inj (Except.ok.inj h)
              obtain ⟨hauthority, hrest⟩ := splitPath_eq_iff.mp (Prod.mk.eta
                (p := splitPath rest.toList)).symm
              exact ⟨hne, _, _, hurl, hauthority, hrest, splitPort_eq_ok_iff.mp hsplit⟩
      · rintro ⟨hne, authority, rest', hurl', hauthority, hrest, hport⟩
        obtain rfl : rest.toList = rest' := List.append_cancel_left (hurl.symm.trans hurl')
        have hpath := splitPath_eq_iff.mpr ⟨hauthority, hrest⟩
        simp only [hpath, splitPort_eq_ok_iff.mpr hport, if_neg hne]

/-- The URL of an endpoint that leaves nothing out. -/
def Endpoint.url (endpoint : Endpoint) : String :=
  String.ofList ("http://".toList ++
    (endpoint.host ++ ':' :: Nat.toDigits 10 endpoint.port ++ endpoint.path))

theorem lt_of_parseUnsigned {radix bits n : ℕ} {cs : List Char}
    (h : parseUnsigned radix bits cs = some n) : n < 2 ^ bits := by
  unfold parseUnsigned at h
  simp only [Option.bind_eq_bind] at h
  split at h
  all_goals
    split at h
    · simp at h
    · obtain ⟨m, -, hm⟩ := Option.bind_eq_some_iff.mp h
      split at hm
      · next hlt => exact Option.some.inj hm ▸ hlt
      · simp at hm

/-- A URL is read as the endpoint is whose URL it stands for. -/
theorem Endpoint.LedToBy.url {endpoint : Endpoint} {url : String} (h : endpoint.LedToBy url) :
    endpoint.LedToBy endpoint.url := by
  obtain ⟨hne, authority, rest, -, hauthority, hrest, hport⟩ := h
  have hdigits := Text.isSome_digit_of_numberFrom
    (Text.numberFrom_toDigits (by decide) (by decide) endpoint.port : Text.numberFrom 10 0 _ = _)
  have hlt : endpoint.port < 2 ^ 16 := by
    rcases hport with ⟨digits, -, -, hdigits⟩ | ⟨-, -, hport⟩
    · exact lt_of_parseUnsigned hdigits
    · rw [hport]
      decide
  have hread : parseUnsigned 10 16 (Nat.toDigits 10 endpoint.port) = some endpoint.port :=
    parseUnsigned_of_number Nat.toDigits_ne_nil (Text.numberFrom_toDigits (by decide) (by decide) _)
      hlt
  have hcolon : ':' ∉ Nat.toDigits 10 endpoint.port := fun hmem =>
    Text.of_isSome_digit (p := (· ≠ ':')) (hdigits ':' hmem) (by decide) rfl
  have hslash : '/' ∉ Nat.toDigits 10 endpoint.port := fun hmem =>
    Text.of_isSome_digit (p := (· ≠ '/')) (hdigits '/' hmem) (by decide) rfl
  have hhost : '/' ∉ endpoint.host := by
    rcases hport with ⟨digits, rfl, -⟩ | ⟨rfl, -⟩
    · exact fun hmem => hauthority (List.mem_append_left _ hmem)
    · exact hauthority
  have hpath : endpoint.path.head? = some '/' := by
    rcases hrest with ⟨-, hhead⟩ | ⟨-, hpath⟩
    · exact hhead
    · rw [hpath]
      rfl
  refine ⟨hne, endpoint.host ++ ':' :: Nat.toDigits 10 endpoint.port, _,
    String.toList_ofList, ?_, .inl ⟨rfl, hpath⟩, .inl ⟨_, rfl, hcolon, hread⟩⟩
  simp [hhost, hslash]

/-- The lines of a request's head. -/
def requestLines (endpoint : Endpoint) (contentType : List Char) (length : ℕ) :
    List (List Char) :=
  ["POST ".toList ++ endpoint.path ++ " HTTP/1.1".toList,
    "Host: ".toList ++ endpoint.host,
    "Content-Type: ".toList ++ contentType,
    "Content-Length: ".toList ++ Nat.toDigits 10 length,
    "Connection: close".toList,
    "Accept: application/timestamp-reply".toList]

/-- The texts of a head between what is put into it end one line and start the next. -/
theorem joined_eq_block {post path version host type length : List Char}
    {toHost toType toLength toEnd hostName typeName lengthName connection accept : List Char}
    (hhost : toHost = version ++ '\r' :: '\n' :: hostName)
    (htype : toType = '\r' :: '\n' :: typeName)
    (hlength : toLength = '\r' :: '\n' :: lengthName)
    (hend : toEnd = '\r' :: '\n' :: (connection ++ '\r' :: '\n' ::
      (accept ++ ['\r', '\n', '\r', '\n']))) :
    post ++ path ++ toHost ++ host ++ toType ++ type ++ toLength ++ length ++ toEnd =
      Text.block [post ++ path ++ version, hostName ++ host, typeName ++ type,
        lengthName ++ length, connection, accept] ++ ['\r', '\n', '\r', '\n'] := by
  subst hhost htype hlength hend
  simp only [Text.block_cons_cons, Text.block_singleton, List.append_assoc, List.cons_append]

theorem requestHead_eq (endpoint : Endpoint) (contentType : List Char) (length : ℕ) :
    requestHead endpoint contentType length =
      Text.block (requestLines endpoint contentType length) ++ ['\r', '\n', '\r', '\n'] :=
  joined_eq_block (by decide) (by decide) (by decide) (by decide)

/-- What is in an endpoint was in the URL, but for the slash that stands for no path. -/
theorem Endpoint.LedToBy.not_mem {endpoint : Endpoint} {url : String} (h : endpoint.LedToBy url)
    {c : Char} (hc : c ≠ '/') (hurl : c ∉ url.toList) :
    c ∉ endpoint.host ∧ c ∉ endpoint.path := by
  obtain ⟨-, authority, rest, htext, -, hrest, hport⟩ := h
  have hrest' : c ∉ rest := fun hmem => hurl (htext ▸ List.mem_append_right _ hmem)
  have hsplit : c ∉ authority ∧ c ∉ endpoint.path := by
    rcases hrest with ⟨rfl, -⟩ | ⟨rfl, hpath⟩
    · simpa using hrest'
    · exact ⟨hrest', by simp [hpath, hc]⟩
  refine ⟨fun hmem => hsplit.1 ?_, hsplit.2⟩
  rcases hport with ⟨digits, rfl, -⟩ | ⟨rfl, -⟩
  · exact List.mem_append_left _ hmem
  · exact hmem

theorem isLine_of_mem_requestLines {endpoint : Endpoint} {contentType : List Char} {length : ℕ}
    (hreturn : '\r' ∉ endpoint.host ∧ '\r' ∉ endpoint.path ∧ '\r' ∉ contentType)
    (hfeed : '\n' ∉ endpoint.host ∧ '\n' ∉ endpoint.path ∧ '\n' ∉ contentType) :
    ∀ line ∈ requestLines endpoint contentType length, Text.IsLine line := by
  have hdigits := Text.isSome_digit_of_numberFrom
    (Text.numberFrom_toDigits (by decide) (by decide) length : Text.numberFrom 10 0 _ = _)
  have hreturn' : '\r' ∉ Nat.toDigits 10 length := fun hmem =>
    Text.of_isSome_digit (p := (· ≠ '\r')) (hdigits _ hmem) (by decide) rfl
  have hfeed' : '\n' ∉ Nat.toDigits 10 length := fun hmem =>
    Text.of_isSome_digit (p := (· ≠ '\n')) (hdigits _ hmem) (by decide) rfl
  simp only [requestLines, List.mem_cons, List.not_mem_nil, or_false]
  rintro line (rfl | rfl | rfl | rfl | rfl | rfl)
  all_goals
    constructor
    · simp
    · simp [hreturn, hreturn']
    · simp [hfeed, hfeed']

/-- A request as the other end reads it: behind the first blank line is the body, and in front
of it are these lines, which announce the length of the body. -/
structure FramesRequest (request : List UInt8) (lines : List (List Char)) (body : List UInt8) :
    Prop where
  whole : request = encode (Text.block lines) ++ terminator ++ body
  first : First terminator (encode (Text.block lines))
  read : textLines (decodeLossy (encode (Text.block lines))) = lines
  announced : GivesLength (decodeLossy (encode (Text.block lines))) body.length

theorem framesRequest_requestBytes {endpoint : Endpoint} {contentType : List Char}
    (hreturn : '\r' ∉ endpoint.host ∧ '\r' ∉ endpoint.path ∧ '\r' ∉ contentType)
    (hfeed : '\n' ∉ endpoint.host ∧ '\n' ∉ endpoint.path ∧ '\n' ∉ contentType)
    (body : List UInt8) :
    FramesRequest (requestBytes endpoint contentType body)
      (requestLines endpoint contentType body.length) body := by
  have hlines : ∀ line ∈ requestLines endpoint contentType body.length, Text.IsLine line :=
    isLine_of_mem_requestLines hreturn hfeed
  have hread := Text.textLines_block hlines
  refine ⟨?_, Text.first_block (by simp [requestLines]) hlines, ?_, ?_⟩
  · rw [requestBytes, requestHead_eq, Text.encode_append]
    rfl
  · rw [Text.decodeLossy_encode, hread]
  · rw [Text.decodeLossy_encode]
    refine ⟨["POST ".toList ++ endpoint.path ++ " HTTP/1.1".toList,
      "Host: ".toList ++ endpoint.host, "Content-Type: ".toList ++ contentType],
      "Content-Length: ".toList ++ Nat.toDigits 10 body.length,
      ["Connection: close".toList, "Accept: application/timestamp-reply".toList], hread, ?_,
      "Content-Length".toList, [' '], [], ?_, by decide, by simp; decide, by simp⟩
    · simp only [List.mem_cons, List.not_mem_nil, or_false]
      rintro line (rfl | rfl | rfl)
      all_goals simp [isLengthLine]
    · simp

theorem Endpoint.LedToBy.framesRequest {endpoint : Endpoint} {url : String}
    (h : endpoint.LedToBy url) {contentType : List Char}
    (hreturn : '\r' ∉ url.toList ∧ '\r' ∉ contentType)
    (hfeed : '\n' ∉ url.toList ∧ '\n' ∉ contentType) (body : List UInt8) :
    FramesRequest (requestBytes endpoint contentType body)
      (requestLines endpoint contentType body.length) body := by
  obtain ⟨hhost, hpath⟩ := h.not_mem (c := '\r') (by decide) hreturn.1
  obtain ⟨hhost', hpath'⟩ := h.not_mem (c := '\n') (by decide) hfeed.1
  exact framesRequest_requestBytes ⟨hhost, hpath, hreturn.2⟩ ⟨hhost', hpath', hfeed.2⟩ body

theorem Endpoint.LedToBy.httpPostBinary_eq {endpoint : Endpoint} {url : String}
    (h : endpoint.LedToBy url) (network : Network) (contentType : List Char)
    (body : List UInt8) :
    httpPostBinary network url contentType body =
      match (network endpoint.host endpoint.port
        (requestBytes endpoint contentType body)).reply with
      | .error e => some (.error e)
      | .ok text => decodeReply text := by
  rw [httpPostBinary, parseHttpUrl_eq_ok_iff.mpr h]

/-- What is posted to a URL goes where the URL leads, and nowhere if it leads nowhere: then
nothing is sent. The URL without anything left out does as well. If there are no line ends in
the URL and the content type, whoever reads the request up to its first blank line has the
lines that were meant, and behind it the body, whatever bytes it is of. -/
theorem httpPostBinary_framed (url : String) (contentType : List Char) (body : List UInt8) :
    ((∀ endpoint : Endpoint, ¬ endpoint.LedToBy url) →
      ∃ e, ∀ network, httpPostBinary network url contentType body = some (.error e)) ∧
    ∀ endpoint : Endpoint, endpoint.LedToBy url →
      (∀ other : Endpoint, other.LedToBy url → other = endpoint) ∧
      endpoint.LedToBy endpoint.url ∧
      ∃ request,
        ('\r' ∉ url.toList ∧ '\r' ∉ contentType → '\n' ∉ url.toList ∧ '\n' ∉ contentType →
          FramesRequest request (requestLines endpoint contentType body.length) body) ∧
        ∀ network, httpPostBinary network url contentType body =
            (match (network endpoint.host endpoint.port request).reply with
            | .error e => some (.error e)
            | .ok text => decodeReply text) ∧
          httpPostBinary network endpoint.url contentType body =
            httpPostBinary network url contentType body := by
  constructor
  · intro hnone
    cases hparse : parseHttpUrl url with
    | error e => exact ⟨e, fun network => by rw [httpPostBinary, hparse]⟩
    | ok endpoint => exact absurd (parseHttpUrl_eq_ok_iff.mp hparse) (hnone endpoint)
  · intro endpoint hled
    have hparse := parseHttpUrl_eq_ok_iff.mpr hled
    refine ⟨fun other hother => ?_, hled.url, _,
      fun hreturn hfeed => hled.framesRequest hreturn hfeed body,
      fun network => ⟨hled.httpPostBinary_eq network contentType body, ?_⟩⟩
    · exact Except.ok.inj ((parseHttpUrl_eq_ok_iff.mpr hother).symm.trans hparse)
    · rw [hled.url.httpPostBinary_eq, hled.httpPostBinary_eq]

/-- A body that is a blank line itself, to a URL that leaves the port out. -/
theorem Sample.httpPostBinary_framed_blank :
    ∃ request,
      FramesRequest request (requestLines ⟨"tsa.example".toList, 80, "/tsr".toList⟩
        "application/timestamp-query".toList 4) terminator ∧
      ∀ network, httpPostBinary network "http://tsa.example:80/tsr"
          "application/timestamp-query".toList terminator =
        httpPostBinary network "http://tsa.example/tsr"
          "application/timestamp-query".toList terminator := by
  have hled : Endpoint.LedToBy ⟨"tsa.example".toList, 80, "/tsr".toList⟩
      "http://tsa.example/tsr" := parseHttpUrl_eq_ok_iff.mp (by decide +kernel)
  obtain ⟨-, hposted⟩ := httpPostBinary_framed "http://tsa.example/tsr"
    "application/timestamp-query".toList terminator
  obtain ⟨-, -, request, hframes, hnetwork⟩ := hposted _ hled
  have hurl : Endpoint.url ⟨"tsa.example".toList, 80, "/tsr".toList⟩ =
      "http://tsa.example:80/tsr" := by decide +kernel
  refine ⟨request, hframes (by decide) (by decide), fun network => ?_⟩
  rw [← hurl]
  exact (hnetwork network).2

end UnidppLog
