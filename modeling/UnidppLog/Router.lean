/-
# The router

What becomes of a request before a handler sees it: the six routes, the methods each of
them answers, and what is extracted from the request for its handler. The extractors and
the answers to what they turn away are the HTTP library's. A served system takes whole
requests, and lets the handlers that have come to it go on.
-/

import UnidppLog.Answers

namespace UnidppLog

open Unidpp
open Text (encode)

/-- A request method. -/
inductive Method
  | get
  | head
  | post
  | other (name : String)
  deriving DecidableEq

/-- A request: the path and query as they were sent, the headers in the order in which they
came, their names in lower case, and the bytes of the body. -/
structure HttpRequest where
  method : Method
  path : String
  query : Option String
  headers : List (String × List UInt8)
  body : List UInt8

/-- A visible ASCII character, a space or a tab. -/
def isVisibleAscii (byte : UInt8) : Bool :=
  32 ≤ byte.toNat && byte.toNat < 127 || byte.toNat = 9

/-- `HeaderValue::to_str`. -/
def headerToStr (value : List UInt8) : Option String :=
  if value.all isVisibleAscii then some (String.ofList (value.map fun b => Char.ofNat b.toNat))
  else none

/-- `HeaderMap::get`: the first value under a name. -/
def headerGet (headers : List (String × List UInt8)) (name : String) : Option (List UInt8) :=
  (headers.find? fun header => header.1 = name).map Prod.snd

/-- The text of the `Authorization` header. -/
def authorizationOf (headers : List (String × List UInt8)) : Option String :=
  (headerGet headers "authorization").bind headerToStr

theorem lt_of_isVisibleAscii {byte : UInt8} (h : isVisibleAscii byte = true) :
    byte.toNat < 128 := by
  simp only [isVisibleAscii, Bool.or_eq_true, Bool.and_eq_true, decide_eq_true_eq] at h
  omega

/-- A header's text has the header's bytes. -/
theorem encode_of_headerToStr {value : List UInt8} {text : String}
    (h : headerToStr value = some text) : encode text.toList = value := by
  rw [headerToStr] at h
  split at h
  · next hall =>
    obtain rfl := Option.some.inj h
    rw [String.toList_ofList]
    clear h
    induction value with
    | nil => rfl
    | cons b rest ih =>
        rw [List.all_cons, Bool.and_eq_true] at hall
        have hlt := lt_of_isVisibleAscii hall.1
        have hascii : ∀ m : Fin 128, (Char.ofNat m).toNat = m := by decide
        have hnat : (Char.ofNat b.toNat).toNat = b.toNat := hascii ⟨_, hlt⟩
        rw [List.map_cons, Text.encode_cons, ih hall.2, Text.utf8EncodeChar_of_lt (by omega), hnat,
          UInt8.ofNat_toNat]
        rfl
  · simp at h

theorem eq_append_of_stripPrefix {start s rest : String} (h : stripPrefix start s = some rest) :
    s.toList = start.toList ++ rest.toList := by
  rw [stripPrefix] at h
  split at h
  · next hstart =>
    obtain rfl := Option.some.inj h
    obtain ⟨tail, htail⟩ := hstart
    rw [String.toList_ofList, ← htail, List.drop_left]
  · simp at h

/-- What the HTTP library does with a request that a route is not to see, and what it
extracts for one that is: the text of the body, the text of a path segment, and the query's
parameters. -/
class Axum where
  notFound : Response
  methodNotAllowed : Response
  bodyText : HttpRequest → Except Response String
  segmentText : String → Except Response String
  queryParams : Option String → Except Response (String → Option String)

/-- Whatever is turned away is turned away with an error, and the text of a body is the one
that its bytes encode. -/
structure Axum.Conforms [Axum] : Prop where
  notFound : Axum.notFound.status = 404
  methodNotAllowed : Axum.methodNotAllowed.status = 405
  body_rejected : ∀ request response, Axum.bodyText request = .error response →
    400 ≤ response.status
  segment_rejected : ∀ segment response, Axum.segmentText segment = .error response →
    400 ≤ response.status
  query_rejected : ∀ query response, Axum.queryParams query = .error response →
    400 ≤ response.status
  body_text : ∀ request text, Axum.bodyText request = .ok text →
    encode text.toList = request.body

inductive Route
  | discovery
  | healthz
  | commitments
  | treeHead
  | treeConsistency
  | receipt (segment : String)
  deriving DecidableEq

/-- The route of a path. A path segment is not empty. -/
def route (path : String) : Option Route :=
  if path = "/" then some .discovery
  else if path = "/healthz" then some .healthz
  else if path = "/commitments" then some .commitments
  else if path = "/tree/head" then some .treeHead
  else if path = "/tree/consistency" then some .treeConsistency
  else
    match stripPrefix "/receipt/" path with
    | some segment =>
      if segment.toList ≠ [] ∧ '/' ∉ segment.toList then some (.receipt segment) else none
    | none => none

theorem path_of_route {path : String} (h : route path = some .commitments) :
    path = "/commitments" := by
  by_contra hne
  simp only [route, if_neg hne] at h
  repeat' split at h
  all_goals simp at h

section

variable [Unidpp] [Axum]

/-- A route that answers `GET`, and `HEAD` in the same way but for the body. -/
def onGet (method : Method) (handler : Except Response Action) : Except Response Action :=
  match method with
  | .get => handler
  | .head => handler
  | _ => .error Axum.methodNotAllowed

/-- A route that answers `POST`. -/
def onPost (method : Method) (handler : Except Response Action) : Except Response Action :=
  match method with
  | .post => handler
  | _ => .error Axum.methodNotAllowed

/-- The first critical section of the request's handler, or the answer to a request that
does not get there. -/
def router (request : HttpRequest) (now : Timestamp) (outcome : WriteOutcome) :
    Except Response Action :=
  match route request.path with
  | some .discovery => onGet request.method (.ok (.get .discovery))
  | some .healthz => onGet request.method (.ok (.get .healthz))
  | some .commitments => onPost request.method do
    let body ← Axum.bodyText request
    return .commit (authorizationOf request.headers) body now outcome
  | some .treeHead => onGet request.method (.ok .treeHead)
  | some .treeConsistency => onGet request.method do
    let params ← Axum.queryParams request.query
    return .get (.consistency params)
  | some (.receipt segment) => onGet request.method do
    let seq ← Axum.segmentText segment
    return .get (.receipt seq)
  | none => .error Axum.notFound

/-- What the router makes of a request: it is turned away, or a read, or a commit of the
body's text with the header's. -/
inductive Routed (request : HttpRequest) (now : Timestamp) (outcome : WriteOutcome) :
    Except Response Action → Prop
  | rejected {response : Response} (hstatus : 400 ≤ response.status) :
      Routed request now outcome (.error response)
  | treeHead : Routed request now outcome (.ok .treeHead)
  | get (read : Get) : Routed request now outcome (.ok (.get read))
  | commit {body : String} (hmethod : request.method = .post)
      (hpath : request.path = "/commitments")
      (hbody : encode body.toList = request.body) :
      Routed request now outcome (.ok (.commit (authorizationOf request.headers) body now outcome))

variable {request : HttpRequest} {now : Timestamp} {outcome : WriteOutcome}

/-- A `POST` of a text to the commitments is a commit of the text. -/
theorem router_commitments (hmethod : request.method = .post)
    (hpath : request.path = "/commitments") {body : String}
    (hbody : Axum.bodyText request = .ok body) (now : Timestamp) (outcome : WriteOutcome) :
    router request now outcome =
      .ok (.commit (authorizationOf request.headers) body now outcome) := by
  have hroute : route request.path = some .commitments := by
    rw [hpath]
    decide
  rw [router, hroute]
  simp only [hmethod, onPost, hbody]
  rfl

theorem routed_onGet (haxum : Axum.Conforms) {handler : Except Response Action}
    (h : Routed request now outcome handler) (method : Method) :
    Routed request now outcome (onGet method handler) := by
  cases method with
  | get => exact h
  | head => exact h
  | post => exact .rejected (by rw [haxum.methodNotAllowed]; decide)
  | other name => exact .rejected (by rw [haxum.methodNotAllowed]; decide)

theorem routed_router (haxum : Axum.Conforms) (request : HttpRequest) (now : Timestamp)
    (outcome : WriteOutcome) : Routed request now outcome (router request now outcome) := by
  rw [router]
  split
  · exact routed_onGet haxum (.get _) _
  · exact routed_onGet haxum (.get _) _
  · next hroute =>
    cases hmethod : request.method with
    | post =>
        rw [onPost]
        cases hbody : Axum.bodyText request with
        | error response => exact .rejected (haxum.body_rejected _ _ hbody)
        | ok body => exact .commit hmethod (path_of_route hroute) (haxum.body_text _ _ hbody)
    | _ => exact .rejected (by rw [haxum.methodNotAllowed]; decide)
  · exact routed_onGet haxum .treeHead _
  · refine routed_onGet haxum ?_ _
    cases hquery : Axum.queryParams request.query with
    | error response => exact .rejected (haxum.query_rejected _ _ hquery)
    | ok params => exact .get _
  · next segment _ =>
    refine routed_onGet haxum ?_ _
    cases hsegment : Axum.segmentText segment with
    | error response => exact .rejected (haxum.segment_rejected _ _ hsegment)
    | ok seq => exact .get _
  · exact .rejected (by rw [haxum.notFound]; decide)

end

section

variable [Unidpp]

/-- Whether a critical section is the first one of its handler. -/
def Action.arrives : Action → Bool
  | .commit _ _ _ _ => true
  | .treeHead => true
  | .get _ => true
  | _ => false

/-- A request comes to the router, with the time and what would become of a journal write
for it; or a handler goes on. -/
inductive ServerEvent
  | request (request : HttpRequest) (now : Timestamp) (outcome : WriteOutcome)
  | proceed (action : Action)

def ServerEvent.isRequest : ServerEvent → Bool
  | .request _ _ _ => true
  | .proceed _ => false

/-- What a handler has answered, by its place in the order in which they came. -/
def System.answerOf (s : System) (i : ℕ) : Option Response :=
  s.handlers[i]?.bind Handler.answer

theorem System.answerOf_push (s : System) (handler : Handler) :
    (s.push handler).answerOf s.handlers.length = handler.answer := by
  rw [answerOf, push, List.getElem?_concat_length, Option.bind_some]

variable [SerdeJson] [ExternalAnchoring]

namespace System

variable {s s' : System}

/-- What is kept along a run: the system is sound and has grown, the handlers agree with
what they came with, and they keep it. -/
structure Serving (s s' : System) : Prop where
  sound : s'.Sound
  agrees : s'.Agrees
  grows : s.Grows s'
  origins : s.handlers.map Handler.origin <+: s'.handlers.map Handler.origin

theorem Serving.refl (hsound : s.Sound) (hagrees : s.Agrees) : Serving s s :=
  ⟨hsound, hagrees, .refl s, List.prefix_rfl⟩

/-- A handler that has come to the system is there in every later state, with what it came
with. -/
theorem Serving.exists_handler {t : System} (h : Serving s t) {front : List Handler}
    {handler : Handler} (hhandlers : s.handlers = front ++ [handler]) :
    ∃ later, t.handlers[front.length]? = some later ∧ later.origin = handler.origin ∧
      later.Agrees t.service.externalTsaUrl := by
  have hfound : (s.handlers.map Handler.origin)[front.length]? = some handler.origin := by
    rw [hhandlers]
    simp
  obtain ⟨more, hmore⟩ := h.origins
  have hlater : (t.handlers.map Handler.origin)[front.length]? = some handler.origin := by
    rw [← hmore, List.getElem?_append_left (List.getElem?_eq_some_iff.mp hfound).1, hfound]
  rw [List.getElem?_map, Option.map_eq_some_iff] at hlater
  obtain ⟨later, hlater, horigin⟩ := hlater
  exact ⟨later, hlater, horigin, h.agrees _ (List.mem_of_getElem? hlater)⟩

variable [Axum]

def serve (s : System) : ServerEvent → Option System
  | .request request now outcome =>
    match router request now outcome with
    | .error response => some (s.push (.ended (some response)))
    | .ok action => s.step action
  | .proceed action => if action.arrives then none else s.step action

/-- A run of requests and of what their handlers do. -/
def serves (s : System) (events : List ServerEvent) : Option System :=
  Transition.run serve s events

/-- A request is turned away, or a step takes it or lets a handler go on. -/
theorem serve_cases (haxum : Axum.Conforms) {event : ServerEvent} (h : s.serve event = some s') :
    (∃ response : Response, response.status ≠ 201 ∧ s' = s.push (.ended (some response))) ∨
      ∃ action, s.step action = some s' := by
  cases event with
  | request request now outcome =>
      rw [serve] at h
      split at h
      · next response hrouted =>
        have hcases := routed_router haxum request now outcome
        rw [hrouted] at hcases
        cases hcases with
        | rejected hstatus => exact .inl ⟨response, by omega, (Option.some.inj h).symm⟩
      · next action _ => exact .inr ⟨action, h⟩
  | proceed action =>
      rw [serve] at h
      split at h
      · simp at h
      · exact .inr ⟨action, h⟩

/-- A handler that goes on leaves the store as it is. -/
theorem store_of_proceed (hvalid : s.service.store.Valid) {action : Action}
    (h : s.serve (.proceed action) = some s') : s'.service.store = s.service.store := by
  rw [serve] at h
  split at h
  · simp at h
  · next harrives =>
    cases steps_of_step hvalid h with
    | headless => rfl
    | submitted => rfl
    | dropped => rfl
    | recorded => rfl
    | abandoned => rfl
    | shown => rfl
    | _ => simp [Action.arrives] at harrives

theorem Serving.serve {t : System} (haxum : Axum.Conforms) (h : Serving s s') {event : ServerEvent}
    (hserve : s'.serve event = some t) : Serving s t := by
  rcases serve_cases haxum hserve with ⟨response, hstatus, rfl⟩ | ⟨action, hstep⟩
  · obtain ⟨hsound, hgrows⟩ := h.sound.push_ended (some response)
    refine ⟨hsound, h.agrees.push fun r hr => ?_, h.grows.trans hgrows, h.origins.trans ?_⟩
    · obtain rfl := Option.some.inj hr
      exact hstatus
    · rw [push, List.map_append]
      exact List.prefix_append _ _
  · obtain ⟨hsound, hgrows⟩ := h.sound.step hstep
    exact ⟨hsound, h.agrees.step h.sound.valid hstep, h.grows.trans hgrows,
      h.origins.trans (origin_step h.sound.valid hstep)⟩

theorem Serving.serves {t : System} (haxum : Axum.Conforms) (h : Serving s s')
    {events : List ServerEvent} (hrun : s'.serves events = some t) : Serving s t :=
  Transition.run_invariant (fun _ _ _ hmid hserve => Serving.serve haxum hmid hserve) h hrun

/-- As long as no other request comes, the store stays as it is. -/
theorem store_of_proceeds (haxum : Axum.Conforms) (hsound : s.Sound) (hagrees : s.Agrees)
    {events : List ServerEvent} (hproceeds : ∀ event ∈ events, event.isRequest = false)
    (hrun : s.serves events = some s') : s'.service.store = s.service.store := by
  refine (Transition.run_keeps (I := fun t => Serving s t ∧ t.service.store = s.service.store) ?_
    ⟨.refl hsound hagrees, rfl⟩ (Transition.along_of_forall hproceeds) hrun).2
  rintro mid event next ⟨hmid, hstore⟩ hproceeds hserve
  refine ⟨hmid.serve haxum hserve, ?_⟩
  cases event with
  | request request now outcome => simp [ServerEvent.isRequest] at hproceeds
  | proceed action => exact (store_of_proceed hmid.sound.valid hserve).trans hstore

end System

end

end UnidppLog
