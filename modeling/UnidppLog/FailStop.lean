/-
# Behind a poisoned lock

A panic under the store's lock poisons it, and every handler that takes the lock behind it
panics. The log is then frozen for as long as the service runs: nothing is sequenced, no head
is read, and no receipt and no proof is derived. What takes no lock is answered as before, the
liveness check among it. A commit that was sequenced before and has still to read its head is
never answered.
-/

import UnidppLog.Sample.Deployment

namespace UnidppLog

open Json (Value)
open Unidpp

section

variable [Unidpp] [SerdeJson]

/-- A handler that came to a poisoned lock: it was turned away in front of it, or panicked on
it, or took no lock. -/
inductive Handler.Sheds (service : Service) : Handler → Prop
  | refused {response : Response} (hstatus : 400 ≤ response.status) :
      Sheds service (.ended (some response))
  | panicked : Sheds service (.ended none)
  | locked (read : Get) : Sheds service (.served read none)
  | lockless {read : Get} (hlocks : Service.locks read = false) :
      Sheds service (.served read (service.get read))

/-- What a commit that may not append is answered with is an error. -/
theorem AppState.error_of_commitRequest {app : AppState} {authorization : Option String}
    {body : String} {now : Timestamp} {response : Response}
    (h : app.commitRequest authorization body now = .error (some response)) :
    400 ≤ response.status := by
  rw [commitRequest] at h
  split at h
  · rw [status_of_jsonResponse (Except.error.inj h)]
    decide
  · split at h
    · rw [status_of_jsonResponse (Except.error.inj h)]
    · simp at h

/-- A read that takes no lock is answered with an error, or is of no entry at all. -/
theorem Service.get_of_lockless {service : Service} {read : Get} {response : Response}
    (hlocks : Service.locks read = false) (h : service.get read = some response) :
    400 ≤ response.status ∨ response.status = 200 ∧
      ∃ read, read ∈ [.discovery, .healthz] ∧ service.get read = some response := by
  cases read with
  | discovery => exact .inr ⟨status_of_jsonResponse h, .discovery, by simp, h⟩
  | healthz =>
      obtain rfl := Option.some.inj h
      exact .inr ⟨rfl, .healthz, by simp, rfl⟩
  | consistency params =>
      refine .inl ?_
      have hnone : ((params "from").map fun s => Text.trim s.toList).bind parseU64 = none := by
        simpa [Service.locks] using hlocks
      rw [Service.get, AppState.treeConsistency] at h
      split at h
      · exact (status_of_jsonResponse h).ge
      · exact (status_of_jsonResponse h).ge
      · next text hne heq =>
        rw [heq, Option.bind_some] at hnone
        rw [hnone] at h
        exact (status_of_jsonResponse h).ge
  | receipt seq =>
      refine .inl ?_
      have hnone : parseU64 (Text.trim seq.toList) = none := by
        simpa [Service.locks] using hlocks
      rw [Service.get, AppState.receipt, hnone] at h
      exact (status_of_jsonResponse h).ge

namespace System

variable {s s' t : System}

/-- Nothing has changed behind a poisoned lock but the record of the external anchor. The
commits that had still to take the lock have not, or have panicked, and whoever came since was
shed. -/
structure Frozen (s t : System) : Prop where
  poisoned : t.poisoned = true
  service : t.service = { s.service with tsa := t.service.tsa }
  sequenced : t.sequenced = s.sequenced
  waiting : ∀ (i : ℕ) (outcome : Except StoreError Value),
    s.handlers[i]? = some (.commit outcome .appended) →
      t.handlers[i]? = some (.commit outcome .appended) ∨
        t.handlers[i]? = some (.commit outcome (.answered none))
  length_le : s.handlers.length ≤ t.handlers.length
  sheds : ∀ (i : ℕ) (handler : Handler), s.handlers.length ≤ i →
    t.handlers[i]? = some handler → handler.Sheds s.service

theorem Frozen.refl (hpoisoned : s.poisoned = true) : s.Frozen s where
  poisoned := hpoisoned
  service := rfl
  sequenced := rfl
  waiting _ _ hi := .inl hi
  length_le := le_rfl
  sheds i handler hle hi := by
    obtain ⟨hlt, -⟩ := List.getElem?_eq_some_iff.mp hi
    omega

theorem Frozen.push (h : s.Frozen t) {handler : Handler} (hsheds : handler.Sheds s.service) :
    s.Frozen (t.push handler) where
  poisoned := h.poisoned
  service := h.service
  sequenced := h.sequenced
  waiting i outcome hi := by
    obtain ⟨hlt, -⟩ := List.getElem?_eq_some_iff.mp hi
    have hlength := h.length_le
    rw [System.push, List.getElem?_append_left (by omega)]
    exact h.waiting i outcome hi
  length_le := by
    have hlength := h.length_le
    rw [System.push, List.length_append]
    omega
  sheds i other hle hi := by
    rcases getElem?_push hi with hold | rfl
    · exact h.sheds i other hle hold
    · exact hsheds

/-- A handler moves on. It is not one that was shed. -/
theorem Frozen.set (h : s.Frozen t) {i : ℕ} {old new : Handler} (hi : t.handlers[i]? = some old)
    (hold : ¬ old.Sheds s.service)
    (hnew : ∀ outcome, old = .commit outcome .appended → new = .commit outcome (.answered none))
    (hended : ∀ outcome, old ≠ .commit outcome (.answered none)) : s.Frozen (t.set i new) where
  poisoned := h.poisoned
  service := h.service
  sequenced := h.sequenced
  waiting j outcome hj := by
    by_cases hij : i = j
    · subst hij
      obtain ⟨hlt, -⟩ := List.getElem?_eq_some_iff.mp hi
      rw [System.set, List.getElem?_set_self hlt]
      rcases h.waiting i outcome hj with happended | hanswered
      · rw [hnew outcome (Option.some.inj (hi.symm.trans happended))]
        exact .inr rfl
      · exact absurd (Option.some.inj (hi.symm.trans hanswered)) (hended outcome)
    · rw [System.set, List.getElem?_set_ne hij]
      exact h.waiting j outcome hj
  length_le := by
    rw [System.set, List.length_set]
    exact h.length_le
  sheds j other hle hj := by
    rcases getElem?_set hj with hsame | ⟨rfl, -⟩
    · exact h.sheds j other hle hsame
    · exact absurd (h.sheds i old hle hi) hold

variable [ExternalAnchoring]

/-- A step behind a poisoned lock leaves the log frozen. -/
theorem Frozen.step (h : s.Frozen t) (hvalid : t.service.store.Valid) {action : Action}
    (hstep : t.step action = some s') : s.Frozen s' := by
  cases action with
  | commit authorization body now outcome =>
      obtain rfl := Option.some.inj hstep
      rw [commit]
      split
      · next response hrefused =>
        cases response with
        | none => exact h.push .panicked
        | some response => exact h.push (.refused (AppState.error_of_commitRequest hrefused))
      · rw [if_pos h.poisoned]
        exact h.push .panicked
  | readHead i =>
      rw [System.step] at hstep
      split at hstep
      · next outcome hi =>
        obtain rfl := Option.some.inj hstep
        rw [readHead, if_pos h.poisoned]
        refine h.set hi (fun hsheds => by cases hsheds) (fun other heq => ?_) (fun _ => by simp)
        obtain ⟨rfl, -⟩ := Handler.commit.inj heq
        rfl
      · simp at hstep
  | record i now reply =>
      cases steps_of_step hvalid hstep with
      | @dropped _ _ _ outcome head hi =>
          have hset : s.Frozen (t.set i (.commit outcome (.answered none))) :=
            h.set hi (fun hsheds => by cases hsheds) (fun _ heq => by simp at heq)
              (fun _ => by simp)
          exact ⟨hset.poisoned, hset.service, hset.sequenced, hset.waiting, hset.length_le,
            hset.sheds⟩
      | @recorded _ _ _ outcome head tsaUrl record hi hsubmit =>
          have hset : s.Frozen (t.set i (.commit outcome (.answered (respond outcome)))) :=
            h.set hi (fun hsheds => by cases hsheds) (fun _ heq => by simp at heq)
              (fun _ => by simp)
          have hservice := congrArg (fun service : Service =>
            { service with tsa := some { record with treeSize := head.treeSize } }) h.service
          exact ⟨hset.poisoned, hservice, hset.sequenced, hset.waiting, hset.length_le, hset.sheds⟩
  | leave i =>
      rw [System.step] at hstep
      split at hstep
      · next outcome head hi =>
        obtain rfl := Option.some.inj hstep
        exact h.set hi (fun hsheds => by cases hsheds) (fun _ heq => by simp at heq)
          (fun _ => by simp)
      · simp at hstep
  | treeHead =>
      obtain rfl := Option.some.inj hstep
      rw [treeHead, if_pos h.poisoned]
      exact h.push .panicked
  | view i =>
      rw [System.step] at hstep
      split at hstep
      · next head hi =>
        obtain rfl := Option.some.inj hstep
        exact h.set hi (fun hsheds => by cases hsheds) (fun _ heq => by simp at heq)
          (fun _ => by simp)
      · simp at hstep
  | get read =>
      obtain rfl := Option.some.inj hstep
      rw [get_eq hvalid, h.poisoned, Bool.true_and]
      cases hlocks : Service.locks read with
      | true => exact h.push (.locked read)
      | false =>
          have hsame : t.service.get read = s.service.get read := by
            rw [h.service]
            cases read <;> rfl
          rw [if_neg (by simp), hsame]
          exact h.push (.lockless hlocks)

variable [Axum]

theorem Frozen.serve (haxum : Axum.Conforms) (h : s.Frozen t) (hvalid : t.service.store.Valid)
    {event : ServerEvent} (hserve : t.serve event = some s') : s.Frozen s' := by
  cases event with
  | request request now outcome =>
      have hrouted := routed_router haxum request now outcome
      rw [System.serve] at hserve
      split at hserve
      · next response heq =>
        obtain rfl := Option.some.inj hserve
        rw [heq] at hrouted
        cases hrouted with
        | rejected hstatus => exact h.push (.refused hstatus)
      · exact h.step hvalid hserve
  | proceed action =>
      rw [System.serve] at hserve
      split at hserve
      · simp at hserve
      · exact h.step hvalid hserve

/-- Once the lock is poisoned, in every run from there: the lock stays poisoned, and all that
changes of the service is the record of the external anchor. A commit that had still to read
its head is never answered. Whoever comes later is answered with an error or as one who takes
no lock, and with no receipt, no head and no proof. -/
theorem poisoned_freezes (haxum : Axum.Conforms) {config : Config}
    {journal : Option JournalFile} {service : Service}
    (hnew : Service.new config journal = some (.ok service)) {events later : List ServerEvent}
    (hrun : (init service).serves events = some s) (hpoisoned : s.poisoned = true)
    (hlater : s.serves later = some t) :
    t.poisoned = true ∧ t.service = { s.service with tsa := t.service.tsa } ∧
    t.sequenced = s.sequenced ∧
    (∀ (i : ℕ) (outcome : Except StoreError Value),
      s.handlers[i]? = some (.commit outcome .appended) → t.answerOf i = none) ∧
    ∀ (i : ℕ) (response : Response), s.handlers.length ≤ i → t.answerOf i = some response →
      400 ≤ response.status ∨ response.status = 200 ∧
        ∃ read, read ∈ [.discovery, .healthz] ∧ s.service.get read = some response := by
  have hserving : Serving s s := by
    have hinit := (Serving.refl (sound_init hnew) (agrees_init service)).serves haxum hrun
    exact .refl hinit.sound hinit.agrees
  obtain ⟨-, hfrozen⟩ : Serving s t ∧ s.Frozen t := by
    refine Transition.run_invariant (I := fun mid => Serving s mid ∧ s.Frozen mid) ?_
      ⟨hserving, .refl hpoisoned⟩ hlater
    rintro mid event next ⟨hmid, hfrozen⟩ hserve
    exact ⟨hmid.serve haxum hserve, hfrozen.serve haxum hmid.sound.valid hserve⟩
  refine ⟨hfrozen.poisoned, hfrozen.service, hfrozen.sequenced, fun i outcome hi => ?_,
    fun i response hle hanswer => ?_⟩
  · rw [answerOf]
    rcases hfrozen.waiting i outcome hi with happended | hanswered
    · rw [happended]
      rfl
    · rw [hanswered]
      rfl
  · obtain ⟨handler, hi, hhandler⟩ := Option.bind_eq_some_iff.mp hanswer
    cases hfrozen.sheds i handler hle hi with
    | refused hstatus =>
        obtain rfl := Option.some.inj hhandler
        exact .inl hstatus
    | panicked => simp [Handler.answer] at hhandler
    | locked read => simp [Handler.answer] at hhandler
    | @lockless read hlocks =>
        have hget : s.service.get read = some response := hhandler
        exact Service.get_of_lockless hlocks hget

end System

end

namespace Sample

section

/-- An operator whose key does not sign. -/
local instance unsigning : Unidpp :=
  { crates with sign := fun _ _ _ => .error "no key material" }

local instance unsigned : ExternalAnchoring where
  hashBytes := @ExternalAnchoring.hashBytes crates anchoring
  timestampSecs := @ExternalAnchoring.timestampSecs crates anchoring
  timestampFromSecs := @ExternalAnchoring.timestampFromSecs crates anchoring
  anchorDigest := @ExternalAnchoring.anchorDigest crates anchoring
  anchorPayload := @ExternalAnchoring.anchorPayload crates anchoring

def unsignedConfig : Config where
  operator := { logId := logId, suite := Suite.ed25519, seed := "unidpp-log-dev-seed-v1" }
  appendToken := none
  externalTsaUrl := none
  buildId := none

def unsignedService : Service where
  appendToken := none
  operator := { config := unsignedConfig.operator, key := operator, pubKey := operator.public }
  store := { entries := [], tree := .new, journal := none }
  externalTsaUrl := none
  buildId := none
  tsa := none

theorem new_unsigned : Service.new unsignedConfig none = some (.ok unsignedService) :=
  rfl

/-- A request for the liveness check. -/
def probe : HttpRequest where
  method := .get
  path := "/healthz"
  query := none
  headers := []
  body := []

/-- A commit that is sequenced and cannot be signed for, and what comes after it: another
commit and a read of the head are lost, and the liveness check goes on answering. -/
theorem poisoned_freezes_unsigned :
    ∃ s t : System,
      (System.init unsignedService).serves [.request (posted "") (1 : Fin 60) .written] = some s ∧
      s.serves [.request (posted "") (2 : Fin 60) .written,
        .request getHead (3 : Fin 60) .written, .request probe (4 : Fin 60) .written] = some t ∧
      s.poisoned = true ∧ s.sequenced.length = 1 ∧ t.poisoned = true ∧
      t.sequenced = s.sequenced ∧
      (t.handlers.map fun handler => handler.answer.map Response.body) =
        [none, none, none, some "ok"] := by
  have hrun : ((System.init unsignedService).serves
      [.request (posted "") (1 : Fin 60) .written]).bind (fun s =>
        (s.serves [.request (posted "") (2 : Fin 60) .written,
          .request getHead (3 : Fin 60) .written,
          .request probe (4 : Fin 60) .written]).map fun t =>
            (s.poisoned, s.sequenced.length,
              t.handlers.map fun handler => handler.answer.map Response.body)) =
      some (true, 1, [none, none, none, some "ok"]) := by
    decide +kernel
  obtain ⟨s, hs, hlater⟩ := Option.bind_eq_some_iff.mp hrun
  obtain ⟨t, ht, heq⟩ := Option.map_eq_some_iff.mp hlater
  simp only [Prod.mk.injEq] at heq
  obtain ⟨hpoisoned, hlength, hanswers⟩ := heq
  obtain ⟨hpoisoned', -, hsequenced, -⟩ :=
    System.poisoned_freezes axum_conforms new_unsigned hs hpoisoned ht
  exact ⟨s, t, hs, ht, hpoisoned, hlength, hpoisoned', hsequenced, hanswers⟩

end

end Sample

end UnidppLog
