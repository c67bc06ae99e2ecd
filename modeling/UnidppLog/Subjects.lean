/-
# Logs without their subjects

A subject is neither hashed into the tree nor signed. What is left of a record, a
store or a receipt without the subjects is what everything but a receipt's own text
is computed from.
-/

import UnidppLog.Concurrency

namespace UnidppLog

open Json (Value)
open Unidpp

section

variable [Unidpp]

def CommitRecord.withoutSubject (record : CommitRecord) : CommitRecord :=
  { record with subject := "" }

def AppendRequest.withoutSubject (request : AppendRequest) : AppendRequest :=
  { request with subject := "" }

def Receipt.withoutSubject (receipt : Receipt) : Receipt :=
  { receipt with record := receipt.record.withoutSubject }

/-- A store without the subjects of its entries, and so without the bytes of its
journal. -/
def LogStore.withoutSubjects (store : LogStore) : LogStore where
  tree := store.tree
  entries := store.entries.map CommitRecord.withoutSubject
  journal := store.journal.map fun _ => []

def Service.withoutSubjects (service : Service) : Service :=
  { service with store := service.store.withoutSubjects }

namespace LogStore

variable (store : LogStore)

@[simp]
theorem size_withoutSubjects : store.withoutSubjects.size = store.size := by
  rw [size, withoutSubjects, List.length_map, ← size]

@[simp]
theorem record_withoutSubjects (seq : UInt64) :
    store.withoutSubjects.record seq = (store.record seq).map CommitRecord.withoutSubject :=
  List.getElem?_map

@[simp]
theorem root_withoutSubjects : store.withoutSubjects.root = store.root :=
  rfl

@[simp]
theorem rootAtSize_withoutSubjects (s : UInt64) :
    store.withoutSubjects.rootAtSize s = store.rootAtSize s := by
  rw [rootAtSize, size_withoutSubjects]
  rfl

@[simp]
theorem consistencyPath_withoutSubjects (oldSize : UInt64) :
    store.withoutSubjects.consistencyPath oldSize = store.consistencyPath oldSize :=
  rfl

@[simp]
theorem inclusionPath_withoutSubjects (seq s : UInt64) :
    store.withoutSubjects.inclusionPath seq s = store.inclusionPath seq s :=
  rfl

end LogStore

/-- The head does not depend on the subjects. -/
theorem currentHead_withoutSubjects (store : LogStore) (logId : String) (operator : KeyPair) :
    currentHead store.withoutSubjects logId operator = currentHead store logId operator := by
  simp only [currentHead, LogStore.size_withoutSubjects, LogStore.root_withoutSubjects,
    LogStore.record_withoutSubjects]
  cases store.record (store.size - 1) <;> rfl

/-- A receipt depends on no subject but that of its record. -/
theorem Receipt.of_withoutSubjects (store : LogStore) (seq : UInt64) (logId : String)
    (operator : KeyPair) :
    Receipt.of store.withoutSubjects seq logId operator =
      (Receipt.of store seq logId operator).map (Option.map withoutSubject) := by
  rw [of, of, LogStore.record_withoutSubjects]
  cases hrecord : store.record seq with
  | none => rfl
  | some record =>
      simp only [Option.map_some, LogStore.rootAtSize_withoutSubjects,
        LogStore.inclusionPath_withoutSubjects, Option.bind_eq_bind, Option.map_bind]
      congr 1
      funext n
      simp only [Function.comp_apply, Option.map_bind]
      congr 1
      funext root
      cases root with
      | none => rfl
      | some root =>
          simp only [Function.comp_apply, Option.map_bind]
          congr 1
          funext path
          simp only [CommitRecord.withoutSubject]
          cases sign operator .treeHead
            (canonicalBytes logId (UInt64.ofNat n) record.loggedAt root) <;> rfl

/-- Stores that differ in subjects only give receipts that do. -/
theorem Receipt.of_alike {store store' : LogStore}
    (halike : store.withoutSubjects = store'.withoutSubjects) (seq : UInt64) (logId : String)
    (operator : KeyPair) :
    (Receipt.of store seq logId operator).map (Option.map withoutSubject) =
      (Receipt.of store' seq logId operator).map (Option.map withoutSubject) := by
  rw [← of_withoutSubjects, ← of_withoutSubjects, halike]

/-- Stores that differ in subjects only have the same head. -/
theorem currentHead_alike {store store' : LogStore}
    (halike : store.withoutSubjects = store'.withoutSubjects) (logId : String)
    (operator : KeyPair) :
    currentHead store logId operator = currentHead store' logId operator := by
  rw [← currentHead_withoutSubjects, ← currentHead_withoutSubjects store', halike]

namespace LogStore

theorem withoutSubjects_withoutSubjects (store : LogStore) :
    store.withoutSubjects.withoutSubjects = store.withoutSubjects := by
  simp only [withoutSubjects, List.map_map, Option.map_map]
  rfl

/-- The bytes of the journal are left out. -/
theorem withoutSubjects_journal (store : LogStore) (bytes : List UInt8) :
    { store with journal := some bytes }.withoutSubjects =
      { store.withoutSubjects with journal := some [] } :=
  rfl

theorem apply_withoutSubjects (store : LogStore) (record : CommitRecord) :
    store.withoutSubjects.apply record.withoutSubject =
      (store.apply record).map withoutSubjects := by
  simp only [apply, withoutSubjects, CommitRecord.withoutSubject, Option.bind_eq_bind]
  cases store.tree.append record.commitment <;> simp [withoutSubjects, CommitRecord.withoutSubject]

/-- What a sequenced record and its store are without their subjects. -/
theorem map_applied (store : LogStore) (record : CommitRecord) :
    ((store.apply record).bind fun next =>
      some ((.ok record : Except StoreError CommitRecord), next)).map
        (Prod.map (Except.map CommitRecord.withoutSubject) withoutSubjects) =
      (store.withoutSubjects.apply record.withoutSubject).map
        fun next => (.ok record.withoutSubject, next) := by
  rw [apply_withoutSubjects]
  cases store.apply record <;> rfl

variable [SerdeJson]

/-- What an append answers and leaves behind does not depend on the subjects. -/
theorem append_withoutSubjects (hjson : SerdeJson.Conforms) (store : LogStore)
    (request : AppendRequest) (outcome : WriteOutcome) :
    (store.withoutSubjects.append request.withoutSubject outcome).map
        (Prod.map (Except.map CommitRecord.withoutSubject) withoutSubjects) =
      (store.append request outcome).map
        (Prod.map (Except.map CommitRecord.withoutSubject) withoutSubjects) := by
  have hnext : store.withoutSubjects.nextRecord request.withoutSubject =
      (store.nextRecord request).withoutSubject := by
    simp only [nextRecord, withoutSubjects, List.length_map, AppendRequest.withoutSubject,
      CommitRecord.withoutSubject]
  rw [append, append, hnext]
  cases hjournal : store.journal with
  | none =>
      have hnone : store.withoutSubjects.journal = none := by
        rw [withoutSubjects, hjournal, Option.map_none]
      simp only [hnone, Option.bind_eq_bind, Option.pure_def, map_applied,
        withoutSubjects_withoutSubjects]
      rfl
  | some bytes =>
      have hsome : store.withoutSubjects.journal = some [] := by
        rw [withoutSubjects, hjournal, Option.map_some]
      simp only [hsome, CommitRecord.toString_toJson hjson]
      cases outcome with
      | failed kept reason =>
          simp only [Option.map_some, Prod.map_apply, withoutSubjects_journal,
            withoutSubjects_withoutSubjects]
      | written =>
          simp only [Option.bind_eq_bind, Option.pure_def, map_applied, withoutSubjects_journal,
            withoutSubjects_withoutSubjects]
          rfl

/-- Appends that differ in subjects only, to stores that do. -/
theorem append_alike (hjson : SerdeJson.Conforms) {store store' : LogStore}
    (halike : store.withoutSubjects = store'.withoutSubjects) {request request' : AppendRequest}
    (hrequest : request.withoutSubject = request'.withoutSubject) (outcome : WriteOutcome) :
    (store.append request outcome).map
        (Prod.map (Except.map CommitRecord.withoutSubject) withoutSubjects) =
      (store'.append request' outcome).map
        (Prod.map (Except.map CommitRecord.withoutSubject) withoutSubjects) := by
  have hleft := append_withoutSubjects hjson store request outcome
  have hright := append_withoutSubjects hjson store' request' outcome
  rw [halike, hrequest] at hleft
  exact hleft.symm.trans hright

end LogStore

end

end UnidppLog
