/-
# The log store

Sequencing, the tree over the sequenced entries, and the append-only journal
they are replayed from. The file is the bytes it holds; a write that fails has
put some prefix of its bytes there. As in the tree, an outer `none` is a panic:
the only one here is the tree's size leaving `u64`.
-/

import UnidppLog.Record
import UnidppLog.Proofs

namespace UnidppLog

open Unidpp
open Text (lines trim encode newline)

/-- Store-level failures. -/
inductive StoreError
  | journal (message : String)
  deriving DecidableEq, Repr

def StoreError.toString : StoreError → String
  | .journal m => s!"journal integrity failure: {m}"

/-- What the operating system does with one write to the journal. -/
inductive WriteOutcome
  | written
  | failed (kept : ℕ) (reason : String)

/-- The journal's path: no file yet, or a file with these bytes. -/
abbrev JournalFile : Type :=
  Option (List UInt8)

variable [Unidpp]

/-- The arguments of one append. -/
structure AppendRequest where
  subject : String
  commitment : Hash
  saltRef : Option UInt64
  loggedAt : Timestamp

/-- The transparency log's durable state, the journal as the bytes of the open
file. -/
structure LogStore where
  tree : MerkleTree
  entries : List CommitRecord
  journal : Option (List UInt8)

namespace LogStore

/-- Apply a record to the derived state. -/
def apply (store : LogStore) (record : CommitRecord) : Option LogStore := do
  let tree ← store.tree.append record.commitment
  return { store with tree, entries := store.entries ++ [record] }

/-- One line of the journal. A line that does not parse is forgiven when it is
the last one and not blank. -/
def replayLine [SerdeJson] (store : LogStore) (lineNo : ℕ) (line : String) (isLast : Bool) :
    Option (Except StoreError LogStore) :=
  match parseLine line with
  | .ok record =>
    if record.seq ≠ UInt64.ofNat store.entries.length then
      some (.error (.journal
        s!"line {lineNo}: seq {record.seq} is out of sequence (expected {store.entries.length})"))
    else (store.apply record).map .ok
  | .error e =>
    if isLast ∧ trim line.toList ≠ [] then some (.ok store)
    else some (.error (.journal s!"line {lineNo}: {e}"))

/-- The loop over the lines, one line ahead: `line` is pending and `rest` is
still to be read. A line that cannot be read is reported before the pending one
is looked at. -/
def replayLoop [SerdeJson] (store : LogStore) (lineNo : ℕ) (line : String) :
    List (Except String String) → Option (Except StoreError LogStore)
  | [] => store.replayLine lineNo line true
  | .error e :: _ => some (.error (.journal s!"journal read error: {e}"))
  | .ok next :: rest => do
    match ← store.replayLine lineNo line false with
    | .error e => return .error e
    | .ok store => store.replayLoop (lineNo + 1) next rest

/-- Replay the bytes of a journal. -/
def replay [SerdeJson] (store : LogStore) (bytes : List UInt8) :
    Option (Except StoreError LogStore) :=
  match lines bytes with
  | [] => some (.ok store)
  | .error e :: _ => some (.error (.journal s!"journal read error: {e}"))
  | .ok line :: rest => store.replayLoop 1 line rest

end LogStore

/-- A fresh store with an optional journal, which is replayed if it exists and
created if it does not. -/
def LogStore.open [SerdeJson] (journal : Option JournalFile) :
    Option (Except StoreError LogStore) := do
  let store : LogStore := { tree := .new, entries := [], journal := none }
  match journal with
  | none => return .ok store
  | some none => return .ok { store with journal := some [] }
  | some (some bytes) =>
    match ← store.replay bytes with
    | .error e => return .error e
    | .ok store => return .ok { store with journal := some bytes }

namespace LogStore

/-- The record an append sequences. -/
def nextRecord (store : LogStore) (request : AppendRequest) : CommitRecord where
  seq := UInt64.ofNat store.entries.length
  loggedAt := request.loggedAt
  subject := request.subject
  commitment := request.commitment
  saltRef := request.saltRef

/-- Append one entry: journal its record, then apply it. -/
def append [SerdeJson] (store : LogStore) (request : AppendRequest) (outcome : WriteOutcome) :
    Option (Except StoreError CommitRecord × LogStore) :=
  let record := store.nextRecord request
  match store.journal with
  | none => do
    let store ← store.apply record
    return (.ok record, store)
  | some bytes =>
    match SerdeJson.toString record.toJson with
    | .error e => some (.error (.journal s!"cannot serialize record: {e}"), store)
    | .ok line =>
      let written := encode line.toList ++ [newline]
      match outcome with
      | .failed kept reason =>
        some (.error (.journal s!"journal write failed: {reason}"),
          { store with journal := some (bytes ++ written.take kept) })
      | .written => do
        let store ← { store with journal := some (bytes ++ written) }.apply record
        return (.ok record, store)

/-- The number of sequenced entries. -/
def size (store : LogStore) : UInt64 :=
  UInt64.ofNat store.entries.length

/-- The record at `seq`. -/
def record (store : LogStore) (seq : UInt64) : Option CommitRecord :=
  store.entries[seq.toNat]?

/-- The current tree root, none when empty. -/
def root (store : LogStore) : Option (Option Hash) :=
  store.tree.root

/-- The root of the prefix of the first `s` entries. -/
def rootAtSize (store : LogStore) (s : UInt64) : Option (Option Hash) :=
  if store.size < s then some none else store.tree.rootAtSize s.toNat

/-- The inclusion proof for leaf `seq` against the prefix of size `s`. -/
def inclusionPath (store : LogStore) (seq s : UInt64) : Option (List ProofNode) :=
  store.tree.inclusionPath seq.toNat s.toNat

/-- The consistency proof from the prefix of size `oldSize`. -/
def consistencyPath (store : LogStore) (oldSize : UInt64) : Option (List Hash) :=
  store.tree.consistencyPath oldSize.toNat

end LogStore

end UnidppLog
