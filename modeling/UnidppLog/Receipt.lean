/-
# Receipts and signed tree heads

A receipt is derived from the store: the record, its inclusion proof against the
prefix that ends with it, and a head signed over that prefix. The current head
is minted from the whole tree. Both are functions of the entries up to a size,
so neither changes as the log grows.
-/

import UnidppLog.Sample.Log

namespace UnidppLog

open Unidpp

section

variable [Unidpp]

/-- A signed tree head. -/
structure SignedTreeHead where
  logId : String
  treeSize : UInt64
  timestamp : Timestamp
  root : Hash
  signature : SignatureSlot Suite KeyId

/-- An inclusion proof. -/
structure InclusionProof where
  leafIndex : UInt64
  treeSize : UInt64
  path : List ProofNode

/-- A signed, sequenced inclusion receipt. -/
structure Receipt where
  logId : String
  record : CommitRecord
  inclusion : InclusionProof
  treeHead : SignedTreeHead

/-- The receipt for entry `seq`: the inclusion proof against the prefix of size
`seq + 1`, and a signed head over that prefix. The outer `none` is a panic. -/
def Receipt.of (store : LogStore) (seq : UInt64) (logId : String) (operator : KeyPair) :
    Option (Option Receipt) :=
  match store.record seq with
  | none => some none
  | some record => do
    let treeSize := UInt64.ofNat (← U64.add seq.toNat 1)
    match ← store.rootAtSize treeSize with
    | none => return none
    | some root =>
      let path ← store.inclusionPath seq treeSize
      let loggedAt := record.loggedAt
      match sign operator .treeHead (canonicalBytes logId treeSize loggedAt root) with
      | .error _ => return none
      | .ok signature =>
        return some
          { logId, record
            inclusion := { leafIndex := seq, treeSize, path }
            treeHead := { logId, treeSize, timestamp := loggedAt, root, signature } }

/-- The signed head over the current tree, at the time of the latest append. -/
def currentHead (store : LogStore) (logId : String) (operator : KeyPair) :
    Option (Option SignedTreeHead) :=
  if store.size < 1 then some none
  else do
    let last := store.size - 1
    match ← store.root with
    | none => return none
    | some root =>
      match store.record last with
      | none => return none
      | some record =>
        let timestamp := record.loggedAt
        match sign operator .treeHead (canonicalBytes logId store.size timestamp root) with
        | .error _ => return none
        | .ok signature =>
          return some { logId, treeSize := store.size, timestamp, root, signature }

/-- The head over these leaves, unless signing fails. -/
def SignedTreeHead.over (logId : String) (operator : KeyPair) (leaves : List Hash)
    (timestamp : Timestamp) : Option SignedTreeHead :=
  let treeSize := UInt64.ofNat leaves.length
  let root := Rfc6962.mth scheme leaves
  match sign operator .treeHead (canonicalBytes logId treeSize timestamp root) with
  | .error _ => none
  | .ok signature => some { logId, treeSize, timestamp, root, signature }

/-- The receipt for the last of these leaves, unless signing fails. -/
def Receipt.over (logId : String) (operator : KeyPair) (leaves : List Hash)
    (record : CommitRecord) : Option Receipt :=
  let leafIndex := leaves.length - 1
  (SignedTreeHead.over logId operator leaves record.loggedAt).map fun treeHead =>
    { logId, record, treeHead
      inclusion :=
        { leafIndex := UInt64.ofNat leafIndex, treeSize := UInt64.ofNat leaves.length
          path := Rfc6962.path scheme leafIndex leaves } }

variable {store store' : LogStore} {logId : String} {operator : KeyPair}

theorem SignedTreeHead.over_eq_some_iff {leaves : List Hash} {timestamp : Timestamp}
    {head : SignedTreeHead} :
    SignedTreeHead.over logId operator leaves timestamp = some head ↔
      ∃ signature, sign operator .treeHead (canonicalBytes logId (UInt64.ofNat leaves.length)
          timestamp (Rfc6962.mth scheme leaves)) = .ok signature ∧
        head = { logId, treeSize := UInt64.ofNat leaves.length, timestamp
                 root := Rfc6962.mth scheme leaves, signature } := by
  simp only [SignedTreeHead.over]
  cases hsign : sign operator .treeHead (canonicalBytes logId (UInt64.ofNat leaves.length)
    timestamp (Rfc6962.mth scheme leaves)) with
  | error e => simp
  | ok signature => simp [eq_comm]

theorem LogStore.Valid.size_toNat (hvalid : store.Valid) :
    store.size.toNat = store.entries.length := by
  rw [LogStore.size, UInt64.toNat_ofNat', Nat.mod_eq_of_lt hvalid.length_lt]

theorem LogStore.Valid.one_le_size (hvalid : store.Valid) (hpos : 0 < store.entries.length) :
    1 ≤ store.size := by
  rw [UInt64.le_iff_toNat_le, hvalid.size_toNat]
  exact hpos

/-- The number of the last entry. -/
theorem LogStore.Valid.last_toNat (hvalid : store.Valid) (hpos : 0 < store.entries.length) :
    (store.size - 1).toNat = store.entries.length - 1 := by
  rw [UInt64.toNat_sub_of_le _ _ (hvalid.one_le_size hpos), hvalid.size_toNat]
  rfl

theorem LogStore.Valid.rootAtSize (hvalid : store.Valid) {s : ℕ} (hpos : 0 < s)
    (hs : s ≤ store.entries.length) :
    store.rootAtSize (UInt64.ofNat s) =
      some (some (Rfc6962.mth scheme (store.commitments.take s))) := by
  have hlt := hvalid.length_lt
  have hnat : (UInt64.ofNat s).toNat = s := by
    rw [UInt64.toNat_ofNat', Nat.mod_eq_of_lt (by omega)]
  have hnot : ¬ store.size < UInt64.ofNat s := by
    rw [UInt64.lt_iff_toNat_lt, hvalid.size_toNat, hnat]
    omega
  have hlen := store.length_commitments
  have hne : store.commitments.take s ≠ [] := by
    rw [← List.length_pos_iff, List.length_take]
    omega
  rw [LogStore.rootAtSize, if_neg hnot, hnat, hvalid.represents.rootAtSize (by omega),
    rootOf_of_ne_nil hne]

/-- What a consistency answer is put together from is read without a panic, for every
size up to that of the tree, zero included. -/
theorem LogStore.Valid.consistency_total (hvalid : store.Valid) {oldSize : UInt64}
    (hle : ¬ store.size < oldSize) :
    ∃ root oldRoot path, store.root = some root ∧ store.rootAtSize oldSize = some oldRoot ∧
      store.consistencyPath oldSize = some path := by
  have hrep := hvalid.represents
  have hlen := store.length_commitments
  have hnat : oldSize.toNat ≤ store.commitments.length := by
    rw [UInt64.lt_iff_toNat_lt, hvalid.size_toNat] at hle
    omega
  have hroot := hrep.rootAtSize le_rfl
  rw [← hrep.size_eq] at hroot
  have hold : store.rootAtSize oldSize =
      some (rootOf (store.commitments.take oldSize.toNat)) := by
    rw [LogStore.rootAtSize, if_neg hle, hrep.rootAtSize hnat]
  exact ⟨_, _, _, hroot, hold, hrep.consistencyPath hnat⟩

/-- A receipt is determined by the prefix that ends with its record. -/
theorem LogStore.Valid.receipt_eq (hvalid : store.Valid) (logId : String) (operator : KeyPair)
    {seq : UInt64} {record : CommitRecord} (hrecord : store.entries[seq.toNat]? = some record) :
    Receipt.of store seq logId operator =
      some (Receipt.over logId operator (store.commitments.take (seq.toNat + 1)) record) := by
  have hlt := hvalid.length_lt
  obtain ⟨hseq, -⟩ := List.getElem?_eq_some_iff.mp hrecord
  have hlen : (store.commitments.take (seq.toNat + 1)).length = seq.toNat + 1 := by
    rw [List.length_take, LogStore.length_commitments]
    omega
  have hnat : (UInt64.ofNat (seq.toNat + 1)).toNat = seq.toNat + 1 := by
    rw [UInt64.toNat_ofNat', Nat.mod_eq_of_lt (by omega)]
  have hpath := hvalid.represents.inclusionPath (m := seq.toNat) (s := seq.toNat + 1) (by omega)
    (by rw [LogStore.length_commitments]; omega)
  rw [Receipt.of, LogStore.record, hrecord]
  simp only [U64.add_of_lt (show seq.toNat + 1 < 2 ^ 64 by omega), Option.bind_eq_bind,
    Option.bind_some, hvalid.rootAtSize (show 0 < seq.toNat + 1 by omega) hseq,
    LogStore.inclusionPath, hnat, hpath, Receipt.over, SignedTreeHead.over, hlen,
    Nat.add_sub_cancel, UInt64.ofNat_toNat]
  cases sign operator .treeHead _ <;> rfl

/-- Where signing does not fail, every entry has its receipt. -/
theorem LogStore.Valid.exists_receipt (hvalid : store.Valid)
    (hsign : ∀ bytes, ∃ slot, sign operator .treeHead bytes = .ok slot) (logId : String)
    {seq : UInt64} {record : CommitRecord} (hrecord : store.entries[seq.toNat]? = some record) :
    ∃ receipt, Receipt.of store seq logId operator = some (some receipt) := by
  obtain ⟨slot, hslot⟩ := hsign (canonicalBytes logId
    (UInt64.ofNat (store.commitments.take (seq.toNat + 1)).length) record.loggedAt
    (Rfc6962.mth scheme (store.commitments.take (seq.toNat + 1))))
  have hhead := SignedTreeHead.over_eq_some_iff.mpr ⟨slot, hslot, rfl⟩
  rw [hvalid.receipt_eq logId operator hrecord, Receipt.over, hhead]
  exact ⟨_, rfl⟩

theorem receipt_eq_none {seq : UInt64} (hseq : store.entries[seq.toNat]? = none) :
    Receipt.of store seq logId operator = some none := by
  rw [Receipt.of, LogStore.record, hseq]

/-- The current head is determined by the entries. -/
theorem LogStore.Valid.currentHead_eq (hvalid : store.Valid) {record : CommitRecord}
    (hlast : store.entries.getLast? = some record) :
    currentHead store logId operator =
      some (SignedTreeHead.over logId operator store.commitments record.loggedAt) := by
  have hpos : 0 < store.entries.length := by
    rw [List.length_pos_iff]
    rintro hnil
    simp [hnil] at hlast
  have hrecord : store.record (store.size - 1) = some record := by
    rw [LogStore.record, hvalid.last_toNat hpos, ← List.getLast?_eq_getElem?, hlast]
  have hlen := store.length_commitments
  have hsize : UInt64.ofNat store.commitments.length = store.size := by
    rw [hlen, LogStore.size]
  have hroot := hvalid.represents.rootAtSize le_rfl
  rw [List.take_length, rootOf_of_ne_nil (by rw [← List.length_pos_iff]; omega),
    ← hvalid.represents.size_eq] at hroot
  rw [currentHead, if_neg (UInt64.not_lt.mpr (hvalid.one_le_size hpos)), LogStore.root,
    MerkleTree.root, hroot]
  simp only [hrecord, Option.bind_eq_bind, Option.bind_some, SignedTreeHead.over, hsize]
  cases sign operator .treeHead _ <;> rfl

theorem currentHead_empty (hempty : store.entries = []) :
    currentHead store logId operator = some none := by
  rw [currentHead, LogStore.size, hempty]
  rfl

/-- The receipt for the last entry carries the head over all of them. -/
theorem receipt_over_treeHead (logId : String) (operator : KeyPair) (leaves : List Hash)
    (record : CommitRecord) :
    (Receipt.over logId operator leaves record).map Receipt.treeHead =
      SignedTreeHead.over logId operator leaves record.loggedAt := by
  rw [Receipt.over, Option.map_map]
  exact Option.map_id'

/-- A receipt that a store gives, field by field. -/
theorem LogStore.Valid.exists_of_receipt (hvalid : store.Valid)
    {seq : UInt64} {receipt : Receipt}
    (hreceipt : Receipt.of store seq logId operator = some (some receipt)) :
    ∃ record slot, store.entries[seq.toNat]? = some record ∧
      sign operator .treeHead (canonicalBytes logId (UInt64.ofNat (seq.toNat + 1)) record.loggedAt
        (Rfc6962.mth scheme (store.commitments.take (seq.toNat + 1)))) = .ok slot ∧
      receipt =
        { logId, record
          inclusion :=
            { leafIndex := seq, treeSize := UInt64.ofNat (seq.toNat + 1)
              path := Rfc6962.path scheme seq.toNat (store.commitments.take (seq.toNat + 1)) }
          treeHead :=
            { logId, treeSize := UInt64.ofNat (seq.toNat + 1), timestamp := record.loggedAt
              root := Rfc6962.mth scheme (store.commitments.take (seq.toNat + 1))
              signature := slot } } := by
  cases hrecord : store.entries[seq.toNat]? with
  | none => simp [receipt_eq_none hrecord] at hreceipt
  | some record =>
      obtain ⟨hseq, -⟩ := List.getElem?_eq_some_iff.mp hrecord
      have hlen : (store.commitments.take (seq.toNat + 1)).length = seq.toNat + 1 := by
        rw [List.length_take, LogStore.length_commitments]
        omega
      rw [hvalid.receipt_eq logId operator hrecord, Option.some.injEq, Receipt.over,
        Option.map_eq_some_iff] at hreceipt
      obtain ⟨head, hhead, rfl⟩ := hreceipt
      obtain ⟨slot, hslot, rfl⟩ := SignedTreeHead.over_eq_some_iff.mp hhead
      rw [hlen] at hslot
      refine ⟨record, slot, rfl, hslot, ?_⟩
      rw [hlen, Nat.add_sub_cancel, UInt64.ofNat_toNat]

theorem take_commitments (hinitial : store.entries <+: store'.entries) {n : ℕ}
    (hn : n ≤ store.entries.length) :
    store'.commitments.take n = store.commitments.take n := by
  obtain ⟨more, hmore⟩ := hinitial
  rw [LogStore.commitments, ← hmore, List.map_append, ← LogStore.commitments,
    List.take_append_of_le_length (by rwa [LogStore.length_commitments])]

/-- A receipt is the same in every store that has the entries up to it. -/
theorem LogStore.Valid.receipt_eq_of_isPrefix (hvalid : store.Valid) (hvalid' : store'.Valid)
    (hinitial : store.entries <+: store'.entries) {seq : UInt64}
    (hseq : seq.toNat < store.entries.length) :
    Receipt.of store' seq logId operator = Receipt.of store seq logId operator := by
  obtain ⟨record, hrecord⟩ : ∃ record, store.entries[seq.toNat]? = some record :=
    ⟨_, List.getElem?_eq_getElem hseq⟩
  have hrecord' : store'.entries[seq.toNat]? = some record := by
    obtain ⟨more, hmore⟩ := hinitial
    rw [← hmore, List.getElem?_append_left hseq, hrecord]
  rw [hvalid.receipt_eq logId operator hrecord, hvalid'.receipt_eq logId operator hrecord',
    take_commitments hinitial hseq]

/-- The current head is the one in the receipt for the last entry. -/
theorem LogStore.Valid.currentHead_eq_receipt (hvalid : store.Valid) (logId : String)
    (operator : KeyPair) (hpos : 0 < store.entries.length) :
    ∃ receipt, Receipt.of store (store.size - 1) logId operator = some receipt ∧
      currentHead store logId operator = some (receipt.map Receipt.treeHead) := by
  obtain ⟨record, hlast⟩ : ∃ record, store.entries.getLast? = some record :=
    ⟨_, List.getLast?_eq_some_getLast (List.length_pos_iff.mp hpos)⟩
  have hsub := hvalid.last_toNat hpos
  have hrecord : store.entries[(store.size - 1).toNat]? = some record := by
    rw [hsub, ← List.getLast?_eq_getElem?, hlast]
  have htake : store.commitments.take ((store.size - 1).toNat + 1) = store.commitments := by
    rw [hsub, List.take_of_length_le]
    rw [LogStore.length_commitments]
    omega
  refine ⟨_, hvalid.receipt_eq logId operator hrecord, ?_⟩
  rw [htake, receipt_over_treeHead, hvalid.currentHead_eq hlast]

/-- The head in the receipt for the last entry is the current one. -/
theorem LogStore.Valid.currentHead_of_receipt (hvalid : store.Valid) {seq : UInt64}
    {receipt : Receipt} (hreceipt : Receipt.of store seq logId operator = some (some receipt))
    (hlast : store.entries.length = seq.toNat + 1) :
    currentHead store logId operator = some (some receipt.treeHead) := by
  obtain ⟨last, hlastReceipt, hhead⟩ :=
    hvalid.currentHead_eq_receipt logId operator (by omega)
  have hseq : store.size - 1 = seq := by
    rw [← UInt64.toNat_inj, hvalid.last_toNat (by omega), hlast, Nat.add_sub_cancel]
  rw [hseq, hreceipt, Option.some.injEq] at hlastReceipt
  rw [hhead, ← hlastReceipt, Option.map_some]

variable [SerdeJson]

/-- As the log grows, every receipt stays what it was, and the current head becomes
the head in the receipt of what was the last entry. -/
theorem receipts_of_later (hreachable : store.Reachable) (hlater : store.Later store')
    (logId : String) (operator : KeyPair) :
    (∀ seq < store.size, ∃ receipt, Receipt.of store seq logId operator = some receipt ∧
      Receipt.of store' seq logId operator = some receipt) ∧
      (0 < store.size → ∃ receipt,
        Receipt.of store' (store.size - 1) logId operator = some receipt ∧
          currentHead store logId operator = some (receipt.map Receipt.treeHead)) := by
  have hvalid := hreachable.valid
  obtain ⟨hvalid', hinitial⟩ := hvalid.later hlater
  have hsize := hvalid.size_toNat
  have hsame : ∀ seq : UInt64, seq.toNat < store.entries.length →
      Receipt.of store' seq logId operator = Receipt.of store seq logId operator :=
    fun seq hseq => hvalid.receipt_eq_of_isPrefix hvalid' hinitial hseq
  constructor
  · intro seq hseq
    rw [UInt64.lt_iff_toNat_lt, hsize] at hseq
    have hrecord := hvalid.receipt_eq logId operator (List.getElem?_eq_getElem hseq)
    exact ⟨_, hrecord, (hsame seq hseq).trans hrecord⟩
  · intro hpos
    rw [UInt64.lt_iff_toNat_lt, hsize] at hpos
    obtain ⟨receipt, hreceipt, hhead⟩ :=
      hvalid.currentHead_eq_receipt logId operator hpos
    refine ⟨receipt, (hsame _ ?_).trans hreceipt, hhead⟩
    rw [hvalid.last_toNat hpos]
    exact Nat.sub_lt hpos (by decide)

end

/-- The first receipt and the first head, before and after a second record. -/
theorem Sample.receipts_of_two :
    ∃ one two receipt, empty.Later one ∧ one.Later two ∧ one.size = 1 ∧
      Receipt.of one 0 logId operator = some receipt ∧
        Receipt.of two 0 logId operator = some receipt ∧
          currentHead one logId operator = some (receipt.map Receipt.treeHead) := by
  obtain ⟨one, two, hone, htwo, hlen⟩ := exists_two
  have hlater : empty.Later one := .single ⟨_, _, _, hone⟩
  have hlater' : one.Later two := .single ⟨_, _, _, htwo⟩
  have hreachable : one.Reachable := ⟨some none, empty, open_empty, hlater⟩
  have hsize : one.size = 1 := by rw [LogStore.size, hlen]; rfl
  obtain ⟨hreceipts, hhead⟩ := receipts_of_later hreachable hlater' logId operator
  have hpos : 0 < one.size := by rw [hsize]; decide
  obtain ⟨receipt, hone₀, htwo₀⟩ := hreceipts 0 hpos
  obtain ⟨receipt', htwo₁, hcurrent⟩ := hhead hpos
  have hlast : one.size - 1 = 0 := by rw [hsize]; rfl
  rw [hlast, htwo₀] at htwo₁
  obtain rfl := Option.some.inj htwo₁
  exact ⟨one, two, receipt, hlater, hlater', hsize, hone₀, htwo₀, hcurrent⟩

end UnidppLog
