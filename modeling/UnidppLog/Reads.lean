/-
# Reads do not panic

What the read routes answer, for every path segment, every set of query parameters
and every state that an open and any number of appends lead to, the empty one
included. The tree indexes its levels unchecked and asserts its callers' bounds, and a
panic under the store's lock would poison the log for every later request. That the
recursions end is what their definitions are accepted by.
-/

import UnidppLog.Service
import UnidppLog.Verification

namespace UnidppLog

open Json (Value)
open Unidpp
open Text (trim)

section

/-- The part of a range behind its split point. -/
theorem sub_split {n k : ℕ} (hsplit : split n = some k) : U64.sub n k = some (n - k) :=
  U64.sub_of_le (split_lt hsplit).le

/-- Plain JSON is sent, with the status that it is sent with. -/
theorem exists_answer [SerdeJson] (hjson : SerdeJson.Conforms) (status : ℕ) {v : Value}
    (hplain : v.Plain) :
    ∃ response, jsonResponse status v = some response ∧ response.status = status := by
  obtain ⟨response, hresponse⟩ := exists_jsonResponse hjson status hplain
  exact ⟨response, hresponse, status_of_jsonResponse hresponse⟩

theorem exists_errorResponse [SerdeJson] (hjson : SerdeJson.Conforms) (status : ℕ) (msg : String) :
    ∃ response, errorResponse status msg = some response ∧ response.status = status :=
  exists_answer hjson status (Value.plain_ofFields (by simp [Value.Plain]))

variable [Unidpp]

open U64 in
/-- The functions of the tree leave a subtraction, a quotient or a shift unchecked where a
branch of the code or the split point guards it. They are the same functions with each of
these checked too, and each sum made in the branch in which the code makes it. -/
structure MerkleTree.Checked (tree : MerkleTree) : Prop where
  split : ∀ n < 2 ^ 64, UnidppLog.split n = do
    debugAssert (2 ≤ n)
    shl 1 (← ilog2 (← sub n 1))
  foldPeak : ∀ s acc, ∀ k < 64, tree.foldPeak s acc k = do
    if (← shr s k) &&& 1 = 0 then return acc
    let lvl ← tree.levels[k]?
    let peak ← lvl[← sub (← shr s k) 1]?
    match acc with
    | none => return some peak
    | some a => return some (nodeHash peak a)
  rangeHash : ∀ lo len, tree.rangeHash lo len = do
    if len.isPowerOfTwo then return ← tree.subtreeHash (trailingZeros len) (← div lo len)
    let k ← UnidppLog.split len
    let left ← tree.rangeHash lo k
    let right ← tree.rangeHash (← add lo k) (← sub len k)
    return nodeHash left right
  pathInto : ∀ m lo len path, tree.pathInto m lo len path = do
    if len = 1 then return path
    let k ← UnidppLog.split len
    if (← sub m lo) < k then
      let path ← tree.pathInto m lo k path
      let sibling ← tree.rangeHash (← add lo k) (← sub len k)
      return path ++ [⟨sibling, .right⟩]
    else
      let path ← tree.pathInto m (← add lo k) (← sub len k) path
      let sibling ← tree.subtreeHash (trailingZeros k) (← div lo k)
      return path ++ [⟨sibling, .left⟩]
  subProof : ∀ m lo len anchored path, tree.subProof m lo len anchored path = do
    if m = len then
      if anchored then return path
      return path ++ [← tree.rangeHash lo len]
    let k ← UnidppLog.split len
    if m ≤ k then
      let path ← tree.subProof m lo k anchored path
      return path ++ [← tree.rangeHash (← add lo k) (← sub len k)]
    else
      let path ← tree.subProof (← sub m k) (← add lo k) (← sub len k) false path
      return path ++ [← tree.rangeHash lo k]

theorem MerkleTree.checked (tree : MerkleTree) : tree.Checked where
  split n hn := by
    rw [UnidppLog.split]
    by_cases htwo : 2 ≤ n
    · have hlog : (n - 1).log2 < 64 := (Nat.log2_lt (by omega)).mpr (by omega)
      rw [U64.sub_of_le (show 1 ≤ n by omega)]
      simp only [U64.ilog2_of_pos (show 0 < n - 1 by omega), U64.one_shl hlog,
        Option.bind_eq_bind, Option.bind_some]
      rfl
    · simp [debugAssert, htwo]
  foldPeak s acc k hk := by
    rw [MerkleTree.foldPeak, U64.shr_of_lt hk]
    simp only [Option.bind_eq_bind, Option.bind_some]
    split
    · rfl
    · next hbit =>
      have hpos : 1 ≤ s >>> k := by
        refine Nat.one_le_iff_ne_zero.mpr fun hzero => hbit ?_
        rw [hzero, Nat.zero_and]
      rw [U64.sub_of_le hpos]
      rfl
  rangeHash lo len := by
    rw [MerkleTree.rangeHash]
    by_cases hpow : len.isPowerOfTwo
    · have hpos : 0 < len := by
        obtain ⟨e, rfl⟩ := hpow
        exact Nat.two_pow_pos e
      simp [hpow, U64.div_of_pos hpos]
    · rw [if_neg hpow, if_neg hpow]
      split
      · next hsplit => rw [hsplit]; rfl
      · next k hsplit =>
        simp only [hsplit, sub_split hsplit, Option.bind_eq_bind, Option.bind_some]
  pathInto m lo len path := by
    rw [MerkleTree.pathInto]
    by_cases hone : len = 1
    · rw [if_pos hone, if_pos hone]; rfl
    · rw [if_neg hone, if_neg hone]
      split
      · next hsplit => rw [hsplit]; rfl
      · next k hsplit =>
        simp only [hsplit, sub_split hsplit, U64.div_of_pos (split_pos hsplit),
          Option.bind_eq_bind, Option.bind_some]
        cases U64.add lo k <;> simp
  subProof m lo len anchored path := by
    rw [MerkleTree.subProof]
    by_cases heq : m = len
    · rw [if_pos heq, if_pos heq]
      cases anchored <;> rfl
    · rw [if_neg heq, if_neg heq]
      split
      · next hsplit => rw [hsplit]; rfl
      · next k hsplit =>
        simp only [hsplit, sub_split hsplit, Option.bind_eq_bind, Option.bind_some]
        by_cases hle : m ≤ k
        · simp only [if_pos hle]
          cases U64.add lo k <;> simp
        · have hold := U64.sub_of_le (show k ≤ m by omega)
          simp only [if_neg hle, hold, Option.bind_some]

namespace LogStore

variable (store : LogStore)

/-- The status that the text of a sequence number is answered with. -/
def receiptStatus (seq : String) : ℕ :=
  match parseU64 (trim seq.toList) with
  | none => 400
  | some seq => if seq < store.size then 200 else 404

/-- The status that the text of an old size is answered with. -/
def consistencyStatus (oldSize : Option String) : ℕ :=
  match oldSize.bind fun s => parseU64 (trim s.toList) with
  | none => 400
  | some oldSize => if store.size < oldSize then 400 else 200

end LogStore

namespace LogStore.Valid

variable {store : LogStore} {operator : KeyPair}

/-- The entries that a sequence number may ask for are those below the size. -/
theorem getElem?_eq_none_iff (hvalid : store.Valid) {seq : UInt64} :
    store.entries[seq.toNat]? = none ↔ store.size ≤ seq := by
  rw [List.getElem?_eq_none_iff, UInt64.le_iff_toNat_le, hvalid.size_toNat]

/-- A receipt is asked for without a panic, and there is none behind the last
entry only. -/
theorem receipt_total (hvalid : store.Valid)
    (hsign : ∀ bytes, ∃ slot, sign operator .treeHead bytes = .ok slot) (logId : String)
    (seq : UInt64) :
    ∃ receipt, Receipt.of store seq logId operator = some receipt ∧
      (receipt = none ↔ store.size ≤ seq) := by
  cases hrecord : store.entries[seq.toNat]? with
  | none =>
      refine ⟨none, receipt_eq_none hrecord, ?_⟩
      simpa using hvalid.getElem?_eq_none_iff.mp hrecord
  | some record =>
      obtain ⟨receipt, hreceipt⟩ := hvalid.exists_receipt hsign logId hrecord
      refine ⟨some receipt, hreceipt, ?_⟩
      simp [← hvalid.getElem?_eq_none_iff, hrecord]

/-- The head is read without a panic, and there is none of the empty log only. -/
theorem currentHead_total (hvalid : store.Valid)
    (hsign : ∀ bytes, ∃ slot, sign operator .treeHead bytes = .ok slot) (logId : String) :
    ∃ head, currentHead store logId operator = some head ∧ (head = none ↔ store.size = 0) := by
  have hsize : store.size = 0 ↔ store.entries = [] := by
    rw [← UInt64.toNat_inj, hvalid.size_toNat]
    exact List.length_eq_zero_iff
  cases hlast : store.entries.getLast? with
  | none =>
      have hempty := List.getLast?_eq_none_iff.mp hlast
      exact ⟨none, currentHead_empty hempty, by simpa using hsize.mpr hempty⟩
  | some record =>
      obtain ⟨slot, hslot⟩ := hsign (canonicalBytes logId
        (UInt64.ofNat store.commitments.length) record.loggedAt
        (Rfc6962.mth scheme store.commitments))
      have hover := SignedTreeHead.over_eq_some_iff.mpr ⟨slot, hslot, rfl⟩
      refine ⟨_, hvalid.currentHead_eq hlast, ?_⟩
      rw [hover, hsize, ← List.getLast?_eq_none_iff, hlast]
      simp

end LogStore.Valid

theorem AppState.plain_rootJson (root : Option Hash) : (AppState.rootJson root).Plain := by
  cases root <;> simp [AppState.rootJson, Value.Plain]

variable [SerdeJson]

namespace AppState

variable {app : AppState}

theorem receipt_answered (hjson : SerdeJson.Conforms) (hvalid : app.store.Valid)
    (hsign : ∀ bytes, ∃ slot, sign app.operator.key .treeHead bytes = .ok slot) (seq : String) :
    ∃ response, app.receipt seq = some response ∧
      response.status = app.store.receiptStatus seq := by
  rw [AppState.receipt, LogStore.receiptStatus]
  cases parseU64 (trim seq.toList) with
  | none => exact exists_errorResponse hjson 400 _
  | some seq =>
      obtain ⟨receipt, hreceipt, hnone⟩ := hvalid.receipt_total hsign app.operator.logId seq
      simp only [hreceipt, Option.bind_eq_bind, Option.bind_some]
      cases receipt with
      | none =>
          rw [if_neg (UInt64.not_lt.mpr (hnone.mp rfl))]
          exact exists_errorResponse hjson 404 _
      | some receipt =>
          rw [if_pos (UInt64.not_le.mp fun hle => by simpa using hnone.mpr hle)]
          exact exists_answer hjson 200 (app.operator.plain_receipt receipt).1

theorem treeConsistency_answered (hjson : SerdeJson.Conforms) (hvalid : app.store.Valid)
    (params : String → Option String) :
    ∃ response, app.treeConsistency params = some response ∧
      response.status = app.store.consistencyStatus (params "from") := by
  rw [treeConsistency, LogStore.consistencyStatus]
  cases params "from" with
  | none => exact exists_errorResponse hjson 400 _
  | some text =>
      rw [Option.map_some, Option.bind_some]
      cases trim text.toList with
      | nil => exact exists_errorResponse hjson 400 _
      | cons c cs =>
          cases hparse : parseU64 (c :: cs) with
          | none =>
              simp only [hparse]
              exact exists_errorResponse hjson 400 _
          | some oldSize =>
              simp only [hparse]
              by_cases hlarge : app.store.size < oldSize
              · simp only [if_pos hlarge]
                exact exists_errorResponse hjson 400 _
              · obtain ⟨root, oldRoot, path, hroot, hold, hpath⟩ :=
                  hvalid.consistency_total hlarge
                simp only [if_neg hlarge, hroot, hold, hpath, Option.bind_eq_bind,
                  Option.bind_some]
                refine exists_answer hjson 200 (Value.plain_ofFields ?_)
                simpa [Value.Plain, app.operator.plain_info.1, plain_rootJson]
                  using (plain_hashes path).1

theorem treeHead_answered (hjson : SerdeJson.Conforms) (operator : Operator)
    (head : Option SignedTreeHead) (tsa : Option TsaRecord) :
    ∃ response, treeHeadResponse operator head tsa = some response ∧ response.status = 200 :=
  exists_answer hjson 200 (plain_treeHeadJson operator head tsa).1

/-- Where signing does not fail, every read of a state that an open and appends lead to is
answered without a panic. A receipt is there for every sequence number below the size and
for no other, a head is there unless the log is empty, a consistency answer for every old
size up to the size and an error for every other; and the tree's functions are the same with
every operation checked. -/
theorem reads_answered (hjson : SerdeJson.Conforms) (hreachable : app.store.Reachable)
    (hsign : ∀ bytes, ∃ slot, sign app.operator.key .treeHead bytes = .ok slot) :
    (∀ seq, ∃ receipt, Receipt.of app.store seq app.operator.logId app.operator.key = some receipt ∧
      (receipt = none ↔ app.store.size ≤ seq)) ∧
    (∀ text, ∃ response, app.receipt text = some response ∧
      response.status = app.store.receiptStatus text) ∧
    (∃ head, currentHead app.store app.operator.logId app.operator.key = some head ∧
      (head = none ↔ app.store.size = 0) ∧
      ∀ tsa, ∃ response, treeHeadResponse app.operator head tsa = some response ∧
        response.status = 200) ∧
    (∀ oldSize, ¬ app.store.size < oldSize → ∃ root oldRoot path,
      app.store.root = some root ∧ app.store.rootAtSize oldSize = some oldRoot ∧
        app.store.consistencyPath oldSize = some path) ∧
    (∀ params, ∃ response, app.treeConsistency params = some response ∧
      response.status = app.store.consistencyStatus (params "from")) ∧
    app.store.tree.Checked := by
  have hvalid := hreachable.valid
  obtain ⟨head, hhead, hempty⟩ := hvalid.currentHead_total hsign app.operator.logId
  exact ⟨hvalid.receipt_total hsign app.operator.logId, receipt_answered hjson hvalid hsign,
    ⟨head, hhead, hempty, treeHead_answered hjson app.operator head⟩,
    fun oldSize hle => hvalid.consistency_total hle, treeConsistency_answered hjson hvalid,
    app.store.tree.checked⟩

end AppState

end

namespace Sample

/-- The empty log has no receipt and proves the empty prefix; with two entries it serves
the second receipt and refuses an old size of three. -/
theorem reads_answered_of_two :
    Receipt.of empty 0 logId operator = some none ∧
    (∃ response, (app empty).treeConsistency (fun _ => some "0") = some response ∧
      response.status = 200) ∧
    ∃ two : LogStore, two.Reachable ∧ two.entries.length = 2 ∧
      (∃ response, (app two).receipt "1" = some response ∧ response.status = 200) ∧
      ∃ response, (app two).treeConsistency (fun _ => some "3") = some response ∧
        response.status = 400 := by
  have hsign : ∀ bytes, ∃ slot, Unidpp.sign operator .treeHead bytes = .ok slot :=
    fun _ => ⟨_, rfl⟩
  obtain ⟨one, two, hone, htwo, hlen⟩ := exists_two
  have hreachable : two.Reachable := ⟨some none, empty, open_empty,
    .tail (.single ⟨_, _, _, hone⟩) ⟨_, _, _, htwo⟩⟩
  have hvalid : one.Valid := (valid_empty.append serdeJson_conforms hone).2.1
  have hentries : two.entries.length = 2 := by
    rw [(hvalid.append serdeJson_conforms htwo).2.2.1, List.length_append, hlen]
    rfl
  have hsize : two.size = 2 := by rw [LogStore.size, hentries]; rfl
  obtain ⟨hreceipts, -, -, -, hzero, -⟩ :=
    AppState.reads_answered serdeJson_conforms
      (show (app empty).store.Reachable from empty_reachable) hsign
  obtain ⟨-, hserved, -, -, hrefused, -⟩ :=
    AppState.reads_answered serdeJson_conforms
      (show (app two).store.Reachable from hreachable) hsign
  obtain ⟨receipt, hreceipt, hnone⟩ := hreceipts 0
  refine ⟨?_, ?_, two, hreachable, hentries, ?_, ?_⟩
  · rw [hnone.mpr (by decide)] at hreceipt
    exact hreceipt
  · obtain ⟨response, hresponse, hstatus⟩ := hzero fun _ => some "0"
    exact ⟨response, hresponse, hstatus.trans (by decide)⟩
  · obtain ⟨response, hresponse, hstatus⟩ := hserved "1"
    refine ⟨response, hresponse, hstatus.trans ?_⟩
    rw [LogStore.receiptStatus, app, hsize]
    decide
  · obtain ⟨response, hresponse, hstatus⟩ := hrefused fun _ => some "3"
    refine ⟨response, hresponse, hstatus.trans ?_⟩
    rw [LogStore.consistencyStatus, app, hsize]
    decide

end Sample

end UnidppLog
