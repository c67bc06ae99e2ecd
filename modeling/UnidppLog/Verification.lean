/-
# Offline verification

What a verifier makes of the JSON it is handed. From a receipt it rebuilds the
head and the inclusion proof, and from a later consistency answer the two roots
and the path between them. Its three checks accept every receipt the log issues
and every later answer to it.
-/

import UnidppLog.Sample.Requests

namespace UnidppLog

open Json (Value)
open Rfc6962 (mth foldPath path proof verifyConsistency)
open Unidpp
open Text (trim)

section

variable [Unidpp]

/-- Signing fills the slot, and the signature verifies under the key's public
half. -/
structure SignatureLaws : Prop where
  fills : ∀ key domain bytes slot, sign key domain bytes = .ok slot →
    ∃ value, slot.signature = some value
  verifies : ∀ key domain bytes slot, sign key domain bytes = .ok slot →
    verifySlot (publicKey key) domain bytes slot = true

/-- A hash in hexadecimal text. -/
def readHash (v : Value) : Option Hash :=
  v.asStr.bind fromHex

/-- What a verifier takes from a receipt. -/
structure ReceiptView where
  seq : UInt64
  commitment : Hash
  head : SignedTreeHead
  inclusion : InclusionProof

def receiptView (v : Value) : Option ReceiptView := do
  let seq ← (v.get "seq").bind Value.asU64
  let commitment ← (v.get "commitment").bind readHash
  let head ← (← (sthFromJson (← v.get "tree_head")).run).toOption
  let inclusion ← (proofFromJson (← v.get "inclusion")).toOption
  return { seq, commitment, head, inclusion }

/-- What a verifier takes from a consistency answer. -/
structure ConsistencyView where
  oldSize : UInt64
  oldRoot : Hash
  newSize : UInt64
  newRoot : Hash
  path : List Hash

def consistencyView (v : Value) : Option ConsistencyView := do
  let oldSize ← (v.get "old_size").bind Value.asU64
  let oldRoot ← (v.get "old_root").bind readHash
  let newSize ← (v.get "new_size").bind Value.asU64
  let newRoot ← (v.get "new_root").bind readHash
  let path ← (← (v.get "path").bind Value.asArray).mapM readHash
  return { oldSize, oldRoot, newSize, newRoot, path }

/-- The head's signature verifies under the operator's key, and the inclusion
proof reconstructs the head's root from the commitment. -/
structure ReceiptView.Verifies (view : ReceiptView) (key : PublicKey) : Prop where
  signature : verifySlot key .treeHead (canonicalBytes view.head.logId view.head.treeSize
    view.head.timestamp view.head.root) view.head.signature = true
  leafIndex : view.inclusion.leafIndex = view.seq
  treeSize : view.inclusion.treeSize.toNat = view.seq.toNat + 1
  headSize : view.head.treeSize = view.inclusion.treeSize
  inclusion : foldPath scheme (leafHash view.commitment) view.inclusion.path = view.head.root

/-- The answer is about the receipt's head, and its path ties that head to the
answer's. -/
structure ReceiptView.ExtendedBy (view : ReceiptView) (answer : ConsistencyView) : Prop where
  oldSize : answer.oldSize = view.head.treeSize
  oldRoot : answer.oldRoot = view.head.root
  consistency : verifyConsistency scheme view.head.treeSize.toNat view.head.root
    answer.newSize.toNat answer.newRoot answer.path = true

variable {logId : String} {operator : KeyPair}

/-- The view of a receipt's JSON is the receipt's. -/
theorem receiptView_toJson (hforms : RecordTextForms) (hsignature : SignatureTextForms)
    (receipt : Receipt) {value : List UInt8}
    (hvalue : receipt.treeHead.signature.signature = some value) (operatorInfo : Value) :
    receiptView (receipt.toJson operatorInfo) =
      some { seq := receipt.record.seq, commitment := receipt.record.commitment
             head := receipt.treeHead, inclusion := receipt.inclusion } := by
  have hhead := sthFromJson_sthJson hforms hsignature hvalue
  have hproof := proofFromJson_proofJson hforms receipt.inclusion receipt.record.commitment
  simp only [receiptView, Receipt.toJson, Value.get_ofFields, List.reverse_cons, List.reverse_nil,
    List.nil_append, List.cons_append, Json.lookup_cons]
  simp [Value.asU64, Json.Number.asU64, readHash, Value.asStr, hforms.fromHex_hex, hhead, hproof,
    Except.toOption]

/-- Both checks of a receipt's own accept it. -/
theorem LogStore.Valid.receipt_verifies (hlaws : SignatureLaws) {store : LogStore}
    (hvalid : store.Valid) {seq : UInt64} {receipt : Receipt}
    (hreceipt : Receipt.of store seq logId operator = some (some receipt)) :
    ReceiptView.Verifies
      { seq := receipt.record.seq, commitment := receipt.record.commitment
        head := receipt.treeHead, inclusion := receipt.inclusion } (publicKey operator) := by
  obtain ⟨record, slot, hrecord, hslot, rfl⟩ := hvalid.exists_of_receipt hreceipt
  have hlt := hvalid.length_lt
  obtain ⟨hseq, hentry⟩ := List.getElem?_eq_some_iff.mp hrecord
  have hnumber : record.seq = seq := by
    rw [hvalid.seq_eq _ _ hrecord, UInt64.ofNat_toNat]
  have hlen : seq.toNat < (store.commitments.take (seq.toNat + 1)).length := by
    rw [List.length_take, LogStore.length_commitments]
    omega
  have hleaf : (store.commitments.take (seq.toNat + 1))[seq.toNat] = record.commitment := by
    simp [LogStore.commitments, hentry]
  have hfold := Rfc6962.foldPath_path scheme hlen
  rw [hleaf] at hfold
  refine ⟨hlaws.verifies _ _ _ _ hslot, hnumber.symm, ?_, rfl, hfold⟩
  simp only [hnumber]
  rw [UInt64.toNat_ofNat', Nat.mod_eq_of_lt (by omega)]

/-- The wire view of an answer. -/
def ConsistencyView.toJson (answer : ConsistencyView) (logId : String) (operatorInfo : Value) :
    Value :=
  .ofFields [
    ("log_id", .string logId),
    ("old_size", .number (.posInt answer.oldSize)),
    ("old_root", .string (hex answer.oldRoot)),
    ("new_size", .number (.posInt answer.newSize)),
    ("new_root", .string (hex answer.newRoot)),
    ("path", .array (answer.path.map fun h => .string (hex h))),
    ("operator", operatorInfo)]

theorem mapM_readHash (hforms : RecordTextForms) (hashes : List Hash) :
    (hashes.map fun h => Value.string (hex h)).mapM readHash = some hashes := by
  induction hashes with
  | nil => rfl
  | cons h rest ih =>
      have hread : readHash (.string (hex h)) = some h := hforms.fromHex_hex h
      rw [List.map_cons, List.mapM_cons, hread, ih]
      rfl

/-- The view of an answer's JSON is the answer. -/
theorem consistencyView_toJson (hforms : RecordTextForms) (answer : ConsistencyView)
    (logId : String) (operatorInfo : Value) :
    consistencyView (answer.toJson logId operatorInfo) = some answer := by
  have hpath := mapM_readHash hforms answer.path
  simp [consistencyView, ConsistencyView.toJson, Value.get_ofFields, Json.lookup_cons,
    Value.asU64, Json.Number.asU64, readHash, Value.asStr, Value.asArray, hforms.fromHex_hex,
    hpath]

theorem plain_hashes (hashes : List Hash) :
    (Value.array (hashes.map fun h => .string (hex h))).Plain ∧
      (Value.array (hashes.map fun h => .string (hex h))).depth ≤ 1 := by
  constructor
  · simp [Value.Plain, Value.plainItems_iff]
  · refine Value.depth_array_le fun v hv => ?_
    obtain ⟨h, -, rfl⟩ := List.mem_map.mp hv
    simp [Value.depth]

/-- An answer is plain JSON, two brackets deep. -/
theorem ConsistencyView.plain_toJson (answer : ConsistencyView) (logId : String)
    {operatorInfo : Value} (hplain : operatorInfo.Plain) (hdepth : operatorInfo.depth ≤ 1) :
    (answer.toJson logId operatorInfo).Plain ∧ (answer.toJson logId operatorInfo).depth ≤ 2 := by
  obtain ⟨hpath, hpath'⟩ := plain_hashes answer.path
  constructor
  · refine Value.plain_ofFields ?_
    simpa [Value.Plain, hplain] using hpath
  · refine Value.depth_ofFields_le ?_
    simpa [Value.depth, hdepth] using hpath'

end

section

variable [Unidpp] [SerdeJson]

namespace AppState

/-- A receipt's JSON is handed out: it answers an append, or is served again. -/
inductive Issues (app : AppState) : AppState → String → Prop
  | committed {authorization : Option String} {body : String} {now : Timestamp}
      {outcome : WriteOutcome} {response : Response} {app' : AppState}
      (hrun : app.commit authorization body now outcome = some (response, app'))
      (hstatus : response.status = 201) : Issues app app' response.body
  | served {seq : String} {response : Response} (hrun : app.receipt seq = some response)
      (hstatus : response.status = 200) : Issues app app response.body

variable {app app' : AppState}

/-- An append that is answered with 201 is answered with the receipt of its
record. -/
theorem exists_receipt_of_commit {authorization : Option String} {body : String}
    {now : Timestamp} {outcome : WriteOutcome} {response : Response}
    (hrun : app.commit authorization body now outcome = some (response, app'))
    (hstatus : response.status = 201) :
    ∃ seq receipt, app.store.Appends app'.store ∧ app'.operator = app.operator ∧
      Receipt.of app'.store seq app.operator.logId app.operator.key = some (some receipt) ∧
        jsonResponse 201 (receipt.toJson app.operator.info) = some response := by
  rw [commit] at hrun
  split at hrun
  · obtain ⟨denied, hdenied, heq⟩ := Option.bind_eq_some_iff.mp hrun
    obtain ⟨rfl, -⟩ := Prod.mk.inj (Option.some.inj heq)
    simp [status_of_jsonResponse hdenied] at hstatus
  split at hrun
  · obtain ⟨refused, hrefused, heq⟩ := Option.bind_eq_some_iff.mp hrun
    obtain ⟨rfl, -⟩ := Prod.mk.inj (Option.some.inj heq)
    simp [status_of_jsonResponse hrefused] at hstatus
  · obtain ⟨⟨result, store⟩, happend, hrun⟩ := Option.bind_eq_some_iff.mp hrun
    cases result with
    | error e =>
        obtain ⟨failed, hfailed, heq⟩ := Option.bind_eq_some_iff.mp hrun
        obtain ⟨rfl, -⟩ := Prod.mk.inj (Option.some.inj heq)
        simp [status_of_jsonResponse hfailed] at hstatus
    | ok record =>
        simp only [Option.bind_eq_bind, Option.bind_eq_some_iff] at hrun
        obtain ⟨_, hreceipt, receipt, rfl, created, hcreated, heq⟩ := hrun
        obtain ⟨rfl, rfl⟩ := Prod.mk.inj (Option.some.inj heq)
        exact ⟨record.seq, receipt, ⟨_, _, _, happend⟩, rfl, hreceipt, hcreated⟩

theorem exists_receipt_of_served {seq : String} {response : Response}
    (hrun : app.receipt seq = some response) (hstatus : response.status = 200) :
    ∃ n receipt,
      Receipt.of app.store n app.operator.logId app.operator.key = some (some receipt) ∧
        jsonResponse 200 (receipt.toJson app.operator.info) = some response := by
  rw [AppState.receipt] at hrun
  split at hrun
  · simp [status_of_jsonResponse hrun] at hstatus
  · next n _ =>
    obtain ⟨result, hreceipt, hrun⟩ := Option.bind_eq_some_iff.mp hrun
    cases result with
    | none => simp [status_of_jsonResponse hrun] at hstatus
    | some receipt => exact ⟨n, receipt, hreceipt, hrun⟩

/-- Whatever is handed out is a receipt of the store. -/
theorem Issues.exists_receipt {body : String} (h : app.Issues app' body) :
    ∃ seq receipt status response, app.store.Later app'.store ∧ app'.operator = app.operator ∧
      Receipt.of app'.store seq app.operator.logId app.operator.key = some (some receipt) ∧
        jsonResponse status (receipt.toJson app.operator.info) = some response ∧
          response.body = body := by
  cases h with
  | committed hrun hstatus =>
      obtain ⟨seq, receipt, happends, hoperator, hreceipt, hresponse⟩ :=
        exists_receipt_of_commit hrun hstatus
      exact ⟨seq, receipt, 201, _, .single happends, hoperator, hreceipt, hresponse, rfl⟩
  | served hrun hstatus =>
      obtain ⟨seq, receipt, hreceipt, hresponse⟩ := exists_receipt_of_served hrun hstatus
      exact ⟨seq, receipt, 200, _, .refl, rfl, hreceipt, hresponse, rfl⟩

/-- Asked for a nonempty prefix of its tree, the log answers with the roots of
the prefix and of the whole, and the proof between them. -/
theorem treeConsistency_eq (hvalid : app.store.Valid) {params : String → Option String}
    {text : String} {oldSize : UInt64} (htext : params "from" = some text)
    (hparse : parseU64 (trim text.toList) = some oldSize) (hpos : 0 < oldSize.toNat)
    (hle : oldSize.toNat ≤ app.store.entries.length) :
    app.treeConsistency params = jsonResponse 200
      (ConsistencyView.toJson
        { oldSize, oldRoot := mth scheme (app.store.commitments.take oldSize.toNat)
          newSize := app.store.size, newRoot := mth scheme app.store.commitments
          path := proof scheme oldSize.toNat app.store.commitments }
        app.operator.logId app.operator.info) := by
  have hrep := hvalid.represents
  have hlen := app.store.length_commitments
  have hnot : ¬ app.store.size < oldSize := by
    rw [UInt64.lt_iff_toNat_lt, hvalid.size_toNat]
    omega
  have hroot : app.store.root = some (some (mth scheme app.store.commitments)) := by
    rw [LogStore.root, MerkleTree.root, hrep.size_eq, hrep.rootAtSize le_rfl, List.take_length,
      rootOf_of_ne_nil (List.ne_nil_of_length_pos (by omega))]
  have hold := hvalid.rootAtSize hpos hle
  rw [UInt64.ofNat_toNat] at hold
  have hpath : app.store.consistencyPath oldSize =
      some (proof scheme oldSize.toNat app.store.commitments) :=
    hrep.consistencyPath (by omega)
  obtain ⟨c, cs, htrim⟩ : ∃ c cs, trim text.toList = c :: cs := by
    refine List.exists_cons_of_ne_nil fun hnil => ?_
    rw [hnil] at hparse
    simp [parseU64] at hparse
  rw [treeConsistency, htext, Option.map_some, htrim]
  simp only [← htrim, hparse, if_neg hnot, hroot, hold, hpath, Option.bind_eq_bind,
    Option.bind_some, rootJson, ConsistencyView.toJson]

theorem exists_treeConsistency (hforms : RecordTextForms) (hjson : SerdeJson.Conforms)
    (hvalid : app.store.Valid) {params : String → Option String} {text : String}
    {oldSize : UInt64} (htext : params "from" = some text)
    (hparse : parseU64 (trim text.toList) = some oldSize) (hpos : 0 < oldSize.toNat)
    (hle : oldSize.toNat ≤ app.store.entries.length) :
    ∃ response v, app.treeConsistency params = some response ∧ response.status = 200 ∧
      SerdeJson.fromStr response.body = .ok v ∧
        consistencyView v =
          some { oldSize, oldRoot := mth scheme (app.store.commitments.take oldSize.toNat)
                 newSize := app.store.size, newRoot := mth scheme app.store.commitments
                 path := proof scheme oldSize.toNat app.store.commitments } := by
  rw [treeConsistency_eq hvalid htext hparse hpos hle]
  obtain ⟨hinfo, hinfo'⟩ := app.operator.plain_info
  obtain ⟨hplain, hdepth⟩ := ConsistencyView.plain_toJson
    { oldSize, oldRoot := mth scheme (app.store.commitments.take oldSize.toNat)
      newSize := app.store.size, newRoot := mth scheme app.store.commitments
      path := proof scheme oldSize.toNat app.store.commitments } app.operator.logId hinfo hinfo'
  obtain ⟨response, hresponse⟩ := exists_jsonResponse hjson 200 hplain
  exact ⟨response, _, hresponse, status_of_jsonResponse hresponse,
    fromStr_body hjson hplain (by omega) hresponse, consistencyView_toJson hforms _ _ _⟩

/-! ## The three checks -/

/-- Every receipt that is handed out, rebuilt from its JSON, carries a head that
verifies under the operator's key and a proof that folds its commitment to the
head's root; and asked at any later size about the receipt's tree size, the log
answers with the receipt's root and a proof that ties it to the current one. -/
theorem receipt_checks (hforms : RecordTextForms) (hsignature : SignatureTextForms)
    (hlaws : SignatureLaws) (hjson : SerdeJson.Conforms) {config : OperatorConfig}
    {later : AppState} {body : String} (hoperator : Operator.fromConfig config = .ok app.operator)
    (hreachable : app.store.Reachable) (hissued : app.Issues app' body)
    (hlater : app'.store.Later later.store) :
    ∃ v view, SerdeJson.fromStr body = .ok v ∧ receiptView v = some view ∧
      view.Verifies app.operator.pubKey ∧
        ∀ params text, params "from" = some text →
          parseU64 (trim text.toList) = some view.head.treeSize →
            ∃ response w answer, later.treeConsistency params = some response ∧
              response.status = 200 ∧ SerdeJson.fromStr response.body = .ok w ∧
                consistencyView w = some answer ∧ view.ExtendedBy answer := by
  obtain ⟨seq, receipt, status, response, hgrown, -, hreceipt, hresponse, rfl⟩ :=
    hissued.exists_receipt
  obtain ⟨hvalid, -⟩ := hreachable.valid.later hgrown
  obtain ⟨hvalid', hinitial⟩ := hvalid.later hlater
  obtain ⟨record, slot, hrecord, hslot, hfields⟩ := hvalid.exists_of_receipt hreceipt
  obtain ⟨value, hvalue⟩ := hlaws.fills _ _ _ _ hslot
  have hsigned : receipt.treeHead.signature.signature = some value := by rw [hfields, hvalue]
  obtain ⟨hplain, hdepth⟩ := app.operator.plain_receipt receipt
  refine ⟨_, _, fromStr_body hjson hplain (by omega) hresponse,
    receiptView_toJson hforms hsignature receipt hsigned _, ?_, ?_⟩
  · rw [Operator.pubKey_of_fromConfig hoperator]
    exact hvalid.receipt_verifies hlaws hreceipt
  · intro params text htext hparse
    obtain ⟨hseq, -⟩ := List.getElem?_eq_some_iff.mp hrecord
    have hlt := hvalid.length_lt
    have hsize : receipt.treeHead.treeSize.toNat = seq.toNat + 1 := by
      rw [hfields, UInt64.toNat_ofNat', Nat.mod_eq_of_lt (by omega)]
    have hroot : receipt.treeHead.root =
        mth scheme (later.store.commitments.take (seq.toNat + 1)) := by
      rw [hfields, take_commitments hinitial hseq]
    have hpos : 0 < receipt.treeHead.treeSize.toNat := by omega
    have hle : receipt.treeHead.treeSize.toNat ≤ later.store.entries.length := by
      have := hinitial.length_le
      omega
    have hlen := later.store.length_commitments
    obtain ⟨answered, w, hanswered, hstatus, hread, hview⟩ :=
      exists_treeConsistency hforms hjson hvalid' htext hparse hpos hle
    refine ⟨answered, w, _, hanswered, hstatus, hread, hview, rfl, ?_, ?_⟩
    · simp only [hsize, hroot]
    · simp only [hsize, hroot, hvalid'.size_toNat, ← hlen]
      exact Rfc6962.verifyConsistency_proof scheme (by omega) (by omega)

end AppState

end

namespace Sample

theorem signatureTextForms : SignatureTextForms where
  parseSuite_asStr s := by cases s <;> rfl
  newKeyId_asStr _ := rfl

theorem signatureLaws : SignatureLaws where
  fills _ _ _ _ hsign := by
    obtain rfl := Except.ok.inj hsign
    exact ⟨_, rfl⟩
  verifies _ _ _ _ hsign := by
    obtain rfl := Except.ok.inj hsign
    exact decide_eq_true rfl

/-- The first receipt of a nonempty store is served. -/
theorem exists_served {store : LogStore} (hvalid : store.Valid)
    (hpos : 0 < store.entries.length) : ∃ body, (app store).Issues (app store) body := by
  have hrecord : store.entries[(0 : UInt64).toNat]? = some store.entries[0] :=
    List.getElem?_eq_getElem hpos
  have hreceipt := hvalid.receipt_eq logId operator hrecord
  obtain ⟨receipt, hover⟩ : ∃ receipt, Receipt.over logId operator
      (store.commitments.take ((0 : UInt64).toNat + 1)) store.entries[0] = some receipt :=
    ⟨_, rfl⟩
  rw [hover] at hreceipt
  obtain ⟨response, hresponse⟩ := exists_jsonResponse serdeJson_conforms 200
    ((app store).operator.plain_receipt receipt).1
  have hserved : (app store).receipt (toString (0 : UInt64)) = some response := by
    have hof : Receipt.of (app store).store 0 (app store).operator.logId
        (app store).operator.key = some (some receipt) := hreceipt
    rw [AppState.receipt, parseU64_toString]
    simp only [hof, hresponse, Option.bind_eq_bind, Option.bind_some]
  exact ⟨response.body, .served hserved (status_of_jsonResponse hresponse)⟩

/-- The first receipt, checked when there are two entries. -/
theorem receipt_checks_of_two :
    ∃ one two body v view, one.Later two ∧ one.entries.length = 1 ∧
      (app one).Issues (app one) body ∧ SerdeJson.fromStr body = .ok v ∧
        receiptView v = some view ∧ view.Verifies (publicKey operator) ∧
          ∃ response w answer,
            (app two).treeConsistency (fun _ => some (toString view.head.treeSize)) =
              some response ∧ SerdeJson.fromStr response.body = .ok w ∧
                consistencyView w = some answer ∧ view.ExtendedBy answer := by
  obtain ⟨one, two, hone, htwo, hlen⟩ := exists_two
  have hoperator : Operator.fromConfig operatorConfig = .ok (app one).operator := rfl
  have hreachable : (app one).store.Reachable :=
    ⟨some none, empty, open_empty, .single ⟨_, _, _, hone⟩⟩
  have hlater : (app one).store.Later (app two).store := .single ⟨_, _, _, htwo⟩
  obtain ⟨body, hissued⟩ := exists_served hreachable.valid (by rw [app, hlen]; decide)
  obtain ⟨v, view, hread, hview, hverifies, hasked⟩ :=
    AppState.receipt_checks recordTextForms signatureTextForms signatureLaws serdeJson_conforms
      hoperator hreachable hissued hlater
  obtain ⟨answered, w, answer, hanswered, -, hread', hview', hextended⟩ :=
    hasked (fun _ => some (toString view.head.treeSize)) _ rfl (parseU64_toString _)
  exact ⟨one, two, _, v, view, hlater, hlen, hissued, hread, hview, hverifies,
    answered, w, answer, hanswered, hread', hview', hextended⟩

end Sample

end UnidppLog
