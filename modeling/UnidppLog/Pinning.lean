/-
# What a head pins

Whoever holds a head of the log, from whatever moment of a run, can be shown nothing
but the log. No path from anywhere folds a commitment to the head's root, unless it is
one of the commitments under the head and the path is the one that the tree proves it
with; and no older root is consistent with the head, unless it is that of the prefix.
The hashes are only assumed to tell apart what was hashed for the one check.
-/

import UnidppLog.Sample.Deployment
import UnidppLog.Rfc6962.Forgery

namespace UnidppLog

open Rfc6962 (treeInputs pathInputs consistencyInputs foldPath verifyConsistency mth)
open Unidpp

section

variable [Unidpp]

/-- The commitments under a head. -/
def LogStore.under (store : LogStore) (head : SignedTreeHead) : List Hash :=
  store.commitments.take head.treeSize.toNat

/-- The root of a minted head is that of the commitments under it. -/
theorem AppState.Minted.root_eq {app : AppState} {head : SignedTreeHead}
    (hvalid : app.store.Valid) (h : app.Minted head) :
    app.store.under head ≠ [] ∧ (app.store.under head).length = head.treeSize.toNat ∧
      head.root = mth scheme (app.store.under head) := by
  obtain ⟨seq, hseq, hsize, receipt, hreceipt, rfl⟩ := h.exists_seq hvalid
  obtain ⟨record, slot, -, -, hfields⟩ := hvalid.exists_of_receipt hreceipt
  have hlen : (app.store.under receipt.treeHead).length = receipt.treeHead.treeSize.toNat := by
    rw [LogStore.under, List.length_take, LogStore.length_commitments]
    omega
  refine ⟨List.ne_nil_of_length_pos (by omega), hlen, ?_⟩
  rw [LogStore.under, hsize, hfields]

namespace LogStore.Valid

variable {store : LogStore} {head : SignedTreeHead}

/-- The paths of the commitments under a head are those that the store proves them with. -/
theorem path_under_iff (hvalid : store.Valid) (hle : head.treeSize.toNat ≤ store.entries.length)
    {commitment : Hash} {nodes : List ProofNode} :
    (∃ m, (store.under head)[m]? = some commitment ∧
        nodes = Rfc6962.path scheme m (store.under head)) ↔
      ∃ m record, m < head.treeSize.toNat ∧ store.entries[m]? = some record ∧
        record.commitment = commitment ∧
          store.tree.inclusionPath m head.treeSize.toNat = some nodes := by
  have hrep := hvalid.represents
  have hle' : head.treeSize.toNat ≤ store.commitments.length := by
    rwa [LogStore.length_commitments]
  constructor
  · rintro ⟨m, hentry, rfl⟩
    have hm : m < head.treeSize.toNat := by
      have hlt := (List.getElem?_eq_some_iff.mp hentry).1
      rw [LogStore.under, List.length_take] at hlt
      omega
    rw [LogStore.under, List.getElem?_take_of_lt hm, LogStore.commitments, List.getElem?_map,
      Option.map_eq_some_iff] at hentry
    obtain ⟨record, hrecord, rfl⟩ := hentry
    exact ⟨m, record, hm, hrecord, rfl, hrep.inclusionPath hm hle'⟩
  · rintro ⟨m, record, hm, hrecord, rfl, hpath⟩
    refine ⟨m, ?_, ?_⟩
    · rw [LogStore.under, List.getElem?_take_of_lt hm, LogStore.commitments, List.getElem?_map,
        hrecord, Option.map_some]
    · rw [hrep.inclusionPath hm hle'] at hpath
      exact (Option.some.inj hpath).symm

/-- The roots of the prefixes under a head are those that the store has. -/
theorem root_under_iff (hvalid : store.Valid) (hle : head.treeSize.toNat ≤ store.entries.length)
    {m : ℕ} (hm : 0 < m) (hms : m ≤ head.treeSize.toNat) {oldRoot : Hash} :
    oldRoot = mth scheme ((store.under head).take m) ↔
      store.tree.rootAtSize m = some (some oldRoot) := by
  have hrep := hvalid.represents
  have hle' : m ≤ store.commitments.length := by
    rw [LogStore.length_commitments]
    omega
  have htake : store.commitments.take m ≠ [] :=
    List.ne_nil_of_length_pos (by rw [List.length_take]; omega)
  rw [LogStore.under, List.take_take, Nat.min_eq_left hms, hrep.rootAtSize hle',
    rootOf_of_ne_nil htake, Option.some.injEq, Option.some.injEq, eq_comm]

end LogStore.Valid

variable [SerdeJson] [Axum] [ExternalAnchoring]

/-- In whatever state a run of requests has come to: the heads that its handlers have read are
minted, and a minted head pins the log up to it. A commitment is folded to its root only by the
path that the store proves it with, and an older root is accepted as consistent with it only if
it is the root of the prefix, with the one proof there is. -/
theorem System.heads_pin (haxum : Axum.Conforms) {config : Config} {journal : Option JournalFile}
    {service : Service} (hnew : Service.new config journal = some (.ok service))
    {events : List ServerEvent} {s : System} (hrun : (init service).serves events = some s) :
    (∀ handler ∈ s.handlers, ∀ head, handler.head = some head → s.service.Minted head) ∧
    ∀ head, s.service.Minted head →
      (∀ commitment nodes,
        scheme.Separates (treeInputs scheme (s.service.store.under head) ++
          .leaf commitment :: pathInputs scheme (leafHash commitment) nodes) →
        (foldPath scheme (leafHash commitment) nodes = head.root ↔
          ∃ m record, m < head.treeSize.toNat ∧ s.service.store.entries[m]? = some record ∧
            record.commitment = commitment ∧
              s.service.store.tree.inclusionPath m head.treeSize.toNat = some nodes)) ∧
      ∀ m oldRoot nodes, 0 < m → m ≤ head.treeSize.toNat →
        scheme.Separates (consistencyInputs scheme m oldRoot head.treeSize.toNat nodes ++
          consistencyInputs scheme m (mth scheme ((s.service.store.under head).take m))
            head.treeSize.toNat (Rfc6962.proof scheme m (s.service.store.under head))) →
        (verifyConsistency scheme m oldRoot head.treeSize.toNat head.root nodes = true ↔
          s.service.store.tree.rootAtSize m = some (some oldRoot) ∧
            nodes = Rfc6962.proof scheme m (s.service.store.under head)) := by
  have hsound :=
    ((Serving.refl (sound_init hnew) (agrees_init service)).serves haxum hrun).sound
  refine ⟨hsound.minted, fun head hminted => ?_⟩
  have hle := hminted.le hsound.valid
  obtain ⟨hne, hlen, hroot⟩ := hminted.root_eq hsound.valid
  constructor
  · intro commitment nodes hsep
    rw [hroot]
    exact (Rfc6962.foldPath_eq_mth_iff hne hsep).trans (hsound.valid.path_under_iff hle)
  · intro m oldRoot nodes hm hms hsep
    rw [← hsound.valid.root_under_iff hle hm hms, hroot]
    rw [← hlen] at hms hsep ⊢
    exact Rfc6962.verifyConsistency_mth_iff hm hms hsep

end

namespace Sample

/-- A commitment to be sequenced. -/
def deposit (commitment : Hash) : HttpRequest where
  method := .post
  path := "/commitments"
  query := none
  headers := []
  body := Text.encode (body "dpp:1" commitment).toList

theorem serve_deposit (s : System) (commitment : Hash) (now : Fin 60) :
    s.serve (.request (deposit commitment) now .written) =
      s.step (.commit none (body "dpp:1" commitment) now .written) := by
  have hbody : Axum.bodyText (deposit commitment) = .ok (body "dpp:1" commitment) :=
    bodyText_of_encode (by rw [deposit])
  rw [System.serve, router_commitments rfl rfl hbody]
  rfl

/-- Three commitments, and the head over them. -/
def leaves : List Hash :=
  [digest [1], digest [2], digest [3]]

theorem exists_three :
    ∃ (s : System) (head : SignedTreeHead),
      (System.init (service none)).serves
        [.request (deposit (digest [1])) (1 : Fin 60) .written,
          .request (deposit (digest [2])) (2 : Fin 60) .written,
          .request (deposit (digest [3])) (3 : Fin 60) .written] = some s ∧
      s.service.Minted head ∧ head.treeSize.toNat = 3 ∧ s.service.store.Valid ∧
        s.service.store.commitments = leaves := by
  obtain ⟨one, v, hone, hup, hentries, -⟩ := (up_init none).commit (by decide) "dpp:1" (by decide)
    (by decide) (by decide) (digest [1]) 1
  obtain ⟨two, v', htwo, hup', hentries', -⟩ := hup.commit (by decide) "dpp:1" (by decide)
    (by decide) (by decide) (digest [2]) 2
  obtain ⟨s, v'', hthree, hup'', hentries'', -⟩ := hup'.commit (by decide) "dpp:1" (by decide)
    (by decide) (by decide) (digest [3]) 3
  rw [← serve_deposit] at hone htwo hthree
  have hrun := Transition.run_snoc (Transition.run_snoc (Transition.run_one hone) htwo) hthree
  obtain ⟨head, hhead, hsize⟩ := hup''.running.exists_head (by rw [hup''.length]; decide)
  rw [hup''.length] at hsize
  obtain ⟨hminted, -⟩ := AppState.minted_of_currentHead hup''.running.valid hhead
  have hleaves : s.service.store.commitments = leaves := by
    rw [LogStore.commitments, hentries'', hentries', hentries]
    rfl
  exact ⟨s, head, hrun, hminted, hsize, hup''.running.valid, hleaves⟩

/-- Under the head of three commits: the path of the second commitment proves no other one, and
the proof from size two is accepted with the root of the first two and with no other root. -/
theorem heads_pin_three :
    ∃ (s : System) (head : SignedTreeHead),
      (System.init (service none)).serves
        [.request (deposit (digest [1])) (1 : Fin 60) .written,
          .request (deposit (digest [2])) (2 : Fin 60) .written,
          .request (deposit (digest [3])) (3 : Fin 60) .written] = some s ∧
      s.service.Minted head ∧ head.treeSize.toNat = 3 ∧
      foldPath scheme (leafHash (digest [4])) (Rfc6962.path scheme 1 leaves) ≠ head.root ∧
      verifyConsistency scheme 2 (mth scheme (leaves.take 2)) 3 head.root
        (Rfc6962.proof scheme 2 leaves) = true ∧
      verifyConsistency scheme 2 (leafHash (digest [4])) 3 head.root
        (Rfc6962.proof scheme 2 leaves) = false := by
  obtain ⟨s, head, hrun, hminted, hsize, hvalid, hleaves⟩ := exists_three
  have hunder : s.service.store.under head = leaves := by
    rw [LogStore.under, hsize, hleaves]
    rfl
  obtain ⟨-, hpins⟩ := System.heads_pin axum_conforms (new_service none) hrun
  obtain ⟨hpath, hconsistency⟩ := hpins head hminted
  rw [hunder, hsize] at hconsistency
  rw [hunder] at hpath
  have hroot : ∀ oldRoot, oldRoot = mth scheme (leaves.take 2) ↔
      s.service.store.tree.rootAtSize 2 = some (some oldRoot) := by
    intro oldRoot
    rw [← hunder]
    exact hvalid.root_under_iff (hminted.le hvalid) (by decide) (by rw [hsize]; decide)
  refine ⟨s, head, hrun, hminted, hsize, fun hforged => ?_, ?_, ?_⟩
  · obtain ⟨m, record, -, hrecord, hcommitment, -⟩ :=
      (hpath (digest [4]) (Rfc6962.path scheme 1 leaves) (by decide +kernel)).mp hforged
    have hmem : record.commitment ∈ s.service.store.commitments :=
      List.mem_map_of_mem (List.mem_of_getElem? hrecord)
    rw [hleaves, hcommitment] at hmem
    exact absurd hmem (by decide)
  · refine (hconsistency 2 _ _ (by decide) (by decide) (by decide +kernel)).mpr ⟨?_, rfl⟩
    exact (hroot _).mp rfl
  · rw [← Bool.not_eq_true]
    intro hforged
    obtain ⟨hold, -⟩ :=
      (hconsistency 2 _ _ (by decide) (by decide) (by decide +kernel)).mp hforged
    exact absurd ((hroot _).mpr hold) (by decide +kernel)

end Sample

end UnidppLog
