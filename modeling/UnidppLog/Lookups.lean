/-
# Where the cached levels are looked up

The index of a lookup is a quotient, so a range that does not start at a multiple of its
length would silently be another one. Here are the calls that the generators make, down to
the lookups, which are all that their results depend on. Every range that is asked for
starts at a multiple of a power of two that covers it and ends within the tree, and the
hash that is found is that of the range.
-/

import UnidppLog.Proofs
import Mathlib.Logic.Relation

namespace UnidppLog

open Rfc6962 Unidpp

/-- A call of one of the tree's functions. A lookup is given by the range that its two call
sites compute the level and the index from. -/
inductive Call
  | inclusionPath (m s : ℕ)
  | consistencyPath (oldSize : ℕ)
  | pathInto (m lo len : ℕ)
  | subProof (m lo len : ℕ) (anchored : Bool)
  | rangeHash (lo len : ℕ)
  | subtreeHash (lo len : ℕ)
  deriving DecidableEq

/-- The calls that a call makes itself, on a tree of this size. -/
def Call.callees (size : ℕ) : Call → List Call
  | .inclusionPath m s => [.pathInto m 0 s]
  | .consistencyPath oldSize => if 0 < oldSize then [.subProof oldSize 0 size true] else []
  | .pathInto m lo len =>
    if len = 1 then []
    else
      match split len with
      | none => []
      | some k =>
        if m - lo < k then [.pathInto m lo k, .rangeHash (lo + k) (len - k)]
        else [.pathInto m (lo + k) (len - k), .subtreeHash lo k]
  | .subProof m lo len anchored =>
    if m = len then if !anchored then [.rangeHash lo len] else []
    else
      match split len with
      | none => []
      | some k =>
        if m ≤ k then [.subProof m lo k anchored, .rangeHash (lo + k) (len - k)]
        else [.subProof (m - k) (lo + k) (len - k) false, .rangeHash lo k]
  | .rangeHash lo len =>
    if len.isPowerOfTwo then [.subtreeHash lo len]
    else
      match split len with
      | none => []
      | some k => [.rangeHash lo k, .rangeHash (lo + k) (len - k)]
  | .subtreeHash _ _ => []

/-- The calls that a call comes to, itself included. -/
def Call.Reaches (size : ℕ) : Call → Call → Prop :=
  Relation.ReflTransGen fun caller callee => callee ∈ caller.callees size

example : (Call.pathInto 4 0 7).callees 7 = [.pathInto 4 4 3, .subtreeHash 0 4] := by decide

theorem split_eq_some_iff {n k : ℕ} : split n = some k ↔ 2 ≤ n ∧ Rfc6962.split n = k := by
  by_cases hn : 2 ≤ n
  · simp [split_eq_some hn, hn]
  · simp [split, debugAssert, hn]

/-- The split of an aligned range is a power of two, and its parts are aligned. -/
theorem Aligned.of_split {lo len k : ℕ} (haligned : Aligned lo len) (hk : split len = some k) :
    0 < k ∧ k < len ∧ k.isPowerOfTwo ∧ Aligned lo k ∧ Aligned (lo + k) (len - k) := by
  obtain ⟨htwo, rfl⟩ := split_eq_some_iff.mp hk
  obtain ⟨e, heq, -⟩ := exists_split htwo
  exact ⟨Rfc6962.split_pos len, Rfc6962.split_lt htwo, ⟨e, heq⟩, haligned.left htwo,
    haligned.right htwo⟩

/-- A call that stays within a tree of `n` entries, on an aligned range. -/
def Call.Within (n : ℕ) : Call → Prop
  | .inclusionPath m s => m < s ∧ s ≤ n
  | .consistencyPath oldSize => oldSize ≤ n
  | .pathInto m lo len => lo ≤ m ∧ m < lo + len ∧ Aligned lo len ∧ lo + len ≤ n
  | .subProof m lo len _ => 0 < m ∧ m ≤ len ∧ Aligned lo len ∧ lo + len ≤ n
  | .rangeHash lo len => 0 < len ∧ Aligned lo len ∧ lo + len ≤ n
  | .subtreeHash lo len => len.isPowerOfTwo ∧ Aligned lo len ∧ lo + len ≤ n

/-- A call within the tree makes calls within the tree. -/
theorem Call.Within.callee {n : ℕ} {caller callee : Call} (h : caller.Within n)
    (hcall : callee ∈ caller.callees n) : callee.Within n := by
  cases caller with
  | inclusionPath m s =>
      obtain ⟨hm, hs⟩ := h
      obtain rfl := List.mem_singleton.mp hcall
      exact ⟨Nat.zero_le m, by omega, aligned_zero s, by omega⟩
  | consistencyPath oldSize =>
      rw [callees] at hcall
      split at hcall
      · next hpos =>
        obtain rfl := List.mem_singleton.mp hcall
        exact ⟨hpos, h, aligned_zero n, by omega⟩
      · simp at hcall
  | pathInto m lo len =>
      obtain ⟨hlo, hm, haligned, hend⟩ := h
      rw [callees] at hcall
      split at hcall
      · simp at hcall
      split at hcall
      · simp at hcall
      next k hk =>
      obtain ⟨hpos, hlt, hpow, hleft, hright⟩ := haligned.of_split hk
      split at hcall
      · simp only [List.mem_cons, List.not_mem_nil, or_false] at hcall
        rcases hcall with rfl | rfl
        · exact ⟨hlo, by omega, hleft, by omega⟩
        · exact ⟨by omega, hright, by omega⟩
      · simp only [List.mem_cons, List.not_mem_nil, or_false] at hcall
        rcases hcall with rfl | rfl
        · exact ⟨by omega, by omega, hright, by omega⟩
        · exact ⟨hpow, hleft, by omega⟩
  | subProof m lo len anchored =>
      obtain ⟨hpos, hm, haligned, hend⟩ := h
      rw [callees] at hcall
      split at hcall
      · split at hcall
        · obtain rfl := List.mem_singleton.mp hcall
          exact ⟨by omega, haligned, hend⟩
        · simp at hcall
      split at hcall
      · simp at hcall
      next hself k hk =>
      obtain ⟨hsplit, hlt, -, hleft, hright⟩ := haligned.of_split hk
      split at hcall
      · simp only [List.mem_cons, List.not_mem_nil, or_false] at hcall
        rcases hcall with rfl | rfl
        · exact ⟨hpos, by omega, hleft, by omega⟩
        · exact ⟨by omega, hright, by omega⟩
      · simp only [List.mem_cons, List.not_mem_nil, or_false] at hcall
        rcases hcall with rfl | rfl
        · exact ⟨by omega, by omega, hright, by omega⟩
        · exact ⟨hsplit, hleft, by omega⟩
  | rangeHash lo len =>
      obtain ⟨hpos, haligned, hend⟩ := h
      rw [callees] at hcall
      split at hcall
      · next hpow =>
        obtain rfl := List.mem_singleton.mp hcall
        exact ⟨hpow, haligned, hend⟩
      split at hcall
      · simp at hcall
      next k hk =>
      obtain ⟨hsplit, hlt, -, hleft, hright⟩ := haligned.of_split hk
      simp only [List.mem_cons, List.not_mem_nil, or_false] at hcall
      rcases hcall with rfl | rfl
      · exact ⟨hsplit, hleft, by omega⟩
      · exact ⟨by omega, hright, by omega⟩
  | subtreeHash lo len => simp [callees] at hcall

/-- Every call that a call within the tree comes to is within the tree. -/
theorem Call.Within.reaches {n : ℕ} {call call' : Call} (h : call.Within n)
    (hreach : call.Reaches n call') : call'.Within n := by
  induction hreach with
  | refl => exact h
  | tail _ hcall ih => exact ih.callee hcall

/-- An aligned range starts at a multiple of the least power of two that covers it. -/
theorem Aligned.clog_dvd {lo len : ℕ} (haligned : Aligned lo len) : 2 ^ Nat.clog 2 len ∣ lo := by
  obtain ⟨e, hcover, hdvd⟩ := haligned
  exact (pow_dvd_pow 2 (Nat.clog_le_of_le_pow hcover)).trans hdvd

variable [Unidpp]

namespace MerkleTree

variable {tree tree' : MerkleTree} {size : ℕ}

/-- The lookup for a range: its level and its index, as the two call sites compute
them. -/
def lookup (tree : MerkleTree) (lo len : ℕ) : Option Hash :=
  tree.subtreeHash (U64.trailingZeros len) (lo / len)

/-- Two trees in which the lookups that a call comes to find the same. -/
def Agree (size : ℕ) (call : Call) (tree tree' : MerkleTree) : Prop :=
  ∀ lo len, call.Reaches size (.subtreeHash lo len) → tree.lookup lo len = tree'.lookup lo len

theorem Agree.callee {caller : Call} (h : Agree size caller tree tree') (callee : Call)
    (hcall : callee ∈ caller.callees size) : Agree size callee tree tree' :=
  fun lo len hreach => h lo len (.head hcall hreach)

theorem Agree.lookup {caller : Call} (h : Agree size caller tree tree') (lo len : ℕ)
    (hcall : .subtreeHash lo len ∈ caller.callees size) :
    tree.subtreeHash (U64.trailingZeros len) (lo / len) =
      tree'.subtreeHash (U64.trailingZeros len) (lo / len) :=
  h lo len (.single hcall)

theorem Agree.rangeHash {lo len : ℕ} (h : Agree size (.rangeHash lo len) tree tree') :
    tree.rangeHash lo len = tree'.rangeHash lo len := by
  induction len using Nat.strong_induction_on generalizing lo with
  | _ len ih =>
      rw [rangeHash.eq_def, rangeHash.eq_def]
      by_cases hpow : len.isPowerOfTwo
      · rw [if_pos hpow, if_pos hpow]
        exact h.lookup lo len (by simp [Call.callees, hpow])
      · rw [if_neg hpow, if_neg hpow]
        split
        · rfl
        · next k hk =>
          have hpos := UnidppLog.split_pos hk
          have hlt := UnidppLog.split_lt hk
          have hleft := ih k hlt
            (h.callee (.rangeHash lo k) (by simp [Call.callees, hpow, hk]))
          have hright := ih (len - k) (by omega)
            (h.callee (.rangeHash (lo + k) (len - k)) (by simp [Call.callees, hpow, hk]))
          rw [hleft]
          rcases U64.add_cases lo k with hnone | hsome
          · rw [hnone]
            rfl
          · rw [hsome]
            simp only [Option.bind_eq_bind, Option.bind_some, hright]

theorem Agree.pathInto {m lo len : ℕ} (h : Agree size (.pathInto m lo len) tree tree')
    (pushed : List ProofNode) : tree.pathInto m lo len pushed = tree'.pathInto m lo len pushed := by
  induction len using Nat.strong_induction_on generalizing lo with
  | _ len ih =>
      rw [pathInto.eq_def, pathInto.eq_def]
      by_cases hone : len = 1
      · rw [if_pos hone, if_pos hone]
      · rw [if_neg hone, if_neg hone]
        split
        · rfl
        · next k hk =>
          have hpos := UnidppLog.split_pos hk
          have hlt := UnidppLog.split_lt hk
          rcases U64.sub_cases m lo with hnone | hsome
          · rw [hnone]
            rfl
          rcases U64.add_cases lo k with hnone | hmid
          · rw [hsome, hnone]
            rfl
          simp only [hsome, hmid, Option.bind_eq_bind, Option.bind_some]
          by_cases hleft : m - lo < k
          · have hsub := ih k hlt
              (h.callee (.pathInto m lo k) (by simp [Call.callees, hone, hk, hleft]))
            have hsib := (h.callee (.rangeHash (lo + k) (len - k))
              (by simp [Call.callees, hone, hk, hleft])).rangeHash
            rw [if_pos hleft, if_pos hleft, hsub, hsib]
          · have hsub := ih (len - k) (by omega)
              (h.callee (.pathInto m (lo + k) (len - k)) (by simp [Call.callees, hone, hk, hleft]))
            have hsib := h.lookup lo k (by simp [Call.callees, hone, hk, hleft])
            rw [if_neg hleft, if_neg hleft, hsub, hsib]

theorem Agree.subProof {m lo len : ℕ} {anchored : Bool}
    (h : Agree size (.subProof m lo len anchored) tree tree') (pushed : List Hash) :
    tree.subProof m lo len anchored pushed = tree'.subProof m lo len anchored pushed := by
  induction len using Nat.strong_induction_on generalizing m lo anchored with
  | _ len ih =>
      rw [subProof.eq_def, subProof.eq_def]
      by_cases hself : m = len
      · rw [if_pos hself, if_pos hself]
        cases anchored with
        | true => rfl
        | false =>
            have hwhole := (h.callee (.rangeHash lo len) (by simp [Call.callees, hself])).rangeHash
            rw [hwhole]
      · rw [if_neg hself, if_neg hself]
        split
        · rfl
        · next k hk =>
          have hpos := UnidppLog.split_pos hk
          have hlt := UnidppLog.split_lt hk
          rcases U64.add_cases lo k with hnone | hmid
          · rw [hnone]
            rfl
          simp only [hmid, Option.bind_eq_bind, Option.bind_some]
          by_cases hleft : m ≤ k
          · have hsub := ih k hlt
              (h.callee (.subProof m lo k anchored) (by simp [Call.callees, hself, hk, hleft]))
            have hnew := (h.callee (.rangeHash (lo + k) (len - k))
              (by simp [Call.callees, hself, hk, hleft])).rangeHash
            rw [if_pos hleft, if_pos hleft, hsub, hnew]
          · have hsub := ih (len - k) (by omega)
              (h.callee (.subProof (m - k) (lo + k) (len - k) false)
                (by simp [Call.callees, hself, hk, hleft]))
            have hold := (h.callee (.rangeHash lo k)
              (by simp [Call.callees, hself, hk, hleft])).rangeHash
            rw [if_neg hleft, if_neg hleft, hsub, hold]

/-- An inclusion path is determined by the lookups that its call comes to. -/
theorem Agree.inclusionPath {m s : ℕ} (h : Agree size (.inclusionPath m s) tree tree')
    (hsize : tree.size = tree'.size) : tree.inclusionPath m s = tree'.inclusionPath m s := by
  have hpath := (h.callee (.pathInto m 0 s) List.mem_cons_self).pathInto []
  rw [MerkleTree.inclusionPath, MerkleTree.inclusionPath, hsize, hpath]

/-- A consistency path is determined by the lookups that its call comes to. -/
theorem Agree.consistencyPath {oldSize : ℕ}
    (h : Agree tree.size (.consistencyPath oldSize) tree tree') (hsize : tree.size = tree'.size) :
    tree.consistencyPath oldSize = tree'.consistencyPath oldSize := by
  rw [MerkleTree.consistencyPath, MerkleTree.consistencyPath, ← hsize]
  by_cases hpos : 0 < oldSize
  · have hproof := (h.callee (.subProof oldSize 0 tree.size true)
      (by simp [Call.callees, hpos])).subProof []
    rw [if_pos hpos, if_pos hpos, hproof]
  · rw [if_neg hpos, if_neg hpos]

/-- What is found for a range is the RFC 6962 hash of these entries: the range starts at a
multiple of the least power of two that covers it, and ends within the entries. -/
def Finds (entries : List Hash) (lo len : ℕ) (found : Option Hash) : Prop :=
  2 ^ Nat.clog 2 len ∣ lo ∧ lo + len ≤ entries.length ∧
    found = some (mth scheme (slice entries lo len))

/-- After any run of appends, every range that a proof within the tree comes to, be it
split or looked up, is aligned and within the tree, and its own hash is found for it; and
the proofs depend on nothing else in the tree than what is looked up for them. -/
theorem appendAll_lookups (entries : List Hash) :
    (new.appendAll entries = none ↔ 2 ^ 64 ≤ entries.length) ∧
      ∀ tree, new.appendAll entries = some tree →
        (∀ call : Call, (∃ s ≤ entries.length, ∃ m < s, call = .inclusionPath m s) ∨
            (∃ oldSize ≤ entries.length, call = .consistencyPath oldSize) →
          (∀ lo len, call.Reaches entries.length (.rangeHash lo len) →
            Finds entries lo len (tree.rangeHash lo len)) ∧
          (∀ lo len, call.Reaches entries.length (.subtreeHash lo len) →
            Finds entries lo len (tree.lookup lo len) ∧ lo / len * len = lo)) ∧
        ∀ tree', tree.size = tree'.size →
          (∀ m s, Agree entries.length (.inclusionPath m s) tree tree' →
            tree.inclusionPath m s = tree'.inclusionPath m s) ∧
          (∀ oldSize, Agree entries.length (.consistencyPath oldSize) tree tree' →
            tree.consistencyPath oldSize = tree'.consistencyPath oldSize) := by
  refine ⟨appendAll_eq_none_iff entries, fun tree hrun => ?_⟩
  have hrep := represents_of_appendAll hrun
  refine ⟨fun call hcall => ?_, fun tree' hsize => ⟨fun m s hagree => hagree.inclusionPath hsize,
    fun oldSize hagree => ?_⟩⟩
  · have hwithin : call.Within entries.length := by
      rcases hcall with ⟨s, hs, m, hm, rfl⟩ | ⟨oldSize, hold, rfl⟩
      · exact ⟨hm, hs⟩
      · exact hold
    constructor
    · intro lo len hreach
      obtain ⟨hpos, haligned, hend⟩ := hwithin.reaches hreach
      exact ⟨haligned.clog_dvd, hend, hrep.rangeHash hpos haligned hend⟩
    · intro lo len hreach
      obtain ⟨⟨e, rfl⟩, haligned, hend⟩ := hwithin.reaches hreach
      have hdvd := haligned.dvd le_rfl
      exact ⟨⟨haligned.clog_dvd, hend, hrep.subtreeHash_slice hdvd hend⟩,
        Nat.div_mul_cancel hdvd⟩
  · rw [← hrep.size_eq] at hagree
    exact hagree.consistencyPath hsize

end MerkleTree

end UnidppLog
