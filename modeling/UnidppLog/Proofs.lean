/-
# Inclusion and consistency proofs

On a tree that represents a list of commitments, the generators compute the
RFC 6962 audit path of any leaf within any prefix, and the RFC 6962 consistency
proof from any prefix to the whole list. What keeps the cached lookups right is
that every range they visit starts at a multiple of a power of two that covers
it. Either proof is as long as the tree is high.
-/

import UnidppLog.Roots
import UnidppLog.Rfc6962.Length

namespace UnidppLog

open Rfc6962 Unidpp

/-- The service's split point is the RFC 6962 one wherever it is defined. -/
theorem split_eq_some {n : ℕ} (hn : 2 ≤ n) : split n = some (Rfc6962.split n) := by
  have hassert : debugAssert (2 ≤ n) = some () := by simp [hn]
  rw [split, hassert, Nat.one_shiftLeft]
  rfl

/-- A range that some complete subtree covers from its first leaf on. -/
def Aligned (lo len : ℕ) : Prop :=
  ∃ e, len ≤ 2 ^ e ∧ 2 ^ e ∣ lo

theorem aligned_zero (len : ℕ) : Aligned 0 len :=
  ⟨len, Nat.lt_two_pow_self.le, dvd_zero _⟩

namespace Aligned

variable {lo len : ℕ}

theorem dvd {e : ℕ} (haligned : Aligned lo len) (he : 2 ^ e ≤ len) : 2 ^ e ∣ lo := by
  obtain ⟨d, hcover, hdvd⟩ := haligned
  have hed : e ≤ d := (Nat.pow_le_pow_iff_right (by omega)).mp (he.trans hcover)
  exact (pow_dvd_pow 2 hed).trans hdvd

/-- The left half of a range is aligned as the range is. -/
theorem left (haligned : Aligned lo len) (htwo : 2 ≤ len) : Aligned lo (Rfc6962.split len) := by
  obtain ⟨d, hcover, hdvd⟩ := haligned
  exact ⟨d, (Rfc6962.split_lt htwo).le.trans hcover, hdvd⟩

/-- The right half starts one left half further on, and is no longer than it. -/
theorem right (haligned : Aligned lo len) (htwo : 2 ≤ len) :
    Aligned (lo + Rfc6962.split len) (len - Rfc6962.split len) := by
  obtain ⟨e, heq, hlow, hhigh⟩ := exists_split htwo
  rw [heq]
  refine ⟨e, ?_, Nat.dvd_add (haligned.dvd hlow.le) dvd_rfl⟩
  rw [pow_succ] at hhigh
  omega

end Aligned

/-- A power of two has as many trailing zeros as its exponent. -/
theorem U64.trailingZeros_two_pow {e : ℕ} (he : e < 64) : U64.trailingZeros (2 ^ e) = e := by
  simpa using U64.trailingZeros_eq (show 0 % 2 = 0 from rfl) he

variable [Unidpp]

namespace MerkleTree

variable {tree : MerkleTree} {leaves : List Hash}

theorem Represents.subtreeHash (hrep : tree.Represents leaves) {k j : ℕ}
    (hj : (j + 1) * 2 ^ k ≤ leaves.length) :
    tree.subtreeHash k j = some (nodeAt scheme leaves k j) := by
  have hpos : 0 < leaves.length / 2 ^ k := by
    refine Nat.div_pos (le_trans ?_ hj) (Nat.two_pow_pos k)
    exact Nat.le_mul_of_pos_left _ (by omega)
  rw [MerkleTree.subtreeHash, hrep.getElem? hpos]
  exact levelOf_getElem? hj

/-- The lookup for a complete aligned range finds the hash of that range. -/
theorem Represents.subtreeHash_slice (hrep : tree.Represents leaves) {lo e : ℕ}
    (hdvd : 2 ^ e ∣ lo) (hend : lo + 2 ^ e ≤ leaves.length) :
    tree.subtreeHash (U64.trailingZeros (2 ^ e)) (lo / 2 ^ e) =
      some (mth scheme (slice leaves lo (2 ^ e))) := by
  obtain ⟨j, rfl⟩ := hdvd
  have he : e < 64 := by
    have hlt : 2 ^ e < 2 ^ 64 := by have := hrep.size_lt; omega
    exact (Nat.pow_lt_pow_iff_right (by omega)).mp hlt
  have hmul : (j + 1) * 2 ^ e = 2 ^ e * j + 2 ^ e := by ring
  rw [U64.trailingZeros_two_pow he, Nat.mul_div_cancel_left _ (Nat.two_pow_pos e),
    hrep.subtreeHash (by omega), nodeAt, Nat.mul_comm]

/-- The hash of a nonempty aligned range, whether it is looked up or split. -/
theorem Represents.rangeHash (hrep : tree.Represents leaves) {lo len : ℕ} (hlen : 0 < len)
    (haligned : Aligned lo len) (hend : lo + len ≤ leaves.length) :
    tree.rangeHash lo len = some (mth scheme (slice leaves lo len)) := by
  induction len using Nat.strong_induction_on generalizing lo with
  | _ len ih =>
      rw [rangeHash.eq_def]
      by_cases hpow : len.isPowerOfTwo
      · rw [if_pos hpow]
        obtain ⟨e, rfl⟩ := hpow
        exact hrep.subtreeHash_slice (haligned.dvd le_rfl) hend
      · rw [if_neg hpow]
        have htwo : 2 ≤ len := by
          have hone : len ≠ 1 := fun h => hpow ⟨0, h⟩
          omega
        have hlt := Rfc6962.split_lt htwo
        have hpos := Rfc6962.split_pos len
        have hsize := hrep.size_lt
        split
        · next hnone => simp [split_eq_some htwo] at hnone
        · next k hk =>
          obtain rfl : Rfc6962.split len = k := by simpa [split_eq_some htwo] using hk
          have hleft := ih _ hlt hpos (haligned.left htwo) (by omega)
          have hright := ih (len - Rfc6962.split len) (by omega) (by omega)
            (haligned.right htwo) (by omega)
          have hadd : U64.add lo (Rfc6962.split len) = some (lo + Rfc6962.split len) :=
            U64.add_of_lt (by omega)
          simp only [Option.bind_eq_bind, hleft, hadd, hright, Option.bind_some]
          rw [mth_slice_split scheme htwo hend]
          rfl

/-- The recursion appends, to what was pushed before, the audit path of the
leaf within the range. -/
theorem Represents.pathInto (hrep : tree.Represents leaves) {m lo len : ℕ} (hlo : lo ≤ m)
    (hm : m < lo + len) (haligned : Aligned lo len) (hend : lo + len ≤ leaves.length)
    (pushed : List ProofNode) :
    tree.pathInto m lo len pushed =
      some (pushed ++ path scheme (m - lo) (slice leaves lo len)) := by
  induction len using Nat.strong_induction_on generalizing lo with
  | _ len ih =>
      have hlength : (slice leaves lo len).length = len := by
        rw [length_slice]
        omega
      rw [pathInto.eq_def]
      by_cases hone : len = 1
      · rw [if_pos hone, path_of_le_one scheme (by omega), List.append_nil]
      · rw [if_neg hone]
        have htwo : 2 ≤ len := by omega
        obtain ⟨e, heq, hlow, -⟩ := exists_split htwo
        have hpos := Rfc6962.split_pos len
        have hsize := hrep.size_lt
        split
        · next hnone => simp [split_eq_some htwo] at hnone
        · next k hk =>
          obtain rfl : Rfc6962.split len = k := by simpa [split_eq_some htwo] using hk
          have hadd : U64.add lo (Rfc6962.split len) = some (lo + Rfc6962.split len) :=
            U64.add_of_lt (by omega)
          simp only [Option.bind_eq_bind, U64.sub_of_le hlo, hadd, Option.bind_some]
          split
          · -- The leaf is in the left half, its sibling is the right one.
            next hleft =>
            have hsub := ih _ (by omega) hlo (by omega) (haligned.left htwo) (by omega)
            have hsib := hrep.rangeHash (show 0 < len - Rfc6962.split len by omega)
              (haligned.right htwo) (by omega)
            rw [hsub, hsib, path_slice_of_lt_split scheme htwo hend (by omega)]
            simp
          · -- The leaf is in the right half, its sibling is a complete subtree.
            next hright =>
            have hsub := ih (len - Rfc6962.split len) (by omega)
              (show lo + Rfc6962.split len ≤ m by omega) (by omega) (haligned.right htwo)
              (by omega)
            have hsib : tree.subtreeHash (U64.trailingZeros (Rfc6962.split len))
                (lo / Rfc6962.split len) =
                some (mth scheme (slice leaves lo (Rfc6962.split len))) := by
              rw [heq]
              exact hrep.subtreeHash_slice (haligned.dvd hlow.le) (by omega)
            rw [hsub, hsib, path_slice_of_split_le scheme htwo hend (by omega), Nat.sub_sub]
            simp

/-- The inclusion path is the audit path of the leaf within the prefix. -/
theorem Represents.inclusionPath (hrep : tree.Represents leaves) {m s : ℕ} (hm : m < s)
    (hs : s ≤ leaves.length) :
    tree.inclusionPath m s = some (path scheme m (leaves.take s)) := by
  have hassert : debugAssert (m < s ∧ s ≤ tree.size) = some () := by
    simp [hm, hrep.size_eq, hs]
  rw [MerkleTree.inclusionPath, hassert, ← slice_zero_left]
  exact hrep.pathInto (Nat.zero_le m) (by omega) (aligned_zero s) (by omega) []

/-- Folding a leaf hash with the audit path of the leaf rebuilds the root of the
prefix. -/
theorem Represents.foldPath (hrep : tree.Represents leaves) {m s : ℕ} {commitment : Hash}
    (hm : m < s) (hs : s ≤ leaves.length) (hleaf : leaves[m]? = some commitment) :
    tree.rootAtSize s =
      some (some (foldPath scheme (leafHash commitment) (path scheme m (leaves.take s)))) := by
  have hm' : m < (leaves.take s).length := by
    rw [List.length_take]
    omega
  have hentry : (leaves.take s)[m] = commitment := by
    obtain ⟨hbound, heq⟩ := List.getElem?_eq_some_iff.mp hleaf
    rw [List.getElem_take, heq]
  have hfold := foldPath_path scheme hm'
  rw [hentry] at hfold
  have hne : leaves.take s ≠ [] := List.ne_nil_of_length_pos (by omega)
  rw [hrep.rootAtSize hs, rootOf_of_ne_nil hne, ← hfold]
  rfl

/-- After any run of appends, the inclusion path of every leaf against every
prefix that holds it is the RFC 6962 audit path, and it folds the leaf's hash to
the root of that prefix. -/
theorem appendAll_inclusionPath_eq (entries : List Hash) :
    (new.appendAll entries = none ↔ 2 ^ 64 ≤ entries.length) ∧
      ∀ tree, new.appendAll entries = some tree →
        ∀ s ≤ entries.length, ∀ m < s, ∃ commitment nodes,
          entries[m]? = some commitment ∧ tree.inclusionPath m s = some nodes ∧
            nodes = path scheme m (entries.take s) ∧
              tree.rootAtSize s =
                some (some (Rfc6962.foldPath scheme (leafHash commitment) nodes)) := by
  refine ⟨appendAll_eq_none_iff entries, fun tree hrun s hs m hm => ?_⟩
  have hrep := represents_of_appendAll hrun
  have hleaf : entries[m]? = some entries[m] := List.getElem?_eq_getElem (by omega)
  exact ⟨entries[m], _, hleaf, hrep.inclusionPath hm hs, rfl, hrep.foldPath hm hs hleaf⟩

/-- The recursion appends the subproof over the range, deepest node first. -/
theorem Represents.subProof (hrep : tree.Represents leaves) {m lo len : ℕ} (hpos : 0 < m)
    (hm : m ≤ len) (haligned : Aligned lo len) (hend : lo + len ≤ leaves.length)
    (anchored : Bool) (pushed : List Hash) :
    tree.subProof m lo len anchored pushed =
      some (pushed ++ subproof scheme m (slice leaves lo len) anchored) := by
  induction len using Nat.strong_induction_on generalizing m lo anchored with
  | _ len ih =>
      have hlength : (slice leaves lo len).length = len := by
        rw [length_slice]
        omega
      rw [subProof.eq_def]
      by_cases hself : m = len
      · have hwhole := subproof_self scheme (slice leaves lo len) anchored
        rw [hlength] at hwhole
        rw [if_pos hself, hself, hwhole]
        cases anchored with
        | true => simp
        | false => simp [hrep.rangeHash (by omega) haligned hend]
      · rw [if_neg hself]
        have htwo : 2 ≤ len := by omega
        have hlt := Rfc6962.split_lt htwo
        have hsplit := Rfc6962.split_pos len
        have hsize := hrep.size_lt
        split
        · next hnone => simp [split_eq_some htwo] at hnone
        · next k hk =>
          obtain rfl : Rfc6962.split len = k := by simpa [split_eq_some htwo] using hk
          have hadd : U64.add lo (Rfc6962.split len) = some (lo + Rfc6962.split len) :=
            U64.add_of_lt (by omega)
          simp only [Option.bind_eq_bind, hadd, Option.bind_some]
          split
          · -- The old prefix ends in the left half: the right one is new.
            next hleft =>
            have hsub := ih _ hlt hpos hleft (haligned.left htwo) (by omega) anchored
            have hnew := hrep.rangeHash (show 0 < len - Rfc6962.split len by omega)
              (haligned.right htwo) (by omega)
            rw [hsub, hnew, subproof_slice_of_le_split scheme hself htwo hend hleft]
            simp
          · -- The old prefix covers the left half and ends in the right one.
            next hright =>
            have hsub := ih (len - Rfc6962.split len) (by omega)
              (show 0 < m - Rfc6962.split len by omega) (by omega) (haligned.right htwo)
              (by omega) false
            have hold := hrep.rangeHash hsplit (haligned.left htwo) (by omega)
            rw [hsub, hold, subproof_slice_of_split_lt scheme hself htwo hend (by omega)]
            simp

/-- The consistency path is the RFC 6962 consistency proof. -/
theorem Represents.consistencyPath (hrep : tree.Represents leaves) {m : ℕ}
    (hm : m ≤ leaves.length) :
    tree.consistencyPath m = some (proof scheme m leaves) := by
  have hassert : debugAssert (m ≤ tree.size) = some () := by
    simp [hrep.size_eq, hm]
  rw [MerkleTree.consistencyPath, hassert, proof, hrep.size_eq]
  simp only [Option.bind_eq_bind, Option.bind_some]
  split
  · next hpos =>
    rw [if_neg hpos.ne', hrep.subProof hpos hm (aligned_zero _) (by omega),
      slice_of_length_le le_rfl, List.nil_append]
  · next hzero =>
    rw [if_pos (by omega)]
    rfl

/-- After any run of appends, the consistency path from every old size is the
RFC 6962 proof, empty at both ends, and the standard's verification rebuilds
and accepts the two roots. -/
theorem appendAll_consistencyPath_eq (entries : List Hash) :
    (new.appendAll entries = none ↔ 2 ^ 64 ≤ entries.length) ∧
      ∀ tree, new.appendAll entries = some tree →
        ∀ m ≤ entries.length, ∃ nodes,
          tree.consistencyPath m = some nodes ∧ nodes = proof scheme m entries ∧
            (m = 0 ∨ m = entries.length → nodes = []) ∧
              (0 < m → ∃ oldRoot newRoot,
                tree.rootAtSize m = some (some oldRoot) ∧ tree.root = some (some newRoot) ∧
                  (m < entries.length →
                    rebuildRoots scheme m oldRoot entries.length nodes =
                      some { fn := 0, sn := 0, fr := oldRoot, sr := newRoot }) ∧
                    verifyConsistency scheme m oldRoot entries.length newRoot nodes = true) := by
  refine ⟨appendAll_eq_none_iff entries, fun tree hrun m hm => ?_⟩
  have hrep := represents_of_appendAll hrun
  refine ⟨_, hrep.consistencyPath hm, rfl, ?_, fun hpos => ?_⟩
  · rintro (rfl | rfl)
    · exact proof_zero scheme entries
    · exact proof_self scheme entries
  · have hold : entries.take m ≠ [] := List.ne_nil_of_length_pos (by rw [List.length_take]; omega)
    have hnew : entries ≠ [] := List.ne_nil_of_length_pos (by omega)
    refine ⟨mth scheme (entries.take m), mth scheme entries, ?_, ?_, ?_, ?_⟩
    · rw [hrep.rootAtSize hm, rootOf_of_ne_nil hold]
    · rw [root, hrep.size_eq, hrep.rootAtSize le_rfl, List.take_length, rootOf_of_ne_nil hnew]
    · exact rebuildRoots_proof scheme hpos
    · exact verifyConsistency_proof scheme hpos hm

/-- After any run of appends, the inclusion path against a prefix is no longer than
the height of the tree over that prefix, and a consistency path has one node more than
the height of the whole tree at most. -/
theorem appendAll_lengths_le (entries : List Hash) :
    (new.appendAll entries = none ↔ 2 ^ 64 ≤ entries.length) ∧
      ∀ tree, new.appendAll entries = some tree →
        (∀ s ≤ entries.length, ∀ m < s, ∃ nodes,
          tree.inclusionPath m s = some nodes ∧ nodes.length ≤ Nat.clog 2 s) ∧
        ∀ old ≤ entries.length, 1 ≤ old → ∃ nodes,
          tree.consistencyPath old = some nodes ∧
            nodes.length ≤ Nat.clog 2 entries.length + 1 := by
  refine ⟨appendAll_eq_none_iff entries, fun tree hrun => ?_⟩
  have hrep := represents_of_appendAll hrun
  refine ⟨fun s hs m hm => ⟨_, hrep.inclusionPath hm hs, ?_⟩,
    fun old hold _ => ⟨_, hrep.consistencyPath hold, length_proof_le_clog scheme old entries⟩⟩
  have hlength : (entries.take s).length = s := List.length_take_of_le hs
  have hpath := length_path_le_clog scheme m (entries.take s)
  rwa [hlength] at hpath

end MerkleTree

end UnidppLog
