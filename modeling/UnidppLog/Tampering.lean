/-
# Tamper evidence

A root pins the commitments under it, as long as the two hashes have no
collisions. A log that was rewritten before the end of an issued head cannot
prove itself consistent with that head, and no path it serves proves a
commitment that it does not hold.
-/

import UnidppLog.Proofs
import UnidppLog.Rfc6962.Binding
import UnidppLog.Sample.Crates
import Mathlib.Data.Nat.Pairing

namespace UnidppLog

open Rfc6962 Unidpp

section

variable [Unidpp]

/-- A root, or the lack of one, has one list of commitments. -/
theorem rootOf_injective (hhash : scheme.Injective) {leaves leaves' : List Hash}
    (heq : rootOf leaves = rootOf leaves') : leaves = leaves' := by
  rcases eq_or_ne leaves [] with rfl | hne <;> rcases eq_or_ne leaves' [] with rfl | hne'
  · rfl
  · simp [rootOf_of_ne_nil hne'] at heq
  · simp [rootOf_of_ne_nil hne] at heq
  · rw [rootOf_of_ne_nil hne, rootOf_of_ne_nil hne'] at heq
    exact mth_injective hhash hne hne' (Option.some.inj heq)

namespace MerkleTree

variable {tree tree' : MerkleTree} {leaves leaves' : List Hash}

theorem Represents.root (hrep : tree.Represents leaves) : tree.root = some (rootOf leaves) := by
  rw [MerkleTree.root, hrep.size_eq, hrep.rootAtSize le_rfl, List.take_length]

/-- Trees have one root exactly when they were given the same commitments. -/
theorem Represents.root_eq_iff (hhash : scheme.Injective) (hrep : tree.Represents leaves)
    (hrep' : tree'.Represents leaves') : tree.root = tree'.root ↔ leaves = leaves' := by
  rw [hrep.root, hrep'.root, Option.some.injEq]
  exact ⟨rootOf_injective hhash, congrArg rootOf⟩

/-- What a tree proves about the first of its leaves is rejected against the root
of other leaves. -/
theorem Represents.rejects (hhash : scheme.Injective) (hrep : tree.Represents leaves)
    (hrep' : tree'.Represents leaves') (hle : leaves.length ≤ leaves'.length)
    (hrewritten : ¬ leaves <+: leaves') :
    ∃ oldRoot newRoot nodes, tree.root = some (some oldRoot) ∧
      tree'.root = some (some newRoot) ∧ tree'.consistencyPath leaves.length = some nodes ∧
        verifyConsistency scheme leaves.length oldRoot leaves'.length newRoot nodes = false := by
  have hne : leaves ≠ [] := by
    rintro rfl
    exact hrewritten (List.nil_prefix)
  have hpos := List.length_pos_iff.mpr hne
  have hne' : leaves' ≠ [] := List.ne_nil_of_length_pos (by omega)
  refine ⟨mth scheme leaves, mth scheme leaves', _, ?_, ?_, hrep'.consistencyPath hle, ?_⟩
  · rw [hrep.root, rootOf_of_ne_nil hne]
  · rw [hrep'.root, rootOf_of_ne_nil hne']
  · rw [Bool.eq_false_iff, Ne, verifyConsistency_proof_iff hhash hpos hle]
    intro hroot
    have htake : leaves'.take leaves.length ≠ [] :=
      List.ne_nil_of_length_pos (by rw [List.length_take]; omega)
    have heq := mth_injective hhash hne htake hroot
    exact hrewritten (List.prefix_iff_eq_take.mpr heq)

/-- The path of a leaf folds no other commitment to the root of the prefix. -/
theorem Represents.other_ne_root (hhash : scheme.Injective) (hrep : tree.Represents leaves)
    {m s : ℕ} (hm : m < s) (hs : s ≤ leaves.length) {commitment : Hash}
    (hother : leaves[m]? ≠ some commitment) :
    ∃ nodes root, tree.inclusionPath m s = some nodes ∧ tree.rootAtSize s = some (some root) ∧
      Rfc6962.foldPath scheme (leafHash commitment) nodes ≠ root := by
  have hm' : m < (leaves.take s).length := by
    rw [List.length_take]
    omega
  have hentry : (leaves.take s)[m] ≠ commitment := by
    rintro rfl
    exact hother (by rw [List.getElem_take, List.getElem?_eq_getElem])
  refine ⟨_, mth scheme (leaves.take s), hrep.inclusionPath hm hs, ?_,
    foldPath_path_ne hhash hm' hentry⟩
  rw [hrep.rootAtSize hs, rootOf_of_ne_nil (List.ne_nil_of_length_pos (by omega))]

/-- Two runs of appends end with one root exactly when they are one run. What a
log proves about an old size is rejected against the root of an old log that it
does not extend, and none of its inclusion paths folds a commitment other than
the leaf's to the root it is for. -/
theorem appendAll_tamper_evident (hhash : scheme.Injective) {entries entries' : List Hash}
    (hrun : new.appendAll entries = some tree) (hrun' : new.appendAll entries' = some tree') :
    (tree.root = tree'.root ↔ entries = entries') ∧
      (entries.length ≤ entries'.length → ¬ entries <+: entries' →
        ∃ oldRoot newRoot nodes, tree.root = some (some oldRoot) ∧
          tree'.root = some (some newRoot) ∧
            tree'.consistencyPath entries.length = some nodes ∧
              verifyConsistency scheme entries.length oldRoot entries'.length newRoot nodes =
                false) ∧
        ∀ s ≤ entries'.length, ∀ m < s, ∀ commitment, entries'[m]? ≠ some commitment →
          ∃ nodes root, tree'.inclusionPath m s = some nodes ∧
            tree'.rootAtSize s = some (some root) ∧
              foldPath scheme (leafHash commitment) nodes ≠ root := by
  have hrep := represents_of_appendAll hrun
  have hrep' := represents_of_appendAll hrun'
  refine ⟨hrep.root_eq_iff hhash hrep', hrep.rejects hhash hrep', ?_⟩
  intro s hs m hm commitment hother
  exact hrep'.other_ne_root hhash hm hs hother

end MerkleTree

end

namespace Ideal

/-- The sample crates with a number for every hash term, so that different terms
have different hashes. -/
scoped instance crates : Unidpp where
  __ := Sample.crates
  Hash := ℕ
  decEqHash := inferInstance
  zeroHash := 0
  hex := toString
  fromHex s := s.toNat?
  leafHash n := 2 * n + 1
  nodeHash l r := 2 * Nat.pair l r
  canonicalBytes logId treeSize t root :=
    Text.encode (logId.toList ++ Nat.toDigits 10 treeSize.toNat ++ Sample.timestampText t ++
      Nat.toDigits 10 root)

theorem scheme_injective : scheme.Injective where
  leaf_inj (a b : ℕ) (heq : 2 * a + 1 = 2 * b + 1) := by
    show a = b
    omega
  node_inj (l r l' r' : ℕ) (heq : 2 * Nat.pair l r = 2 * Nat.pair l' r') :=
    Nat.pair_eq_pair.mp (by omega)
  leaf_ne_node (a l r : ℕ) (heq : 2 * a + 1 = 2 * Nat.pair l r) := by
    omega

/-- The first entry of two, rewritten. -/
theorem rewritten_is_evident :
    ∃ tree tree', MerkleTree.new.appendAll [(5 : ℕ), (6 : ℕ)] = some tree ∧
      MerkleTree.new.appendAll [(7 : ℕ), (6 : ℕ), (8 : ℕ)] = some tree' ∧
        tree.root ≠ tree'.root ∧
          (∃ oldRoot newRoot nodes, tree.root = some (some oldRoot) ∧
            tree'.root = some (some newRoot) ∧ tree'.consistencyPath 2 = some nodes ∧
              verifyConsistency scheme 2 oldRoot 3 newRoot nodes = false) ∧
            ∃ nodes root, tree'.inclusionPath 0 2 = some nodes ∧
              tree'.rootAtSize 2 = some (some root) ∧
                foldPath scheme (leafHash (5 : ℕ)) nodes ≠ root := by
  obtain ⟨tree, hrun⟩ := Option.ne_none_iff_exists'.mp
    ((MerkleTree.appendAll_eq_none_iff [(5 : ℕ), (6 : ℕ)]).not.mpr (by decide))
  obtain ⟨tree', hrun'⟩ := Option.ne_none_iff_exists'.mp
    ((MerkleTree.appendAll_eq_none_iff [(7 : ℕ), (6 : ℕ), (8 : ℕ)]).not.mpr (by decide))
  obtain ⟨hroot, hproof, hpath⟩ :=
    MerkleTree.appendAll_tamper_evident scheme_injective hrun hrun'
  exact ⟨tree, tree', hrun, hrun', fun heq => absurd (hroot.mp heq) (by decide),
    hproof (by decide) (by decide), hpath 2 (by decide) 0 (by decide) (5 : ℕ) (by decide)⟩

end Ideal

end UnidppLog
