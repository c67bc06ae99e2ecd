/-
# What the tree's operations cost

The tree's functions with every hash and every lookup of a cached node counted. Counting
changes nothing of what they compute. An append is not always cheap, but all appends are
together: each hash is made once and kept, two for each entry at most. Roots and proofs of
any prefix look up and hash a node or two for each level.
-/

import UnidppLog.Growth
import UnidppLog.Lookups
import UnidppLog.Cost.Counted
import UnidppLog.Rfc6962.Peaks
import Mathlib.Algebra.BigOperators.Group.List.Basic

namespace UnidppLog

open Rfc6962 Unidpp
open Cost (Counted)
open Cost.Counted (charge erase bind_eq_some_iff charge_eq_some_iff pure_eq_some_iff)

/-- How many nodes were hashed, and how many cached ones were looked up. -/
@[ext]
structure Work where
  hashes : ℕ
  lookups : ℕ

namespace Work

instance : Zero Work where
  zero := ⟨0, 0⟩

instance : Add Work where
  add w w' := ⟨w.hashes + w'.hashes, w.lookups + w'.lookups⟩

instance : AddCommMonoid Work where
  add_assoc _ _ _ := Work.ext (Nat.add_assoc _ _ _) (Nat.add_assoc _ _ _)
  zero_add _ := Work.ext (Nat.zero_add _) (Nat.zero_add _)
  add_zero _ := Work.ext (Nat.add_zero _) (Nat.add_zero _)
  add_comm _ _ := Work.ext (Nat.add_comm _ _) (Nat.add_comm _ _)
  nsmul := nsmulRec

@[simp]
theorem hashes_zero : (0 : Work).hashes = 0 :=
  rfl

@[simp]
theorem lookups_zero : (0 : Work).lookups = 0 :=
  rfl

@[simp]
theorem hashes_add (w w' : Work) : (w + w').hashes = w.hashes + w'.hashes :=
  rfl

@[simp]
theorem lookups_add (w w' : Work) : (w + w').lookups = w.lookups + w'.lookups :=
  rfl

@[simp]
theorem hashes_nsmul (n : ℕ) (w : Work) : (n • w).hashes = n * w.hashes := by
  induction n with
  | zero => simp
  | succ n ih => rw [succ_nsmul, hashes_add, ih, Nat.succ_mul]

@[simp]
theorem lookups_nsmul (n : ℕ) (w : Work) : (n • w).lookups = n * w.lookups := by
  induction n with
  | zero => simp
  | succ n ih => rw [succ_nsmul, lookups_add, ih, Nat.succ_mul]

def hash : Work := ⟨1, 0⟩

def lookup : Work := ⟨0, 1⟩

end Work

section

theorem split_two_pow (e : ℕ) : UnidppLog.split (2 ^ (e + 1)) = some (2 ^ e) := by
  have hlt : 2 ^ e < 2 ^ (e + 1) := Nat.pow_lt_pow_right (by decide) (Nat.lt_succ_self e)
  have hpos := Nat.two_pow_pos e
  exact split_eq_some_iff.mpr ⟨by omega, Rfc6962.split_eq hlt le_rfl⟩

/-- A range within twice a power of two is split at a power of two that is no greater, and what
is left over has no more peaks than that one has levels. -/
theorem exists_of_split {len k e : ℕ} (hk : UnidppLog.split len = some k)
    (hlen : len ≤ 2 ^ (e + 1)) :
    ∃ d, k = 2 ^ d ∧ d ≤ e ∧ len - k ≤ 2 ^ e ∧ k < len ∧ peaks (len - k) ≤ max d 1 := by
  obtain ⟨htwo, rfl⟩ := split_eq_some_iff.mp hk
  obtain ⟨d, heq, hlow, hhigh⟩ := exists_split htwo
  obtain ⟨hle, hle'⟩ := split_le_two_pow htwo hlen
  rw [heq] at hle hle' ⊢
  refine ⟨d, rfl, (Nat.pow_le_pow_iff_right (by decide)).mp hle, hle', hlow, peaks_le_of_le ?_⟩
  rw [pow_succ] at hhigh
  omega

variable [Unidpp]

namespace MerkleTree

/-- One round of the carry loop, counted. -/
def countedCompleteLevel (levels : List (List Hash)) (k : ℕ) :
    Counted Work (List (List Hash)) := do
  let lvl ← charge 0 levels[k]?
  let i ← charge 0 (U64.sub lvl.length 2)
  let left ← charge .lookup lvl[i]?
  let j ← charge 0 (U64.sub lvl.length 1)
  let right ← charge .lookup lvl[j]?
  charge .hash (pushLevel levels (k + 1) (nodeHash left right))

/-- `append`, counted. -/
def countedAppend (tree : MerkleTree) (entry : Hash) : Counted Work MerkleTree := do
  let levels ← charge .hash (pushLevel tree.levels 0 (leafHash entry))
  let size ← charge 0 (U64.add tree.size 1)
  let completed := U64.trailingZeros size
  let levels :=
    if levels.length ≤ completed then
      levels ++ List.replicate (completed + 1 - levels.length) []
    else levels
  let levels ← (List.range completed).foldlM countedCompleteLevel levels
  return { levels, size }

/-- `appendAll`, counted. -/
def countedAppendAll (tree : MerkleTree) (entries : List Hash) : Counted Work MerkleTree :=
  entries.foldlM countedAppend tree

/-- One round of the peak fold, counted. -/
def countedFoldPeak (tree : MerkleTree) (s : ℕ) (acc : Option Hash) (k : ℕ) :
    Counted Work (Option Hash) :=
  if (s >>> k) &&& 1 = 0 then return acc
  else do
    let lvl ← charge 0 tree.levels[k]?
    let peak ← charge .lookup lvl[(s >>> k) - 1]?
    match acc with
    | none => return some peak
    | some a => charge .hash (some (some (nodeHash peak a)))

/-- `root_at_size`, counted. -/
def countedRootAtSize (tree : MerkleTree) (s : ℕ) : Counted Work (Option Hash) := do
  charge 0 (debugAssert (s ≤ tree.size))
  if s = 0 then return none
  (List.range 64).foldlM (tree.countedFoldPeak s) none

/-- `subtree_hash`, counted. -/
def countedSubtreeHash (tree : MerkleTree) (k j : ℕ) : Counted Work Hash :=
  charge .lookup (tree.subtreeHash k j)

/-- `range_hash`, counted. -/
def countedRangeHash (tree : MerkleTree) (lo len : ℕ) : Counted Work Hash :=
  if len.isPowerOfTwo then tree.countedSubtreeHash (U64.trailingZeros len) (lo / len)
  else
    match _hk : split len with
    | none => charge 0 none
    | some k => do
      let left ← tree.countedRangeHash lo k
      let mid ← charge 0 (U64.add lo k)
      let right ← tree.countedRangeHash mid (len - k)
      charge .hash (some (nodeHash left right))
termination_by len
decreasing_by
  · exact split_lt ‹_›
  · have := split_pos ‹_›
    have := split_lt ‹_›
    omega

/-- `path_into`, counted. -/
def countedPathInto (tree : MerkleTree) (m lo len : ℕ) (path : List ProofNode) :
    Counted Work (List ProofNode) :=
  if len = 1 then return path
  else
    match _hk : split len with
    | none => charge 0 none
    | some k => do
      let offset ← charge 0 (U64.sub m lo)
      let mid ← charge 0 (U64.add lo k)
      if offset < k then
        let path ← tree.countedPathInto m lo k path
        let sibling ← tree.countedRangeHash mid (len - k)
        return path ++ [⟨sibling, .right⟩]
      else
        let path ← tree.countedPathInto m mid (len - k) path
        let sibling ← tree.countedSubtreeHash (U64.trailingZeros k) (lo / k)
        return path ++ [⟨sibling, .left⟩]
termination_by len
decreasing_by
  · exact split_lt ‹_›
  · have := split_pos ‹_›
    have := split_lt ‹_›
    omega

/-- `inclusion_path`, counted. -/
def countedInclusionPath (tree : MerkleTree) (m s : ℕ) : Counted Work (List ProofNode) := do
  charge 0 (debugAssert (m < s ∧ s ≤ tree.size))
  tree.countedPathInto m 0 s []

/-- `sub_proof`, counted. -/
def countedSubProof (tree : MerkleTree) (m lo len : ℕ) (anchored : Bool) (path : List Hash) :
    Counted Work (List Hash) :=
  if m = len then
    if !anchored then do
      let hash ← tree.countedRangeHash lo len
      return path ++ [hash]
    else return path
  else
    match _hk : split len with
    | none => charge 0 none
    | some k => do
      let mid ← charge 0 (U64.add lo k)
      if m ≤ k then
        let path ← tree.countedSubProof m lo k anchored path
        let right ← tree.countedRangeHash mid (len - k)
        return path ++ [right]
      else
        let path ← tree.countedSubProof (m - k) mid (len - k) false path
        let left ← tree.countedRangeHash lo k
        return path ++ [left]
termination_by len
decreasing_by
  · exact split_lt ‹_›
  · have := split_pos ‹_›
    have := split_lt ‹_›
    omega

/-- `consistency_path`, counted. -/
def countedConsistencyPath (tree : MerkleTree) (oldSize : ℕ) : Counted Work (List Hash) := do
  charge 0 (debugAssert (oldSize ≤ tree.size))
  if 0 < oldSize then tree.countedSubProof oldSize 0 tree.size true []
  else return []

/-! ## Counting changes nothing -/

theorem erase_completeLevel (levels : List (List Hash)) (k : ℕ) :
    erase (countedCompleteLevel levels k) = completeLevel levels k := by
  simp only [countedCompleteLevel, completeLevel, Cost.Counted.erase_bind,
    Cost.Counted.erase_charge, Option.bind_eq_bind]

theorem erase_append (tree : MerkleTree) (entry : Hash) :
    erase (tree.countedAppend entry) = tree.append entry := by
  simp only [countedAppend, append, Cost.Counted.erase_bind, Cost.Counted.erase_charge,
    Cost.Counted.erase_foldlM erase_completeLevel, Cost.Counted.erase_pure, Option.bind_eq_bind,
    Option.pure_def]

theorem erase_appendAll (tree : MerkleTree) (entries : List Hash) :
    erase (tree.countedAppendAll entries) = tree.appendAll entries :=
  Cost.Counted.erase_foldlM erase_append tree entries

theorem erase_foldPeak (tree : MerkleTree) (s : ℕ) (acc : Option Hash) (k : ℕ) :
    erase (tree.countedFoldPeak s acc k) = tree.foldPeak s acc k := by
  rw [countedFoldPeak, foldPeak]
  split
  · rfl
  · simp only [Cost.Counted.erase_bind, Cost.Counted.erase_charge, Option.bind_eq_bind]
    cases acc <;> rfl

theorem erase_rootAtSize (tree : MerkleTree) (s : ℕ) :
    erase (tree.countedRootAtSize s) = tree.rootAtSize s := by
  simp only [countedRootAtSize, rootAtSize, Cost.Counted.erase_bind, Cost.Counted.erase_charge,
    Option.bind_eq_bind]
  congr 1
  funext _
  split
  · rfl
  · exact Cost.Counted.erase_foldlM (tree.erase_foldPeak s) none _

/-- A range that is no complete subtree is split once. -/
theorem rangeHash_of_not_pow (tree : MerkleTree) (lo : ℕ) {len : ℕ} (hpow : ¬ len.isPowerOfTwo) :
    tree.rangeHash lo len = do
      let k ← split len
      let left ← tree.rangeHash lo k
      let right ← tree.rangeHash (← U64.add lo k) (len - k)
      return nodeHash left right := by
  rw [rangeHash.eq_def, if_neg hpow]
  split
  · next hk => simp [hk]
  · next k hk => simp [hk]

theorem countedRangeHash_of_not_pow (tree : MerkleTree) (lo : ℕ) {len : ℕ}
    (hpow : ¬ len.isPowerOfTwo) :
    tree.countedRangeHash lo len = (do
      let k ← charge 0 (split len)
      let left ← tree.countedRangeHash lo k
      let mid ← charge 0 (U64.add lo k)
      let right ← tree.countedRangeHash mid (len - k)
      charge .hash (some (nodeHash left right))) := by
  rw [countedRangeHash.eq_def, if_neg hpow, Cost.Counted.charge_zero_bind]
  split
  · next hk =>
    rw [hk]
    rfl
  · next k hk =>
    rw [hk]
    rfl

theorem erase_rangeHash (tree : MerkleTree) (lo len : ℕ) :
    erase (tree.countedRangeHash lo len) = tree.rangeHash lo len := by
  induction len using Nat.strong_induction_on generalizing lo with
  | _ len ih =>
      by_cases hpow : len.isPowerOfTwo
      · rw [countedRangeHash.eq_def, rangeHash.eq_def, if_pos hpow, if_pos hpow]
        exact Cost.Counted.erase_charge _ _
      · rw [countedRangeHash_of_not_pow tree lo hpow, rangeHash_of_not_pow tree lo hpow]
        cases hk : split len with
        | none => rfl
        | some k =>
            have hpos := UnidppLog.split_pos hk
            have hlt := UnidppLog.split_lt hk
            simp only [Cost.Counted.erase_bind, Cost.Counted.erase_charge, Option.bind_eq_bind,
              Option.bind_some, ih k hlt, ih (len - k) (by omega), Option.pure_def]

/-- A path of more than one leaf goes into one half, and passes by the other. -/
theorem pathInto_of_ne_one (tree : MerkleTree) (m lo : ℕ) {len : ℕ} (hone : len ≠ 1)
    (path : List ProofNode) :
    tree.pathInto m lo len path = (do
      let k ← split len
      let offset ← U64.sub m lo
      let mid ← U64.add lo k
      if offset < k then
        let path ← tree.pathInto m lo k path
        let sibling ← tree.rangeHash mid (len - k)
        return path ++ [⟨sibling, .right⟩]
      else
        let path ← tree.pathInto m mid (len - k) path
        let sibling ← tree.subtreeHash (U64.trailingZeros k) (lo / k)
        return path ++ [⟨sibling, .left⟩]) := by
  rw [pathInto.eq_def, if_neg hone]
  split
  · next hk => simp [hk]
  · next k hk => simp [hk]

theorem countedPathInto_of_ne_one (tree : MerkleTree) (m lo : ℕ) {len : ℕ} (hone : len ≠ 1)
    (path : List ProofNode) :
    tree.countedPathInto m lo len path = (do
      let k ← charge 0 (split len)
      let offset ← charge 0 (U64.sub m lo)
      let mid ← charge 0 (U64.add lo k)
      if offset < k then
        let path ← tree.countedPathInto m lo k path
        let sibling ← tree.countedRangeHash mid (len - k)
        return path ++ [⟨sibling, .right⟩]
      else
        let path ← tree.countedPathInto m mid (len - k) path
        let sibling ← tree.countedSubtreeHash (U64.trailingZeros k) (lo / k)
        return path ++ [⟨sibling, .left⟩]) := by
  rw [countedPathInto.eq_def, if_neg hone, Cost.Counted.charge_zero_bind (split len)]
  split
  · next hk =>
    rw [hk]
    rfl
  · next k hk =>
    rw [hk]
    rfl

theorem erase_pathInto (tree : MerkleTree) (m lo len : ℕ) (path : List ProofNode) :
    erase (tree.countedPathInto m lo len path) = tree.pathInto m lo len path := by
  induction len using Nat.strong_induction_on generalizing lo path with
  | _ len ih =>
      by_cases hone : len = 1
      · rw [countedPathInto.eq_def, pathInto.eq_def, if_pos hone, if_pos hone]
        rfl
      · rw [countedPathInto_of_ne_one tree m lo hone, pathInto_of_ne_one tree m lo hone]
        cases hk : split len with
        | none => rfl
        | some k =>
            have hpos := UnidppLog.split_pos hk
            have hlt := UnidppLog.split_lt hk
            simp only [Cost.Counted.erase_bind, Cost.Counted.erase_charge, Option.bind_eq_bind,
              Option.bind_some]
            congr 1
            funext offset
            congr 1
            funext mid
            split
            · simp only [Cost.Counted.erase_bind, ih k hlt, erase_rangeHash,
                Cost.Counted.erase_pure, Option.pure_def]
            · simp only [Cost.Counted.erase_bind, ih (len - k) (by omega), countedSubtreeHash,
                Cost.Counted.erase_charge, Cost.Counted.erase_pure, Option.pure_def]

theorem erase_inclusionPath (tree : MerkleTree) (m s : ℕ) :
    erase (tree.countedInclusionPath m s) = tree.inclusionPath m s := by
  simp only [countedInclusionPath, inclusionPath, Cost.Counted.erase_bind,
    Cost.Counted.erase_charge, erase_pathInto, Option.bind_eq_bind]

/-- A subproof of less than its range goes into one half, and passes by the other. -/
theorem subProof_of_ne (tree : MerkleTree) {m len : ℕ} (lo : ℕ) (hne : m ≠ len)
    (anchored : Bool) (path : List Hash) :
    tree.subProof m lo len anchored path = (do
      let k ← split len
      let mid ← U64.add lo k
      if m ≤ k then
        let path ← tree.subProof m lo k anchored path
        let right ← tree.rangeHash mid (len - k)
        return path ++ [right]
      else
        let path ← tree.subProof (m - k) mid (len - k) false path
        let left ← tree.rangeHash lo k
        return path ++ [left]) := by
  rw [subProof.eq_def, if_neg hne]
  split
  · next hk => simp [hk]
  · next k hk => simp [hk]

theorem countedSubProof_of_ne (tree : MerkleTree) {m len : ℕ} (lo : ℕ) (hne : m ≠ len)
    (anchored : Bool) (path : List Hash) :
    tree.countedSubProof m lo len anchored path = (do
      let k ← charge 0 (split len)
      let mid ← charge 0 (U64.add lo k)
      if m ≤ k then
        let path ← tree.countedSubProof m lo k anchored path
        let right ← tree.countedRangeHash mid (len - k)
        return path ++ [right]
      else
        let path ← tree.countedSubProof (m - k) mid (len - k) false path
        let left ← tree.countedRangeHash lo k
        return path ++ [left]) := by
  rw [countedSubProof.eq_def, if_neg hne, Cost.Counted.charge_zero_bind (split len)]
  split
  · next hk =>
    rw [hk]
    rfl
  · next k hk =>
    rw [hk]
    rfl

theorem erase_subProof (tree : MerkleTree) (m lo len : ℕ) (anchored : Bool) (path : List Hash) :
    erase (tree.countedSubProof m lo len anchored path) =
      tree.subProof m lo len anchored path := by
  induction len using Nat.strong_induction_on generalizing m lo anchored path with
  | _ len ih =>
      by_cases hself : m = len
      · rw [countedSubProof.eq_def, subProof.eq_def, if_pos hself, if_pos hself]
        cases anchored with
        | true => rfl
        | false =>
            simp only [Bool.not_false, if_true, Cost.Counted.erase_bind, erase_rangeHash,
              Cost.Counted.erase_pure, Option.bind_eq_bind, Option.pure_def]
      · rw [countedSubProof_of_ne tree lo hself, subProof_of_ne tree lo hself]
        cases hk : split len with
        | none => rfl
        | some k =>
            have hpos := UnidppLog.split_pos hk
            have hlt := UnidppLog.split_lt hk
            simp only [Cost.Counted.erase_bind, Cost.Counted.erase_charge, Option.bind_eq_bind,
              Option.bind_some]
            congr 1
            funext mid
            split
            · simp only [Cost.Counted.erase_bind, ih k hlt, erase_rangeHash,
                Cost.Counted.erase_pure, Option.pure_def]
            · simp only [Cost.Counted.erase_bind, ih (len - k) (by omega), erase_rangeHash,
                Cost.Counted.erase_pure, Option.pure_def]

theorem erase_consistencyPath (tree : MerkleTree) (oldSize : ℕ) :
    erase (tree.countedConsistencyPath oldSize) = tree.consistencyPath oldSize := by
  simp only [countedConsistencyPath, consistencyPath, Cost.Counted.erase_bind,
    Cost.Counted.erase_charge, Option.bind_eq_bind]
  congr 1
  funext _
  split
  · exact tree.erase_subProof _ _ _ _ _
  · rfl

/-- How many nodes are cached. -/
def cached (levels : List (List Hash)) : ℕ :=
  (levels.map List.length).sum

theorem cached_pushLevel {levels levels' : List (List Hash)} {k : ℕ} {hash : Hash}
    (h : pushLevel levels k hash = some levels') : cached levels' = cached levels + 1 := by
  obtain ⟨lvl, hk, heq⟩ := Option.bind_eq_some_iff.mp h
  obtain rfl := Option.some.inj heq
  obtain ⟨hlt, rfl⟩ := List.getElem?_eq_some_iff.mp hk
  have hlt' : k < (levels.map List.length).length := by simpa using hlt
  have hnew := List.sum_set (levels.map List.length) k (levels[k].length + 1)
  have hold := List.sum_set (levels.map List.length) k (levels.map List.length)[k]
  rw [List.set_getElem_self, if_pos hlt', List.getElem_map] at hold
  rw [if_pos hlt'] at hnew
  rw [cached, cached, List.map_set, List.length_append, List.length_singleton, hnew, hold]
  omega

/-- A round of the carry loop makes one node of two, and keeps it. -/
theorem spends_completeLevel {levels levels' : List (List Hash)} {k : ℕ} {w : Work}
    (h : countedCompleteLevel levels k = some (levels', w)) :
    w = ⟨1, 2⟩ ∧ cached levels' = cached levels + 1 := by
  simp only [countedCompleteLevel, bind_eq_some_iff, charge_eq_some_iff] at h
  obtain ⟨lvl, _, _, ⟨-, rfl⟩, ⟨i, _, _, ⟨-, rfl⟩, ⟨left, _, _, ⟨-, rfl⟩, ⟨j, _, _, ⟨-, rfl⟩,
    ⟨right, _, _, ⟨-, rfl⟩, ⟨hpush, rfl⟩, rfl⟩, rfl⟩, rfl⟩, rfl⟩, rfl⟩ := h
  exact ⟨rfl, cached_pushLevel hpush⟩

theorem spends_carry {levels levels' : List (List Hash)} {n : ℕ} {w : Work}
    (h : (List.range n).foldlM countedCompleteLevel levels = some (levels', w)) :
    w = n • ⟨1, 2⟩ ∧ cached levels' = cached levels + n := by
  induction n generalizing levels' w with
  | zero =>
      obtain ⟨rfl, rfl⟩ := pure_eq_some_iff.mp h
      exact ⟨(zero_nsmul _).symm, rfl⟩
  | succ n ih =>
      rw [List.range_succ, List.foldlM_append, bind_eq_some_iff] at h
      obtain ⟨mid, w₁, w₂, hfirst, hlast, rfl⟩ := h
      rw [List.foldlM_cons] at hlast
      simp only [List.foldlM_nil, bind_pure] at hlast
      obtain ⟨rfl, hmid⟩ := ih hfirst
      obtain ⟨rfl, hcached⟩ := spends_completeLevel hlast
      exact ⟨(succ_nsmul _ _).symm, by omega⟩

/-- An append hashes its leaf and a node for each subtree that it completes, and keeps all of
them. -/
theorem spends_append {tree tree' : MerkleTree} {entry : Hash} {w : Work}
    (h : tree.countedAppend entry = some (tree', w)) :
    tree.size + 1 < 2 ^ 64 ∧ tree'.size = tree.size + 1 ∧
      w = ⟨U64.trailingZeros (tree.size + 1) + 1, 2 * U64.trailingZeros (tree.size + 1)⟩ ∧
      cached tree'.levels = cached tree.levels + w.hashes := by
  simp only [countedAppend, bind_eq_some_iff, charge_eq_some_iff, pure_eq_some_iff] at h
  obtain ⟨pushed, _, _, ⟨hpush, rfl⟩, ⟨size, _, _, ⟨hsize, rfl⟩, ⟨levels, w, _, hcarry,
    ⟨rfl, rfl⟩, rfl⟩, rfl⟩, rfl⟩ := h
  have hroom : tree.size + 1 < 2 ^ 64 := by
    rw [U64.add] at hsize
    split at hsize
    · assumption
    · simp at hsize
  obtain rfl : tree.size + 1 = size := by
    rw [U64.add_of_lt hroom] at hsize
    exact Option.some.inj hsize
  obtain ⟨rfl, hcached⟩ := spends_carry hcarry
  refine ⟨hroom, rfl, ?_, ?_⟩
  · ext <;> simp [Work.hash] <;> omega
  · have hsized : ∀ n, cached (if pushed.length ≤ n then
        pushed ++ List.replicate (n + 1 - pushed.length) [] else pushed) = cached pushed := by
      intro n
      split
      · simp [cached]
      · rfl
    rw [hcached, hsized, cached_pushLevel hpush]
    simp [Work.hash]
    omega

/-- What the log has saved up for the carries to come: one node for each of its peaks. -/
def saved (tree : MerkleTree) : Work :=
  ⟨peaks tree.size, 2 * peaks tree.size⟩

/-- Every append spends two hashes and two lookups, but for what it saves up. -/
theorem saved_append {tree tree' : MerkleTree} {entry : Hash} {w : Work}
    (h : tree.countedAppend entry = some (tree', w)) : w + saved tree' = saved tree + ⟨2, 2⟩ := by
  obtain ⟨hroom, hsize, rfl, -⟩ := spends_append h
  obtain ⟨f, heven, hn⟩ := exists_completed hroom
  have hpeaks := peaks_succ hn heven
  rw [saved, saved, hsize]
  ext
  · simp only [Work.hashes_add]
    omega
  · simp only [Work.lookups_add]
    omega

/-- Every node that is made is kept. -/
theorem cached_appendAll {tree tree' : MerkleTree} {entries : List Hash} {w : Work}
    (h : tree.countedAppendAll entries = some (tree', w)) :
    cached tree'.levels = cached tree.levels + w.hashes := by
  induction entries generalizing tree w with
  | nil =>
      obtain ⟨rfl, rfl⟩ := pure_eq_some_iff.mp h
      rfl
  | cons entry entries ih =>
      rw [countedAppendAll, List.foldlM_cons, bind_eq_some_iff] at h
      obtain ⟨mid, w₁, w₂, hfirst, hrest, rfl⟩ := h
      obtain ⟨-, -, -, hcached⟩ := spends_append hfirst
      rw [ih hrest, hcached, Work.hashes_add]
      omega

/-- All appends together. -/
theorem spends_appendAll {tree : MerkleTree} {entries : List Hash} {w : Work}
    (h : new.countedAppendAll entries = some (tree, w)) :
    w.hashes + peaks entries.length = 2 * entries.length ∧
      w.lookups + 2 * peaks entries.length = 2 * entries.length ∧
      cached tree.levels = w.hashes := by
  have hsize : tree.size = entries.length := by
    have hrun := erase_appendAll new entries
    rw [h] at hrun
    exact (represents_of_appendAll hrun.symm).size_eq
  have hstep : ∀ (t : MerkleTree) (entry : Hash) (t' : MerkleTree) (w : Work), True →
      t.countedAppend entry = some (t', w) → True ∧ w + saved t' = saved t + ⟨2, 2⟩ :=
    fun _ _ _ _ _ happend => ⟨trivial, saved_append happend⟩
  obtain ⟨-, hspent⟩ := Cost.Counted.foldlM_spends hstep trivial h
  have hhashes := congrArg Work.hashes hspent
  have hlookups := congrArg Work.lookups hspent
  have hnone : peaks new.size = 0 := peaks_zero
  simp only [Work.hashes_add, Work.hashes_nsmul, saved, hsize, hnone] at hhashes
  simp only [Work.lookups_add, Work.lookups_nsmul, saved, hsize, hnone] at hlookups
  refine ⟨by omega, by omega, ?_⟩
  rw [cached_appendAll h]
  exact Nat.zero_add _

variable {tree : MerkleTree}

/-- After the bits below `k`, the peaks below `k` are looked up, and hashed together. -/
theorem spends_foldPeak {s k : ℕ} {acc : Option Hash} {w : Work}
    (h : (List.range k).foldlM (tree.countedFoldPeak s) none = some (acc, w)) :
    w.lookups = peaks (s % 2 ^ k) ∧ w.hashes = peaks (s % 2 ^ k) - 1 ∧
      (acc = none ↔ peaks (s % 2 ^ k) = 0) := by
  induction k generalizing acc w with
  | zero =>
      obtain ⟨rfl, rfl⟩ := pure_eq_some_iff.mp h
      simp [Nat.mod_one]
  | succ k ih =>
      rw [List.range_succ, List.foldlM_append, bind_eq_some_iff] at h
      obtain ⟨mid, w₁, w₂, hfirst, hlast, rfl⟩ := h
      obtain ⟨hlookups, hhashes, hmid⟩ := ih hfirst
      rw [List.foldlM_cons] at hlast
      simp only [List.foldlM_nil, bind_pure, countedFoldPeak] at hlast
      have hbit : s % 2 ^ (k + 1) = 2 ^ k * ((s >>> k) &&& 1) + s % 2 ^ k := by
        rw [Nat.shiftRight_eq_div_pow, Nat.and_one_is_mod, pow_succ, Nat.mod_mul, Nat.add_comm]
      have hpeaks : peaks (s % 2 ^ (k + 1)) = peaks ((s >>> k) &&& 1) + peaks (s % 2 ^ k) := by
        rw [hbit, peaks_two_pow_mul_add (Nat.mod_lt _ (Nat.two_pow_pos k))]
      rcases Nat.eq_zero_or_pos ((s >>> k) &&& 1) with hclear | hset
      · rw [if_pos hclear] at hlast
        obtain ⟨rfl, rfl⟩ := pure_eq_some_iff.mp hlast
        rw [hpeaks, hclear, peaks_zero, Nat.zero_add, add_zero]
        exact ⟨hlookups, hhashes, hmid⟩
      · have hone : (s >>> k) &&& 1 = 1 := by
          rw [Nat.and_one_is_mod] at hset ⊢
          omega
        rw [if_neg (by omega)] at hlast
        simp only [bind_eq_some_iff, charge_eq_some_iff] at hlast
        obtain ⟨lvl, _, _, ⟨-, rfl⟩, ⟨peak, _, w₃, ⟨-, rfl⟩, hacc, rfl⟩, rfl⟩ := hlast
        rw [hpeaks, hone, peaks_one]
        cases mid with
        | none =>
            obtain ⟨rfl, rfl⟩ := pure_eq_some_iff.mp hacc
            have hzero := hmid.mp rfl
            simp only [Work.lookups_add, Work.hashes_add, Work.lookups_zero, Work.hashes_zero,
              Work.lookup, reduceCtorEq, false_iff]
            omega
        | some a =>
            obtain ⟨hsome, rfl⟩ := charge_eq_some_iff.mp hacc
            obtain rfl := Option.some.inj hsome
            have hpos : peaks (s % 2 ^ k) ≠ 0 := fun hzero => by simpa using hmid.mpr hzero
            simp only [Work.lookups_add, Work.hashes_add, Work.lookups_zero, Work.hashes_zero,
              Work.lookup, Work.hash, reduceCtorEq, false_iff]
            omega

/-- A root costs a lookup for each of its peaks, and the hashes that join them. -/
theorem spends_rootAtSize {s : ℕ} {root : Option Hash} {w : Work} (hs : s < 2 ^ 64)
    (h : tree.countedRootAtSize s = some (root, w)) :
    w.lookups = peaks s ∧ w.hashes = peaks s - 1 := by
  simp only [countedRootAtSize, bind_eq_some_iff, charge_eq_some_iff] at h
  obtain ⟨_, _, w, ⟨-, rfl⟩, hfold, rfl⟩ := h
  rw [zero_add]
  split at hfold
  · next hzero =>
    obtain ⟨-, rfl⟩ := pure_eq_some_iff.mp hfold
    simp [hzero]
  · obtain ⟨hlookups, hhashes, -⟩ := spends_foldPeak hfold
    rw [Nat.mod_eq_of_lt hs] at hlookups hhashes
    exact ⟨hlookups, hhashes⟩

/-! ## Proofs -/

/-- A range costs a lookup for each of its peaks. -/
theorem spends_rangeHash {lo len : ℕ} {hash : Hash} {w : Work}
    (h : tree.countedRangeHash lo len = some (hash, w)) :
    w.lookups = peaks len ∧ w.hashes + 1 = peaks len := by
  induction len using Nat.strong_induction_on generalizing lo hash w with
  | _ len ih =>
      by_cases hpow : len.isPowerOfTwo
      · rw [countedRangeHash.eq_def, if_pos hpow, countedSubtreeHash, charge_eq_some_iff] at h
        obtain ⟨-, rfl⟩ := h
        obtain ⟨e, rfl⟩ := hpow
        simp [Work.lookup]
      · rw [countedRangeHash_of_not_pow tree lo hpow] at h
        simp only [bind_eq_some_iff, charge_eq_some_iff] at h
        obtain ⟨k, _, _, ⟨hk, rfl⟩, ⟨left, w₁, _, hleft, ⟨mid, _, _, ⟨-, rfl⟩,
          ⟨right, w₂, _, hright, ⟨-, rfl⟩, rfl⟩, rfl⟩, rfl⟩, rfl⟩ := h
        obtain ⟨htwo, rfl⟩ := split_eq_some_iff.mp hk
        obtain ⟨e, heq, -, -⟩ := exists_split htwo
        have hpos := Rfc6962.split_pos len
        have hlt := Rfc6962.split_lt htwo
        obtain ⟨hlookups, hhashes⟩ := ih _ hlt hleft
        obtain ⟨hlookups', hhashes'⟩ := ih _ (by omega) hright
        rw [heq, peaks_two_pow] at hlookups hhashes
        rw [peaks_split htwo hpow]
        simp only [Work.lookups_add, Work.hashes_add, Work.lookups_zero, Work.hashes_zero,
          Work.hash]
        omega

/-- A path costs what the one through a half costs, and what passing by the other half does. -/
theorem spends_pathInto_cases {m lo len : ℕ} {path path' : List ProofNode} {w : Work}
    (hone : len ≠ 1) (h : tree.countedPathInto m lo len path = some (path', w)) :
    ∃ k mid below w', UnidppLog.split len = some k ∧
      ((∃ sibling w'', tree.countedPathInto m lo k path = some (below, w') ∧
          tree.countedRangeHash mid (len - k) = some (sibling, w'') ∧ w = w' + w'') ∨
        (tree.countedPathInto m mid (len - k) path = some (below, w') ∧ w = w' + .lookup)) := by
  rw [countedPathInto_of_ne_one tree m lo hone] at h
  simp only [bind_eq_some_iff, charge_eq_some_iff] at h
  obtain ⟨k, _, _, ⟨hk, rfl⟩, ⟨offset, _, _, ⟨-, rfl⟩, ⟨mid, _, _, ⟨-, rfl⟩, h, rfl⟩, rfl⟩,
    rfl⟩ := h
  rw [zero_add, zero_add, zero_add]
  split at h
  · simp only [bind_eq_some_iff, pure_eq_some_iff] at h
    obtain ⟨below, w₁, _, hbelow, ⟨sibling, w₂, _, hsibling, ⟨-, rfl⟩, rfl⟩, rfl⟩ := h
    exact ⟨k, mid, below, w₁, hk, .inl ⟨sibling, w₂, hbelow, hsibling, by rw [add_zero]⟩⟩
  · simp only [bind_eq_some_iff, pure_eq_some_iff, countedSubtreeHash, charge_eq_some_iff] at h
    obtain ⟨below, w₁, _, hbelow, ⟨sibling, _, _, ⟨-, rfl⟩, ⟨-, rfl⟩, rfl⟩, rfl⟩ := h
    exact ⟨k, mid, below, w₁, hk, .inr ⟨hbelow, by rw [add_zero]⟩⟩

/-- A path within a complete subtree costs a lookup for each level. -/
theorem spends_pathInto_two_pow {m lo e : ℕ} {path path' : List ProofNode} {w : Work}
    (h : tree.countedPathInto m lo (2 ^ e) path = some (path', w)) :
    w.lookups = e ∧ w.hashes = 0 := by
  induction e generalizing lo path path' w with
  | zero =>
      rw [countedPathInto.eq_def, pow_zero, if_pos rfl] at h
      obtain ⟨-, rfl⟩ := pure_eq_some_iff.mp h
      exact ⟨rfl, rfl⟩
  | succ e ih =>
      have hpos := Nat.two_pow_pos e
      have hdouble : 2 ^ (e + 1) - 2 ^ e = 2 ^ e := by
        rw [pow_succ]
        omega
      obtain ⟨k, mid, below, w₁, hk, hcases⟩ :=
        spends_pathInto_cases (by rw [pow_succ]; omega) h
      obtain rfl : 2 ^ e = k := Option.some.inj ((split_two_pow e).symm.trans hk)
      rw [hdouble] at hcases
      rcases hcases with ⟨sibling, w₂, hbelow, hsibling, rfl⟩ | ⟨hbelow, rfl⟩
      · obtain ⟨hlookups, hhashes⟩ := ih hbelow
        obtain ⟨hlookups', hhashes'⟩ := spends_rangeHash hsibling
        rw [peaks_two_pow] at hlookups' hhashes'
        simp only [Work.lookups_add, Work.hashes_add]
        omega
      · obtain ⟨hlookups, hhashes⟩ := ih hbelow
        simp only [Work.lookups_add, Work.hashes_add, Work.lookup]
        omega

/-- A path costs two lookups and a hash for each level at most. -/
theorem spends_pathInto {m lo len e : ℕ} {path path' : List ProofNode} {w : Work}
    (hlen : len ≤ 2 ^ e) (h : tree.countedPathInto m lo len path = some (path', w)) :
    w.lookups ≤ 2 * e ∧ w.hashes ≤ e := by
  induction len using Nat.strong_induction_on generalizing lo e path path' w with
  | _ len ih =>
      by_cases hone : len = 1
      · rw [countedPathInto.eq_def, if_pos hone] at h
        obtain ⟨-, rfl⟩ := pure_eq_some_iff.mp h
        simp
      obtain ⟨k, mid, below, w₁, hk, hcases⟩ := spends_pathInto_cases hone h
      obtain ⟨e, rfl⟩ := exists_succ_of_two_le (split_eq_some_iff.mp hk).1 hlen
      obtain ⟨d, rfl, hd, hrest, hlt, hpeaks⟩ := exists_of_split hk hlen
      have hpos := Nat.two_pow_pos d
      rcases hcases with ⟨sibling, w₂, hbelow, hsibling, rfl⟩ | ⟨hbelow, rfl⟩
      · -- Below the left half, which is complete, there are only lookups.
        obtain ⟨hlookups, hhashes⟩ := spends_pathInto_two_pow hbelow
        obtain ⟨hlookups', hhashes'⟩ := spends_rangeHash hsibling
        simp only [Work.lookups_add, Work.hashes_add]
        omega
      · obtain ⟨hlookups, hhashes⟩ := ih _ (by omega) hrest hbelow
        simp only [Work.lookups_add, Work.hashes_add, Work.lookup]
        omega

/-- A subproof costs what the one in a half costs, and what passing by the other half does. -/
theorem spends_subProof_cases {m lo len : ℕ} {anchored : Bool} {path path' : List Hash} {w : Work}
    (hne : m ≠ len) (h : tree.countedSubProof m lo len anchored path = some (path', w)) :
    ∃ k mid below other w' w'', UnidppLog.split len = some k ∧ w = w' + w'' ∧
      ((tree.countedSubProof m lo k anchored path = some (below, w') ∧
          tree.countedRangeHash mid (len - k) = some (other, w'')) ∨
        (tree.countedSubProof (m - k) mid (len - k) false path = some (below, w') ∧
          tree.countedRangeHash lo k = some (other, w''))) := by
  rw [countedSubProof_of_ne tree lo hne] at h
  simp only [bind_eq_some_iff, charge_eq_some_iff] at h
  obtain ⟨k, _, _, ⟨hk, rfl⟩, ⟨mid, _, _, ⟨-, rfl⟩, h, rfl⟩, rfl⟩ := h
  rw [zero_add, zero_add]
  split at h
  · simp only [bind_eq_some_iff, pure_eq_some_iff] at h
    obtain ⟨below, w₁, _, hbelow, ⟨other, w₂, _, hother, ⟨-, rfl⟩, rfl⟩, rfl⟩ := h
    exact ⟨k, mid, below, other, w₁, w₂, hk, by rw [add_zero], .inl ⟨hbelow, hother⟩⟩
  · simp only [bind_eq_some_iff, pure_eq_some_iff] at h
    obtain ⟨below, w₁, _, hbelow, ⟨other, w₂, _, hother, ⟨-, rfl⟩, rfl⟩, rfl⟩ := h
    exact ⟨k, mid, below, other, w₁, w₂, hk, by rw [add_zero], .inr ⟨hbelow, hother⟩⟩

/-- A subproof of a whole range is the hash of the range, if anything. -/
theorem spends_subProof_self {lo len : ℕ} {anchored : Bool} {path path' : List Hash} {w : Work}
    (h : tree.countedSubProof len lo len anchored path = some (path', w)) :
    w.lookups ≤ peaks len ∧ w.hashes ≤ peaks len - 1 := by
  rw [countedSubProof.eq_def, if_pos rfl] at h
  cases anchored with
  | true =>
      obtain ⟨-, rfl⟩ := pure_eq_some_iff.mp h
      exact ⟨Nat.zero_le _, Nat.zero_le _⟩
  | false =>
      simp only [Bool.not_false, if_true, bind_eq_some_iff, pure_eq_some_iff] at h
      obtain ⟨hash, w₁, _, hhash, ⟨-, rfl⟩, rfl⟩ := h
      obtain ⟨hlookups, hhashes⟩ := spends_rangeHash hhash
      rw [add_zero]
      omega

/-- A subproof within a complete subtree costs a lookup for each level, and one at its end. -/
theorem spends_subProof_two_pow {m lo e : ℕ} {anchored : Bool} {path path' : List Hash} {w : Work}
    (h : tree.countedSubProof m lo (2 ^ e) anchored path = some (path', w)) :
    w.lookups ≤ e + 1 ∧ w.hashes = 0 := by
  induction e generalizing m lo anchored path path' w with
  | zero =>
      by_cases hself : m = 2 ^ 0
      · subst hself
        obtain ⟨hlookups, hhashes⟩ := spends_subProof_self h
        rw [peaks_two_pow] at hlookups hhashes
        omega
      · obtain ⟨k, mid, below, other, w₁, w₂, hk, -⟩ := spends_subProof_cases hself h
        have htwo := (split_eq_some_iff.mp hk).1
        omega
  | succ e ih =>
      by_cases hself : m = 2 ^ (e + 1)
      · subst hself
        obtain ⟨hlookups, hhashes⟩ := spends_subProof_self h
        rw [peaks_two_pow] at hlookups hhashes
        omega
      · have hdouble : 2 ^ (e + 1) - 2 ^ e = 2 ^ e := by
          rw [pow_succ]
          omega
        obtain ⟨k, mid, below, other, w₁, w₂, hk, rfl, hcases⟩ := spends_subProof_cases hself h
        obtain rfl : 2 ^ e = k := Option.some.inj ((split_two_pow e).symm.trans hk)
        rw [hdouble] at hcases
        rcases hcases with ⟨hbelow, hother⟩ | ⟨hbelow, hother⟩
        · obtain ⟨hlookups, hhashes⟩ := ih hbelow
          obtain ⟨hlookups', hhashes'⟩ := spends_rangeHash hother
          rw [peaks_two_pow] at hlookups' hhashes'
          simp only [Work.lookups_add, Work.hashes_add]
          omega
        · obtain ⟨hlookups, hhashes⟩ := ih hbelow
          obtain ⟨hlookups', hhashes'⟩ := spends_rangeHash hother
          rw [peaks_two_pow] at hlookups' hhashes'
          simp only [Work.lookups_add, Work.hashes_add]
          omega

/-- A subproof costs two lookups and a hash for each level at most, and one lookup more. -/
theorem spends_subProof {m lo len e : ℕ} {anchored : Bool} {path path' : List Hash} {w : Work}
    (hlen : len ≤ 2 ^ e) (h : tree.countedSubProof m lo len anchored path = some (path', w)) :
    w.lookups ≤ 2 * e + 1 ∧ w.hashes ≤ e := by
  induction len using Nat.strong_induction_on generalizing m lo e anchored path path' w with
  | _ len ih =>
      by_cases hself : m = len
      · subst hself
        obtain ⟨hlookups, hhashes⟩ := spends_subProof_self h
        have hpeaks := peaks_le_of_le hlen
        omega
      obtain ⟨k, mid, below, other, w₁, w₂, hk, rfl, hcases⟩ := spends_subProof_cases hself h
      obtain ⟨e, rfl⟩ := exists_succ_of_two_le (split_eq_some_iff.mp hk).1 hlen
      obtain ⟨d, rfl, hd, hrest, hlt, hpeaks⟩ := exists_of_split hk hlen
      have hpos := Nat.two_pow_pos d
      simp only [Work.lookups_add, Work.hashes_add]
      rcases hcases with ⟨hbelow, hother⟩ | ⟨hbelow, hother⟩
      · obtain ⟨hlookups, hhashes⟩ := spends_subProof_two_pow hbelow
        obtain ⟨hlookups', hhashes'⟩ := spends_rangeHash hother
        omega
      · obtain ⟨hlookups, hhashes⟩ := ih _ (by omega) hrest hbelow
        obtain ⟨hlookups', hhashes'⟩ := spends_rangeHash hother
        rw [peaks_two_pow] at hlookups' hhashes'
        omega

/-- A tree that commitments are appended to: counting changes nothing of what its operations
compute. All appends together hash two nodes for each entry at most, and keep every one; a single
append hashes one for each level that it completes. The root of any prefix is folded from its
peaks, and no proof takes more than two lookups and a hash for each level. -/
theorem appendAll_work (entries : List Hash) (hroom : entries.length < 2 ^ 64) :
    ∃ tree w, new.countedAppendAll entries = some (tree, w) ∧
      new.appendAll entries = some tree ∧
      w.hashes + peaks entries.length = 2 * entries.length ∧ cached tree.levels = w.hashes ∧
      (∀ entry tree' w', tree.countedAppend entry = some (tree', w') →
        tree.append entry = some tree' ∧ w'.hashes ≤ Nat.log2 (entries.length + 1) + 1 ∧
          w'.lookups ≤ 2 * Nat.log2 (entries.length + 1)) ∧
      (∀ s ≤ entries.length, ∃ root w', tree.countedRootAtSize s = some (root, w') ∧
        tree.rootAtSize s = some root ∧ w'.lookups = peaks s ∧ w'.hashes = peaks s - 1 ∧
          peaks s ≤ Nat.log2 s + 1) ∧
      (∀ m s, m < s → s ≤ entries.length → ∃ path w', tree.countedInclusionPath m s =
          some (path, w') ∧ tree.inclusionPath m s = some path ∧
            w'.lookups ≤ 2 * Nat.clog 2 s ∧ w'.hashes ≤ Nat.clog 2 s) ∧
      (∀ m ≤ entries.length, ∃ path w', tree.countedConsistencyPath m = some (path, w') ∧
        tree.consistencyPath m = some path ∧
          w'.lookups ≤ 2 * Nat.clog 2 entries.length + 1 ∧
          w'.hashes ≤ Nat.clog 2 entries.length) := by
  obtain ⟨tree, hrun⟩ : ∃ tree, new.appendAll entries = some tree := by
    rw [← Option.ne_none_iff_exists']
    intro hnone
    have := (appendAll_eq_none_iff entries).mp hnone
    omega
  have hrep := represents_of_appendAll hrun
  obtain ⟨w, hcounted⟩ :=
    Cost.Counted.exists_of_erase ((erase_appendAll new entries).trans hrun)
  obtain ⟨hhashes, -, hcached⟩ := spends_appendAll hcounted
  refine ⟨tree, w, hcounted, hrun, hhashes, hcached, ?_, ?_, ?_, ?_⟩
  · intro entry tree' w' happend
    obtain ⟨hroom', -, rfl, -⟩ := spends_append happend
    rw [hrep.size_eq] at hroom' ⊢
    obtain ⟨f, -, hn⟩ := exists_completed hroom'
    have hle : 2 ^ U64.trailingZeros (entries.length + 1) ≤ entries.length + 1 := by
      conv_rhs => rw [hn]
      exact Nat.le_mul_of_pos_left _ (Nat.succ_pos f)
    have hlog := (Nat.le_log2 (show entries.length + 1 ≠ 0 by omega)).mpr hle
    refine ⟨?_, by simp only; omega, by simp only; omega⟩
    rw [← erase_append, Cost.Counted.erase_of_eq_some happend]
  · intro s hs
    have hroot := hrep.rootAtSize hs
    obtain ⟨w', hcount⟩ := Cost.Counted.exists_of_erase ((tree.erase_rootAtSize s).trans hroot)
    obtain ⟨hlookups, hhashes⟩ := spends_rootAtSize (by omega) hcount
    exact ⟨_, w', hcount, hroot, hlookups, hhashes, peaks_le Nat.lt_log2_self⟩
  · intro m s hm hs
    have hpath := hrep.inclusionPath hm hs
    obtain ⟨w', hcount⟩ :=
      Cost.Counted.exists_of_erase ((tree.erase_inclusionPath m s).trans hpath)
    refine ⟨_, w', hcount, hpath, ?_⟩
    simp only [countedInclusionPath, bind_eq_some_iff, charge_eq_some_iff] at hcount
    obtain ⟨_, _, w', ⟨-, rfl⟩, hinto, rfl⟩ := hcount
    rw [zero_add]
    exact spends_pathInto (Nat.le_pow_clog (by decide) s) hinto
  · intro m hm
    have hpath := hrep.consistencyPath hm
    obtain ⟨w', hcount⟩ :=
      Cost.Counted.exists_of_erase ((tree.erase_consistencyPath m).trans hpath)
    refine ⟨_, w', hcount, hpath, ?_⟩
    simp only [countedConsistencyPath, bind_eq_some_iff, charge_eq_some_iff] at hcount
    obtain ⟨_, _, w', ⟨-, rfl⟩, hproof, rfl⟩ := hcount
    rw [zero_add]
    split at hproof
    · rw [hrep.size_eq] at hproof
      exact spends_subProof (Nat.le_pow_clog (by decide) _) hproof
    · obtain ⟨-, rfl⟩ := pure_eq_some_iff.mp hproof
      exact ⟨Nat.zero_le _, Nat.zero_le _⟩

end MerkleTree

end

/-- Seven entries have three peaks: eleven nodes are hashed, and kept. -/
theorem Sample.appendAll_work_seven :
    ∃ tree w, MerkleTree.new.countedAppendAll (List.replicate 7 (digest [1])) = some (tree, w) ∧
      w.hashes = 11 ∧ MerkleTree.cached tree.levels = 11 := by
  obtain ⟨tree, w, hrun, -, hhashes, hcached, -⟩ :=
    MerkleTree.appendAll_work (List.replicate 7 (digest [1])) (by decide)
  have hpeaks : peaks (2 ^ 2 * 1 + (2 ^ 1 * 1 + 1)) = 3 := by
    rw [peaks_two_pow_mul_add (by decide), peaks_two_pow_mul_add (by decide), peaks_one]
  rw [List.length_replicate] at hhashes
  change w.hashes + peaks 7 = 14 at hhashes
  change peaks 7 = 3 at hpeaks
  exact ⟨tree, w, hrun, by omega, by omega⟩

end UnidppLog
