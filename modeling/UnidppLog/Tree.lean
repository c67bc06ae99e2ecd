/-
# The append-only Merkle tree with cached levels

`levels[k][j]` caches the hash of leaves `[j * 2^k, (j+1) * 2^k)`, complete
subtrees only. The operations index the levels unchecked, so each is an
`Option` and `none` is the panic. Sizes and indices are `u64` in the source and
naturals here, with the additions and subtractions that a caller could make
overflow checked where they stand.
-/

import UnidppLog.Crates
import UnidppLog.Rfc6962.Inclusion

namespace UnidppLog

open Rfc6962 (Side)
open Unidpp

/-- The RFC 6962 split point: the largest power of two strictly smaller than
`n`, undefined for `n < 2`. -/
def split (n : ℕ) : Option ℕ := do
  debugAssert (2 ≤ n)
  return 1 <<< (n - 1).log2

theorem split_lt {n k : ℕ} (hk : split n = some k) : k < n := by
  simp only [split, Option.bind_eq_bind, Option.bind_eq_some_iff, debugAssert_eq_some_iff,
    decide_eq_true_eq] at hk
  obtain ⟨-, hn, heq⟩ := hk
  obtain rfl : 1 <<< (n - 1).log2 = k := by simpa using heq
  rw [Nat.one_shiftLeft]
  exact Rfc6962.split_lt hn

theorem split_pos {n k : ℕ} (hk : split n = some k) : 0 < k := by
  simp only [split, Option.bind_eq_bind, Option.bind_eq_some_iff, debugAssert_eq_some_iff] at hk
  obtain ⟨-, -, heq⟩ := hk
  obtain rfl : 1 <<< (n - 1).log2 = k := by simpa using heq
  rw [Nat.one_shiftLeft]
  exact Nat.two_pow_pos _

variable [Unidpp]

/-- One node of an inclusion proof: a sibling hash and its side. -/
abbrev ProofNode : Type :=
  Rfc6962.PathNode Hash

/-- An append-only Merkle tree over entry commitments. -/
structure MerkleTree where
  levels : List (List Hash)
  size : ℕ

namespace MerkleTree

/-- New empty tree. -/
def new : MerkleTree where
  levels := [[]]
  size := 0

/-- The derived `Default`: a tree without a level. -/
def default : MerkleTree where
  levels := []
  size := 0

/-- `levels[k].push(hash)`. -/
def pushLevel (levels : List (List Hash)) (k : ℕ) (hash : Hash) :
    Option (List (List Hash)) := do
  let lvl ← levels[k]?
  return levels.set k (lvl ++ [hash])

/-- One round of the carry loop: hash the last two nodes of level `k` onto the
end of level `k + 1`. -/
def completeLevel (levels : List (List Hash)) (k : ℕ) : Option (List (List Hash)) := do
  let lvl ← levels[k]?
  let left ← lvl[← U64.sub lvl.length 2]?
  let right ← lvl[← U64.sub lvl.length 1]?
  pushLevel levels (k + 1) (nodeHash left right)

/-- Append one entry commitment. Every trailing zero bit of the new size is a subtree that
just completed. -/
def append (tree : MerkleTree) (entry : Hash) : Option MerkleTree := do
  let levels ← pushLevel tree.levels 0 (leafHash entry)
  let size ← U64.add tree.size 1
  let completed := U64.trailingZeros size
  let levels :=
    if levels.length ≤ completed then
      levels ++ List.replicate (completed + 1 - levels.length) []
    else levels
  let levels ← (List.range completed).foldlM completeLevel levels
  return { levels, size }

/-- Append a sequence of commitments. -/
def appendAll (tree : MerkleTree) (entries : List Hash) : Option MerkleTree :=
  entries.foldlM append tree

/-- The leaf hash of entry `seq`. -/
def leafHashAt (tree : MerkleTree) (seq : ℕ) : Option (Option Hash) :=
  if seq < tree.size then do
    let lvl ← tree.levels[0]?
    let leaf ← lvl[seq]?
    return some leaf
  else some none

/-- One round of the peak fold: skip a clear bit, otherwise hash the peak of
bit `k` to the left of what has been accumulated from the lower peaks. -/
def foldPeak (tree : MerkleTree) (s : ℕ) (acc : Option Hash) (k : ℕ) :
    Option (Option Hash) :=
  if (s >>> k) &&& 1 = 0 then some acc
  else do
    let lvl ← tree.levels[k]?
    let peak ← lvl[(s >>> k) - 1]?
    match acc with
    | none => return some peak
    | some a => return some (nodeHash peak a)

/-- The root of the prefix of the first `s` entries, none for the empty
prefix. -/
def rootAtSize (tree : MerkleTree) (s : ℕ) : Option (Option Hash) := do
  debugAssert (s ≤ tree.size)
  if s = 0 then return none
  (List.range 64).foldlM (tree.foldPeak s) none

/-- The root of the whole tree. -/
def root (tree : MerkleTree) : Option (Option Hash) :=
  tree.rootAtSize tree.size

/-- A cached complete subtree hash: leaves `[j * 2^k, (j+1) * 2^k)`. -/
def subtreeHash (tree : MerkleTree) (k j : ℕ) : Option Hash := do
  let lvl ← tree.levels[k]?
  lvl[j]?

/-- The hash of leaves `[lo, lo + len)`: a lookup when `len` is a power of two,
and one split otherwise. -/
def rangeHash (tree : MerkleTree) (lo len : ℕ) : Option Hash :=
  if len.isPowerOfTwo then tree.subtreeHash (U64.trailingZeros len) (lo / len)
  else
    match _hk : split len with
    | none => none
    | some k => do
      let left ← tree.rangeHash lo k
      let right ← tree.rangeHash (← U64.add lo k) (len - k)
      return nodeHash left right
termination_by len
decreasing_by
  · exact split_lt ‹_›
  · have := split_pos ‹_›
    have := split_lt ‹_›
    omega

/-- The inclusion path recursion over `[lo, lo + len)`, pushing siblings
leaf-up. -/
def pathInto (tree : MerkleTree) (m lo len : ℕ) (path : List ProofNode) :
    Option (List ProofNode) :=
  if len = 1 then some path
  else
    match _hk : split len with
    | none => none
    | some k => do
      let offset ← U64.sub m lo
      let mid ← U64.add lo k
      if offset < k then
        let path ← tree.pathInto m lo k path
        let sibling ← tree.rangeHash mid (len - k)
        return path ++ [⟨sibling, .right⟩]
      else
        let path ← tree.pathInto m mid (len - k) path
        let sibling ← tree.subtreeHash (U64.trailingZeros k) (lo / k)
        return path ++ [⟨sibling, .left⟩]
termination_by len
decreasing_by
  · exact split_lt ‹_›
  · have := split_pos ‹_›
    have := split_lt ‹_›
    omega

/-- Inclusion proof, siblings from the leaf up, for leaf `m` against the prefix
tree of size `s`. -/
def inclusionPath (tree : MerkleTree) (m s : ℕ) : Option (List ProofNode) := do
  debugAssert (m < s ∧ s ≤ tree.size)
  tree.pathInto m 0 s []

/-- The subproof recursion over `[lo, lo + len)` proving the first `m` of its
leaves, deepest first. -/
def subProof (tree : MerkleTree) (m lo len : ℕ) (anchored : Bool) (path : List Hash) :
    Option (List Hash) :=
  if m = len then
    if !anchored then do
      let hash ← tree.rangeHash lo len
      return path ++ [hash]
    else some path
  else
    match _hk : split len with
    | none => none
    | some k => do
      let mid ← U64.add lo k
      if m ≤ k then
        let path ← tree.subProof m lo k anchored path
        let right ← tree.rangeHash mid (len - k)
        return path ++ [right]
      else
        let path ← tree.subProof (m - k) mid (len - k) false path
        let left ← tree.rangeHash lo k
        return path ++ [left]
termination_by len
decreasing_by
  · exact split_lt ‹_›
  · have := split_pos ‹_›
    have := split_lt ‹_›
    omega

/-- Consistency proof that the first `oldSize` entries of the current tree hash
to the old prefix root, empty for `oldSize = 0`. -/
def consistencyPath (tree : MerkleTree) (oldSize : ℕ) : Option (List Hash) := do
  debugAssert (oldSize ≤ tree.size)
  if 0 < oldSize then tree.subProof oldSize 0 tree.size true []
  else return []

end MerkleTree

end UnidppLog
