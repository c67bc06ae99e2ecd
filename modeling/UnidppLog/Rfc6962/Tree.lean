/-
# The RFC 6962 Merkle tree hash

The tree hash of a list of leaves, by the top-down recursion of the standard:
a list of two or more leaves is split at the largest power of two strictly
below its length. Everything here is over an arbitrary leaf type and an
arbitrary pair of hash functions; collision resistance is never assumed.

Ranges of leaves are slices of one list. The two rules the rest of the library
rests on are `mth_slice_join`, which joins a complete left half to whatever
follows it, and `nodeAt`, the node of the tree at a given level and index.
-/

import Mathlib.Data.Nat.Log
import Mathlib.Data.List.TakeDrop
import Mathlib.Tactic.Ring

namespace Rfc6962

universe u v

variable {α : Type u} {β : Type v}

/-- The two hash functions of a transparency log and the hash of the tree with
no leaves. -/
structure HashScheme (α : Type u) (β : Type v) where
  /-- The hash of one leaf. -/
  leaf : α → β
  /-- The hash of an interior node. -/
  node : β → β → β
  /-- The hash of the empty tree. -/
  empty : β

/-- The largest power of two strictly below `n`, for `2 ≤ n`. -/
def split (n : ℕ) : ℕ :=
  2 ^ (n - 1).log2

/-- A power of two with `n` in the half-open octave above it is the split of
`n`. -/
theorem split_eq {n e : ℕ} (hlow : 2 ^ e < n) (hhigh : n ≤ 2 ^ (e + 1)) :
    split n = 2 ^ e := by
  have hpos : 0 < 2 ^ e := Nat.two_pow_pos e
  have hlog : (n - 1).log2 = e :=
    (Nat.log2_eq_iff (by omega)).mpr ⟨by omega, by omega⟩
  rw [split, hlog]

/-- The split of `n`, with the octave that characterizes it. -/
theorem exists_split {n : ℕ} (hn : 2 ≤ n) :
    ∃ e, split n = 2 ^ e ∧ 2 ^ e < n ∧ n ≤ 2 ^ (e + 1) := by
  have hlow : 2 ^ (n - 1).log2 ≤ n - 1 := Nat.log2_self_le (by omega)
  have hhigh : n - 1 < 2 ^ ((n - 1).log2 + 1) := Nat.lt_log2_self
  exact ⟨(n - 1).log2, rfl, by omega, by omega⟩

theorem split_pos (n : ℕ) : 0 < split n :=
  Nat.two_pow_pos _

theorem split_lt {n : ℕ} (hn : 2 ≤ n) : split n < n := by
  obtain ⟨e, heq, hlow, -⟩ := exists_split hn
  omega

/-- The `len` leaves from index `lo` on, cut short at the end of the list. -/
def slice (leaves : List α) (lo len : ℕ) : List α :=
  (leaves.drop lo).take len

@[simp]
theorem length_slice (leaves : List α) (lo len : ℕ) :
    (slice leaves lo len).length = min len (leaves.length - lo) := by
  simp [slice]

theorem slice_zero_left (leaves : List α) (len : ℕ) :
    slice leaves 0 len = leaves.take len := by
  simp [slice]

theorem slice_of_length_le {leaves : List α} {len : ℕ} (hlen : leaves.length ≤ len) :
    slice leaves 0 len = leaves := by
  rw [slice_zero_left, List.take_of_length_le hlen]

theorem take_slice {leaves : List α} {lo len k : ℕ} (hk : k ≤ len) :
    (slice leaves lo len).take k = slice leaves lo k := by
  simp [slice, List.take_take, Nat.min_eq_left hk]

theorem drop_slice (leaves : List α) (lo len k : ℕ) :
    (slice leaves lo len).drop k = slice leaves (lo + k) (len - k) := by
  simp [slice, List.drop_take, List.drop_drop]

/-- A slice is decided by the leaves up to its end, whatever follows them. -/
theorem slice_take {leaves : List α} {lo len m : ℕ} (hm : lo + len ≤ m) :
    slice (leaves.take m) lo len = slice leaves lo len := by
  simp only [slice, List.drop_take, List.take_take]
  congr 1
  omega

theorem slice_drop (leaves : List α) (lo len k : ℕ) :
    slice (leaves.drop k) lo len = slice leaves (k + lo) len := by
  simp [slice, List.drop_drop]

/-- Slices that reach past the end of the list are cut at the end. -/
theorem slice_of_end_le {leaves : List α} {lo len len' : ℕ}
    (hlen : leaves.length ≤ lo + len) (hlen' : leaves.length ≤ lo + len') :
    slice leaves lo len = slice leaves lo len' := by
  rw [slice, slice, List.take_of_length_le (by rw [List.length_drop]; omega),
    List.take_of_length_le (by rw [List.length_drop]; omega)]

theorem slice_one {leaves : List α} {lo : ℕ} (hlo : lo < leaves.length) :
    slice leaves lo 1 = [leaves[lo]] := by
  rw [slice, List.drop_eq_getElem_cons hlo, List.take_succ_cons, List.take_zero]

section Hash

variable (scheme : HashScheme α β)

/-- `MTH(D[n])`: the hash of the empty tree, of a single leaf, or of the two
subtrees on either side of the split. -/
def mth (leaves : List α) : β :=
  if 2 ≤ leaves.length then
    scheme.node (mth (leaves.take (split leaves.length)))
      (mth (leaves.drop (split leaves.length)))
  else
    match leaves with
    | entry :: _ => scheme.leaf entry
    | [] => scheme.empty
termination_by leaves.length
decreasing_by
  · have hlt := split_lt ‹2 ≤ leaves.length›
    rw [List.length_take]
    omega
  · have hpos := split_pos leaves.length
    rw [List.length_drop]
    omega

@[simp]
theorem mth_singleton (entry : α) : mth scheme [entry] = scheme.leaf entry := by
  rw [mth.eq_def, if_neg (by simp)]

theorem mth_of_two_le {leaves : List α} (hlen : 2 ≤ leaves.length) :
    mth scheme leaves =
      scheme.node (mth scheme (leaves.take (split leaves.length)))
        (mth scheme (leaves.drop (split leaves.length))) := by
  rw [mth.eq_def, if_pos hlen]

/-- A complete subtree of `2 ^ e` leaves followed by at most as many further
leaves hashes to the node over the two. -/
theorem mth_slice_join {leaves : List α} {lo e r : ℕ} (hr : 0 < r) (hr' : r ≤ 2 ^ e)
    (hend : lo + 2 ^ e + r ≤ leaves.length) :
    mth scheme (slice leaves lo (2 ^ e + r)) =
      scheme.node (mth scheme (slice leaves lo (2 ^ e)))
        (mth scheme (slice leaves (lo + 2 ^ e) r)) := by
  have hpos : 0 < 2 ^ e := Nat.two_pow_pos e
  have hlen : (slice leaves lo (2 ^ e + r)).length = 2 ^ e + r := by
    rw [length_slice]
    omega
  have hsplit : split (2 ^ e + r) = 2 ^ e :=
    split_eq (by omega) (by rw [pow_succ]; omega)
  rw [mth_of_two_le scheme (by omega), hlen, hsplit, take_slice (by omega), drop_slice,
    Nat.add_sub_cancel_left]

/-- The split recursion on a range of two or more leaves. -/
theorem mth_slice_split {leaves : List α} {lo len : ℕ} (htwo : 2 ≤ len)
    (hend : lo + len ≤ leaves.length) :
    mth scheme (slice leaves lo len) =
      scheme.node (mth scheme (slice leaves lo (split len)))
        (mth scheme (slice leaves (lo + split len) (len - split len))) := by
  obtain ⟨e, heq, hlow, hhigh⟩ := exists_split htwo
  rw [pow_succ] at hhigh
  have hrest : 0 < len - 2 ^ e := by omega
  have hjoin := mth_slice_join scheme hrest (by omega)
    (show lo + 2 ^ e + (len - 2 ^ e) ≤ leaves.length by omega)
  rw [heq]
  rwa [Nat.add_sub_cancel' hlow.le] at hjoin

/-- The node of the tree at `level` and `index`: the hash of leaves
`[index * 2 ^ level, (index + 1) * 2 ^ level)`, cut short at the end of the
list. -/
def nodeAt (leaves : List α) (level index : ℕ) : β :=
  mth scheme (slice leaves (index * 2 ^ level) (2 ^ level))

theorem nodeAt_zero {leaves : List α} {index : ℕ} (hindex : index < leaves.length) :
    nodeAt scheme leaves 0 index = scheme.leaf leaves[index] := by
  have hlo : index * 2 ^ 0 = index := by simp
  rw [nodeAt, hlo, pow_zero, slice_one hindex, mth_singleton]

/-- A node whose right child holds leaves hashes its two children. -/
theorem nodeAt_succ {leaves : List α} {level index : ℕ}
    (hright : (2 * index + 1) * 2 ^ level < leaves.length) :
    nodeAt scheme leaves (level + 1) index =
      scheme.node (nodeAt scheme leaves level (2 * index))
        (nodeAt scheme leaves level (2 * index + 1)) := by
  have hpos : 0 < 2 ^ level := Nat.two_pow_pos level
  have hlo : index * 2 ^ (level + 1) = 2 * index * 2 ^ level := by ring
  have hmid : (2 * index + 1) * 2 ^ level = 2 * index * 2 ^ level + 2 ^ level := by ring
  rw [hmid] at hright
  set r := min (2 ^ level) (leaves.length - (2 * index * 2 ^ level + 2 ^ level)) with hr
  have hwhole : slice leaves (2 * index * 2 ^ level) (2 ^ (level + 1)) =
      slice leaves (2 * index * 2 ^ level) (2 ^ level + r) := by
    rcases Nat.le_total (2 ^ level)
      (leaves.length - (2 * index * 2 ^ level + 2 ^ level)) with hle | hle
    · rw [hr, Nat.min_eq_left hle, pow_succ, Nat.mul_two]
    · exact slice_of_end_le (by rw [pow_succ]; omega) (by omega)
  have hpart : slice leaves (2 * index * 2 ^ level + 2 ^ level) (2 ^ level) =
      slice leaves (2 * index * 2 ^ level + 2 ^ level) r := by
    rcases Nat.le_total (2 ^ level)
      (leaves.length - (2 * index * 2 ^ level + 2 ^ level)) with hle | hle
    · rw [hr, Nat.min_eq_left hle]
    · exact slice_of_end_le (by omega) (by omega)
  rw [nodeAt, nodeAt, nodeAt, hlo, hmid, hwhole, hpart]
  exact mth_slice_join scheme (by omega) (by omega) (by omega)

/-- A node whose right child is empty is its left child. -/
theorem nodeAt_succ_of_le {leaves : List α} {level index : ℕ}
    (hright : leaves.length ≤ (2 * index + 1) * 2 ^ level) :
    nodeAt scheme leaves (level + 1) index = nodeAt scheme leaves level (2 * index) := by
  have hlo : index * 2 ^ (level + 1) = 2 * index * 2 ^ level := by ring
  have hmid : (2 * index + 1) * 2 ^ level = 2 * index * 2 ^ level + 2 ^ level := by ring
  rw [nodeAt, nodeAt, hlo]
  congr 1
  exact slice_of_end_le (by rw [pow_succ]; omega) (by omega)

/-- A node complete within the first `m` leaves is the same in the prefix. -/
theorem nodeAt_take {leaves : List α} {level index m : ℕ}
    (hend : (index + 1) * 2 ^ level ≤ m) :
    nodeAt scheme (leaves.take m) level index = nodeAt scheme leaves level index := by
  have hsum : index * 2 ^ level + 2 ^ level = (index + 1) * 2 ^ level := by ring
  rw [nodeAt, nodeAt, slice_take (by omega)]

/-- Dropping a multiple of the node width shifts the index. -/
theorem nodeAt_drop (leaves : List α) (level index shift : ℕ) :
    nodeAt scheme (leaves.drop (shift * 2 ^ level)) level index =
      nodeAt scheme leaves level (shift + index) := by
  rw [nodeAt, nodeAt, slice_drop, ← Nat.add_mul]

/-- The root of a tree is its node `0` at any level that covers it. -/
theorem nodeAt_root {leaves : List α} {level : ℕ} (hlen : leaves.length ≤ 2 ^ level) :
    nodeAt scheme leaves level 0 = mth scheme leaves := by
  rw [nodeAt, Nat.zero_mul, slice_of_length_le hlen]

end Hash

end Rfc6962
