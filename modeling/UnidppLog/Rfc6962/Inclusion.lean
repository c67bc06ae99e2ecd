/-
# Audit paths

The audit path of one leaf, listed leaf-up with the side each sibling stands
on, and the verifier's fold over it. A path generated from a list of leaves
folds the leaf's hash to the tree hash of that list, for every list and every
leaf; nothing is assumed of the hash functions.
-/

import UnidppLog.Rfc6962.Tree

namespace Rfc6962

universe u v

variable {α : Type u} {β : Type v}

/-- The side on which a sibling is hashed. -/
inductive Side
  | left
  | right
  deriving DecidableEq, Repr

/-- One node of an audit path. -/
structure PathNode (β : Type v) where
  /-- The hash of the sibling subtree. -/
  sibling : β
  /-- The side the sibling stands on. -/
  side : Side
  deriving DecidableEq, Repr

section Hash

variable (scheme : HashScheme α β)

/-- `PATH(m, D[n])`, leaf-up: the path within the half that holds leaf `m`,
then the hash of the other half. -/
def path (m : ℕ) (leaves : List α) : List (PathNode β) :=
  if 2 ≤ leaves.length then
    if m < split leaves.length then
      path m (leaves.take (split leaves.length)) ++
        [⟨mth scheme (leaves.drop (split leaves.length)), .right⟩]
    else
      path (m - split leaves.length) (leaves.drop (split leaves.length)) ++
        [⟨mth scheme (leaves.take (split leaves.length)), .left⟩]
  else []
termination_by leaves.length
decreasing_by
  · have hlt := split_lt ‹2 ≤ leaves.length›
    rw [List.length_take]
    omega
  · have hpos := split_pos leaves.length
    rw [List.length_drop]
    omega

theorem path_of_le_one {m : ℕ} {leaves : List α} (hlen : leaves.length ≤ 1) :
    path scheme m leaves = [] := by
  rw [path.eq_def, if_neg (by omega)]

theorem path_of_lt_split {m : ℕ} {leaves : List α} (hlen : 2 ≤ leaves.length)
    (hm : m < split leaves.length) :
    path scheme m leaves =
      path scheme m (leaves.take (split leaves.length)) ++
        [⟨mth scheme (leaves.drop (split leaves.length)), .right⟩] := by
  rw [path.eq_def, if_pos hlen, if_pos hm]

theorem path_of_split_le {m : ℕ} {leaves : List α} (hlen : 2 ≤ leaves.length)
    (hm : split leaves.length ≤ m) :
    path scheme m leaves =
      path scheme (m - split leaves.length) (leaves.drop (split leaves.length)) ++
        [⟨mth scheme (leaves.take (split leaves.length)), .left⟩] := by
  rw [path.eq_def, if_pos hlen, if_neg (by omega)]

/-- Within a range, a leaf of the left half has the right half as its last sibling. -/
theorem path_slice_of_lt_split {leaves : List α} {m lo len : ℕ} (htwo : 2 ≤ len)
    (hend : lo + len ≤ leaves.length) (hm : m < split len) :
    path scheme m (slice leaves lo len) =
      path scheme m (slice leaves lo (split len)) ++
        [⟨mth scheme (slice leaves (lo + split len) (len - split len)), .right⟩] := by
  have hlength : (slice leaves lo len).length = len := by
    rw [length_slice]
    omega
  rw [path_of_lt_split scheme (by omega) (by rwa [hlength]), hlength,
    take_slice (split_lt htwo).le, drop_slice]

/-- Within a range, a leaf of the right half has the left half as its last sibling. -/
theorem path_slice_of_split_le {leaves : List α} {m lo len : ℕ} (htwo : 2 ≤ len)
    (hend : lo + len ≤ leaves.length) (hm : split len ≤ m) :
    path scheme m (slice leaves lo len) =
      path scheme (m - split len) (slice leaves (lo + split len) (len - split len)) ++
        [⟨mth scheme (slice leaves lo (split len)), .left⟩] := by
  have hlength : (slice leaves lo len).length = len := by
    rw [length_slice]
    omega
  rw [path_of_split_le scheme (by omega) (by rwa [hlength]), hlength,
    take_slice (split_lt htwo).le, drop_slice]

/-- Hash one sibling onto the accumulated subtree hash. -/
def foldNode (acc : β) (next : PathNode β) : β :=
  match next.side with
  | .left => scheme.node next.sibling acc
  | .right => scheme.node acc next.sibling

/-- Fold a leaf-up path onto a starting hash. -/
def foldPath (start : β) (nodes : List (PathNode β)) : β :=
  nodes.foldl (foldNode scheme) start

theorem foldPath_concat (start : β) (nodes : List (PathNode β)) (last : PathNode β) :
    foldPath scheme start (nodes ++ [last]) =
      foldNode scheme (foldPath scheme start nodes) last := by
  simp [foldPath]

/-- The audit path of a leaf folds the leaf's hash to the root. -/
theorem foldPath_path {m : ℕ} {leaves : List α} (hm : m < leaves.length) :
    foldPath scheme (scheme.leaf leaves[m]) (path scheme m leaves) = mth scheme leaves := by
  induction m, leaves using path.induct with
  | case1 m leaves hlen hsplit ih =>
      have hlt := split_lt hlen
      have hm' : m < (leaves.take (split leaves.length)).length := by
        rw [List.length_take]
        omega
      have hentry : (leaves.take (split leaves.length))[m] = leaves[m] := by
        rw [List.getElem_take]
      rw [path_of_lt_split scheme hlen hsplit, foldPath_concat, mth_of_two_le scheme hlen,
        ← ih hm', hentry]
      rfl
  | case2 m leaves hlen hsplit ih =>
      have hm' : m - split leaves.length < (leaves.drop (split leaves.length)).length := by
        rw [List.length_drop]
        omega
      have hentry : (leaves.drop (split leaves.length))[m - split leaves.length] = leaves[m] := by
        rw [List.getElem_drop]
        congr 1
        omega
      rw [path_of_split_le scheme hlen (by omega), foldPath_concat, mth_of_two_le scheme hlen,
        ← ih hm', hentry]
      rfl
  | case3 m leaves hlen =>
      obtain ⟨entry, rfl⟩ : ∃ entry, leaves = [entry] :=
        List.length_eq_one_iff.mp (by omega)
      obtain rfl : m = 0 := by simpa using hm
      rw [path_of_le_one scheme (by simp)]
      simp [foldPath]

end Hash

end Rfc6962
