/-
# Roots of every prefix

A run of appends on a fresh tree represents the commitments it was given, or
overflows its `u64` size. On a tree that represents a list, the low-to-high
peak fold computes the RFC 6962 tree hash of every prefix.
-/

import UnidppLog.Levels

namespace UnidppLog

open Rfc6962 Unidpp

variable [Unidpp]

/-- The RFC 6962 tree hash, with no value for the empty list. -/
def rootOf (leaves : List Hash) : Option Hash :=
  if leaves = [] then none else some (mth scheme leaves)

@[simp]
theorem rootOf_nil : rootOf [] = none :=
  rfl

theorem rootOf_of_ne_nil {leaves : List Hash} (hne : leaves ≠ []) :
    rootOf leaves = some (mth scheme leaves) :=
  if_neg hne

namespace MerkleTree

theorem append_eq_none {tree : MerkleTree} {entry : Hash} (hfull : 2 ^ 64 ≤ tree.size + 1) :
    tree.append entry = none := by
  have hadd : U64.add tree.size 1 = none := by
    rw [U64.add, if_neg (by omega)]
  simp only [append, hadd, Option.bind_eq_bind, Option.bind_none, Option.bind_fun_none]

theorem appendAll_cons (tree : MerkleTree) (entry : Hash) (entries : List Hash) :
    tree.appendAll (entry :: entries) =
      (tree.append entry).bind fun tree' => tree'.appendAll entries := by
  simp [appendAll]

/-- A run of appends either stays within `u64` and represents the longer list,
or panics. -/
theorem Represents.appendAll {tree : MerkleTree} {leaves : List Hash}
    (hrep : tree.Represents leaves) (entries : List Hash) :
    (∃ tree', tree.appendAll entries = some tree' ∧ tree'.Represents (leaves ++ entries)) ∨
      (tree.appendAll entries = none ∧ 2 ^ 64 ≤ (leaves ++ entries).length) := by
  induction entries generalizing tree leaves with
  | nil => exact .inl ⟨tree, rfl, by simpa using hrep⟩
  | cons entry entries ih =>
      rw [appendAll_cons]
      by_cases hroom : leaves.length + 1 < 2 ^ 64
      · obtain ⟨next, hnext, hrep'⟩ := hrep.append entry hroom
        rw [hnext]
        simpa using ih hrep'
      · refine .inr ⟨?_, ?_⟩
        · rw [append_eq_none (by rw [hrep.size_eq]; omega)]
          rfl
        · rw [List.length_append, List.length_cons]
          omega

/-- Every tree built by appends represents what was appended. -/
theorem represents_of_appendAll {entries : List Hash} {tree : MerkleTree}
    (hrun : new.appendAll entries = some tree) : tree.Represents entries := by
  rcases represents_new.appendAll entries with ⟨tree', hrun', hrep⟩ | ⟨hnone, -⟩
  · obtain rfl : tree' = tree := Option.some.inj (hrun'.symm.trans hrun)
    simpa using hrep
  · simp [hnone] at hrun

theorem appendAll_eq_none_iff (entries : List Hash) :
    new.appendAll entries = none ↔ 2 ^ 64 ≤ entries.length := by
  rcases represents_new.appendAll entries with ⟨tree, hrun, hrep⟩ | ⟨hnone, hfull⟩
  · have hlt : entries.length < 2 ^ 64 := by simpa using hrep.size_lt
    simp [hrun]
    omega
  · simpa [hnone] using hfull

/-- A peak joins what lies right of it: both become the root of the leaves from the
peak on. -/
theorem rootOf_join {leaves : List Hash} {start k rest : ℕ} {peak : Hash}
    (hpeak : peak = mth scheme (slice leaves start (2 ^ k)))
    (hrest : rest ≤ 2 ^ k) (hend : start + 2 ^ k + rest ≤ leaves.length) :
    (match rootOf (slice leaves (start + 2 ^ k) rest) with
      | none => some (some peak)
      | some a => some (some (nodeHash peak a))) =
      some (rootOf (slice leaves start (2 ^ k + rest))) := by
  have hpos : 0 < 2 ^ k := Nat.two_pow_pos k
  have hwhole : slice leaves start (2 ^ k + rest) ≠ [] := by
    rw [← List.length_pos_iff, length_slice]
    omega
  rcases Nat.eq_zero_or_pos rest with rfl | hsome
  · have hempty : slice leaves (start + 2 ^ k) 0 = [] := by simp [slice]
    rw [hempty, rootOf_of_ne_nil hwhole, Nat.add_zero, ← hpeak]
    rfl
  · have hright : slice leaves (start + 2 ^ k) rest ≠ [] := by
      rw [← List.length_pos_iff, length_slice]
      omega
    rw [rootOf_of_ne_nil hright, rootOf_of_ne_nil hwhole,
      mth_slice_join scheme hsome hrest hend, ← hpeak]
    rfl

/-- The accumulator after the bits below `k`: the root of the leaves that lie
past the last multiple of `2 ^ k`. -/
theorem foldlM_foldPeak {tree : MerkleTree} {leaves : List Hash}
    (hrep : tree.Represents leaves) {s : ℕ} (hs : s ≤ leaves.length) (k : ℕ) :
    (List.range k).foldlM (tree.foldPeak s) none =
      some (rootOf (slice leaves (s / 2 ^ k * 2 ^ k) (s - s / 2 ^ k * 2 ^ k))) := by
  induction k with
  | zero => simp [slice]
  | succ k ih =>
      have hpos : 0 < 2 ^ k := Nat.two_pow_pos k
      have hdown := Nat.div_mul_le_self s (2 ^ k)
      have hup := Nat.lt_div_mul_add hpos (a := s)
      have hhalf : s / 2 ^ (k + 1) = s / 2 ^ k / 2 := by
        rw [pow_succ, Nat.div_div_eq_div_mul]
      rw [List.range_succ, List.foldlM_append, ih]
      simp only [List.foldlM_cons, List.foldlM_nil, Option.bind_eq_bind, Option.bind_some,
        Option.pure_def, Option.bind_fun_some]
      rw [foldPeak, Nat.shiftRight_eq_div_pow, Nat.and_one_is_mod, hhalf]
      generalize s / 2 ^ k = q at hdown hup ⊢
      rcases Nat.mod_two_eq_zero_or_one q with hclear | hset
      · -- The bit is clear: the last multiple stays where it is.
        have hsame : q / 2 * 2 ^ (k + 1) = q * 2 ^ k := by
          rw [pow_succ, Nat.mul_comm (2 ^ k) 2, ← Nat.mul_assoc]
          congr 1
          omega
        rw [if_pos hclear, hsame]
      · -- The bit is set: its peak joins the accumulator on the left.
        have hstart : q / 2 * 2 ^ (k + 1) + 2 ^ k = q * 2 ^ k := by
          have hq : q = q / 2 * 2 + 1 := by omega
          calc q / 2 * 2 ^ (k + 1) + 2 ^ k = (q / 2 * 2 + 1) * 2 ^ k := by ring
            _ = q * 2 ^ k := by rw [← hq]
        have hpeakLo : (q - 1) * 2 ^ k = q / 2 * 2 ^ (k + 1) := by
          rw [Nat.sub_mul, Nat.one_mul]
          omega
        have hlevel : 0 < leaves.length / 2 ^ k :=
          Nat.div_pos (by omega) hpos
        have hpeak : (levelOf leaves k)[q - 1]? = some (nodeAt scheme leaves k (q - 1)) :=
          levelOf_getElem? (by rw [Nat.sub_add_cancel (by omega)]; omega)
        have hnode : nodeAt scheme leaves k (q - 1) =
            mth scheme (slice leaves (q / 2 * 2 ^ (k + 1)) (2 ^ k)) := by
          rw [nodeAt, hpeakLo]
        have hlen : s - q / 2 * 2 ^ (k + 1) = 2 ^ k + (s - q * 2 ^ k) := by omega
        rw [if_neg (by omega), hrep.getElem? hlevel, hlen, ← hstart]
        simp only [Option.bind_eq_bind, Option.bind_some, hpeak]
        exact rootOf_join hnode (by omega) (by omega)

/-- The prefix root is the RFC 6962 tree hash of the prefix. -/
theorem Represents.rootAtSize {tree : MerkleTree} {leaves : List Hash}
    (hrep : tree.Represents leaves) {s : ℕ} (hs : s ≤ leaves.length) :
    tree.rootAtSize s = some (rootOf (leaves.take s)) := by
  have hlt : s / 2 ^ 64 = 0 := Nat.div_eq_of_lt (hs.trans_lt hrep.size_lt)
  have hassert : debugAssert (s ≤ tree.size) = some () := by
    simp [hrep.size_eq, hs]
  rw [MerkleTree.rootAtSize, hassert]
  simp only [Option.bind_eq_bind, Option.bind_some]
  split
  · next hzero => simp [hzero]
  · rw [foldlM_foldPeak hrep hs 64, hlt, Nat.zero_mul, Nat.sub_zero, slice_zero_left]

/-- Appending any commitments to a new tree overflows the `u64` size or builds
a tree whose every prefix root, and whose root, is the RFC 6962 tree hash. -/
theorem appendAll_rootAtSize_eq (entries : List Hash) :
    (new.appendAll entries = none ↔ 2 ^ 64 ≤ entries.length) ∧
      ∀ tree, new.appendAll entries = some tree →
        (∀ s ≤ entries.length, tree.rootAtSize s = some (rootOf (entries.take s))) ∧
          tree.root = some (rootOf entries) := by
  refine ⟨appendAll_eq_none_iff entries, fun tree hrun => ?_⟩
  have hrep := represents_of_appendAll hrun
  refine ⟨fun s hs => hrep.rootAtSize hs, ?_⟩
  rw [root, hrep.size_eq, hrep.rootAtSize le_rfl, List.take_length]

end MerkleTree

end UnidppLog
