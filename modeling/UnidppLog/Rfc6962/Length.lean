/-
# The length of a proof

Both recursions halve what is left, so a path and a proof have one node a level.
The bounds are stated against a power of two that the leaves fit in, which is what
survives a split whose right half is no power of two; the logarithm enters once,
at the end.
-/

import UnidppLog.Rfc6962.Inclusion
import UnidppLog.Rfc6962.Consistency
import Mathlib.Data.Nat.Log

namespace Rfc6962

universe u v

variable {α : Type u} {β : Type v}

/-- Where the leaves fit in twice a power of two, either half fits in that power. -/
theorem split_le_two_pow {n e : ℕ} (htwo : 2 ≤ n) (hn : n ≤ 2 ^ (e + 1)) :
    split n ≤ 2 ^ e ∧ n - split n ≤ 2 ^ e := by
  obtain ⟨k, hk, hlow, hhigh⟩ := exists_split htwo
  have hke : k ≤ e := by
    have hlt : 2 ^ k < 2 ^ (e + 1) := hlow.trans_le hn
    exact Nat.le_of_lt_succ ((Nat.pow_lt_pow_iff_right (by decide)).mp hlt)
  have hpow : 2 ^ k ≤ 2 ^ e := Nat.pow_le_pow_right (by decide) hke
  have hdouble : 2 ^ (k + 1) = 2 * 2 ^ k := by ring
  rw [hk]
  omega

/-- Leaves that do not fit in one are at least two. -/
theorem exists_succ_of_two_le {n e : ℕ} (htwo : 2 ≤ n) (hn : n ≤ 2 ^ e) : ∃ d, e = d + 1 := by
  cases e with
  | zero =>
      rw [pow_zero] at hn
      omega
  | succ d => exact ⟨d, rfl⟩

variable (scheme : HashScheme α β)

/-- The audit path has a node for each level at most. -/
theorem length_path_le {m e : ℕ} {leaves : List α} (hlen : leaves.length ≤ 2 ^ e) :
    (path scheme m leaves).length ≤ e := by
  induction m, leaves using path.induct generalizing e with
  | case1 m leaves htwo hsplit ih =>
      obtain ⟨d, rfl⟩ := exists_succ_of_two_le htwo hlen
      have hhalf := ih (e := d) (by
        rw [List.length_take]
        exact (Nat.min_le_left _ _).trans (split_le_two_pow htwo hlen).1)
      rw [path_of_lt_split scheme htwo hsplit, List.length_append, List.length_singleton]
      omega
  | case2 m leaves htwo hsplit ih =>
      obtain ⟨d, rfl⟩ := exists_succ_of_two_le htwo hlen
      have hhalf := ih (e := d) (by
        rw [List.length_drop]
        exact (split_le_two_pow htwo hlen).2)
      rw [path_of_split_le scheme htwo (by omega), List.length_append, List.length_singleton]
      omega
  | case3 m leaves hone => simp [path_of_le_one scheme (show leaves.length ≤ 1 by omega)]

/-- The subproof has a node for each level at most, and one more for the old leaves. -/
theorem length_subproof_le {m e : ℕ} {leaves : List α} {anchored : Bool}
    (hlen : leaves.length ≤ 2 ^ e) : (subproof scheme m leaves anchored).length ≤ e + 1 := by
  induction m, leaves, anchored using subproof.induct generalizing e with
  | case1 leaves => simp [subproof_self]
  | case2 leaves anchored hnot => simp [subproof_self, hnot]
  | case3 m leaves anchored hne htwo hleft ih =>
      obtain ⟨d, rfl⟩ := exists_succ_of_two_le htwo hlen
      have hhalf := ih (e := d) (by
        rw [List.length_take]
        exact (Nat.min_le_left _ _).trans (split_le_two_pow htwo hlen).1)
      rw [subproof_of_le_split scheme hne htwo hleft, List.length_append, List.length_singleton]
      omega
  | case4 m leaves anchored hne htwo hright ih =>
      obtain ⟨d, rfl⟩ := exists_succ_of_two_le htwo hlen
      have hhalf := ih (e := d) (by
        rw [List.length_drop]
        exact (split_le_two_pow htwo hlen).2)
      rw [subproof_of_split_lt scheme hne htwo (by omega), List.length_append,
        List.length_singleton]
      omega
  | case5 m leaves anchored hne hone => simp [subproof_of_lt_two scheme hne hone]

theorem length_path_le_clog (m : ℕ) (leaves : List α) :
    (path scheme m leaves).length ≤ Nat.clog 2 leaves.length :=
  length_path_le scheme (Nat.le_pow_clog (by decide) _)

theorem length_proof_le_clog (m : ℕ) (leaves : List α) :
    (proof scheme m leaves).length ≤ Nat.clog 2 leaves.length + 1 := by
  rw [proof]
  split
  · exact Nat.zero_le _
  · exact length_subproof_le scheme (Nat.le_pow_clog (by decide) _)

end Rfc6962
