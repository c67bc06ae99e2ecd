/-
# What the cached levels hold

`Represents tree leaves` says that a tree caches exactly the complete subtrees
of a list of commitments. Appending keeps it, one carry at a time, and every
later fact about roots and proofs is read off it.
-/

import UnidppLog.Tree
import UnidppLog.Rfc6962.Consistency

namespace UnidppLog

open Rfc6962 Unidpp

/-- Level `k` gains a node exactly when the new size is a multiple of
`2 ^ k`. -/
theorem succ_div_pow {n f t k : ℕ} (hn : n + 1 = (f + 1) * 2 ^ t) (heven : f % 2 = 0) :
    (n + 1) / 2 ^ k = n / 2 ^ k + (if k ≤ t then 1 else 0) := by
  rw [Nat.succ_div]
  congr 1
  have hiff : 2 ^ k ∣ n + 1 ↔ k ≤ t := by
    constructor
    · intro hdvd
      by_contra hcon
      obtain ⟨d, hd⟩ := Nat.exists_eq_add_of_lt (Nat.lt_of_not_le hcon)
      have htwo : 2 ^ t * 2 ∣ 2 ^ t * (f + 1) := by
        rw [Nat.mul_comm (2 ^ t) (f + 1), ← hn]
        refine Dvd.dvd.trans ?_ hdvd
        exact ⟨2 ^ d, by rw [hd]; ring⟩
      have := Nat.dvd_of_mul_dvd_mul_left (Nat.two_pow_pos t) htwo
      omega
    · intro hle
      rw [hn]
      exact Dvd.dvd.mul_left (pow_dvd_pow 2 hle) _
  simp only [hiff]

/-- The levels that a new size completes are as many as it has trailing zeros. -/
theorem exists_completed {n : ℕ} (hroom : n + 1 < 2 ^ 64) :
    ∃ f, f % 2 = 0 ∧ n + 1 = (f + 1) * 2 ^ U64.trailingZeros (n + 1) := by
  obtain ⟨f, t, heven, hn⟩ := exists_trailing (show 0 < n + 1 by omega)
  have ht : t < 64 := by
    have hle : 2 ^ t ≤ n + 1 := by
      rw [hn]
      exact Nat.le_mul_of_pos_left _ (by omega)
    exact (Nat.pow_lt_pow_iff_right (by omega)).mp (hle.trans_lt hroom)
  have hcompleted : U64.trailingZeros (n + 1) = t := by
    rw [hn]
    exact U64.trailingZeros_eq heven ht
  exact ⟨f, heven, by rw [hcompleted, hn]⟩

variable [Unidpp]

/-- The service's hash functions as a hash scheme. The hash of the empty tree
is never computed by the service. -/
def scheme : HashScheme Hash Hash where
  leaf := leafHash
  node := nodeHash
  empty := zeroHash

/-- The complete nodes of level `k`. -/
def levelOf (leaves : List Hash) (k : ℕ) : List Hash :=
  (List.range (leaves.length / 2 ^ k)).map (nodeAt scheme leaves k)

@[simp]
theorem length_levelOf (leaves : List Hash) (k : ℕ) :
    (levelOf leaves k).length = leaves.length / 2 ^ k := by
  simp [levelOf]

theorem levelOf_getElem? {leaves : List Hash} {k j : ℕ}
    (hj : (j + 1) * 2 ^ k ≤ leaves.length) :
    (levelOf leaves k)[j]? = some (nodeAt scheme leaves k j) := by
  have hlt : j < leaves.length / 2 ^ k :=
    (Nat.le_div_iff_mul_le (Nat.two_pow_pos k)).mpr hj
  simp [levelOf, hlt]

/-- A complete node does not change when leaves are appended. -/
theorem nodeAt_append {leaves later : List Hash} {k j : ℕ}
    (hj : (j + 1) * 2 ^ k ≤ leaves.length) :
    nodeAt scheme (leaves ++ later) k j = nodeAt scheme leaves k j := by
  rw [← nodeAt_take scheme hj, List.take_left]

/-- Complete nodes below `n` stay as they are when leaves are appended. -/
theorem map_nodeAt_append {leaves later : List Hash} {k n : ℕ}
    (hn : n ≤ leaves.length / 2 ^ k) :
    (List.range n).map (nodeAt scheme (leaves ++ later) k) =
      (List.range n).map (nodeAt scheme leaves k) := by
  apply List.map_congr_left
  intro j hj
  have hlt : j + 1 ≤ leaves.length / 2 ^ k := (List.mem_range.mp hj).trans_le hn
  exact nodeAt_append ((Nat.le_div_iff_mul_le (Nat.two_pow_pos k)).mp hlt)

/-- A level no subtree of which completes keeps its nodes. -/
theorem levelOf_concat_of_eq {leaves : List Hash} {entry : Hash} {k : ℕ}
    (hquot : (leaves.length + 1) / 2 ^ k = leaves.length / 2 ^ k) :
    levelOf (leaves ++ [entry]) k = levelOf leaves k := by
  rw [levelOf, levelOf, List.length_append, List.length_singleton, hquot,
    map_nodeAt_append le_rfl]

/-- A level on which a subtree completes gains that subtree's node. -/
theorem levelOf_concat_of_succ {leaves : List Hash} {entry : Hash} {k : ℕ}
    (hquot : (leaves.length + 1) / 2 ^ k = leaves.length / 2 ^ k + 1) :
    levelOf (leaves ++ [entry]) k =
      levelOf leaves k ++ [nodeAt scheme (leaves ++ [entry]) k (leaves.length / 2 ^ k)] := by
  rw [levelOf, levelOf, List.length_append, List.length_singleton, hquot, List.range_succ,
    List.map_append, map_nodeAt_append le_rfl]
  rfl

namespace MerkleTree

/-- A tree that caches exactly the complete subtrees of `leaves`: the size is
theirs and fits a `u64`, every level that has a complete node is present, and
every level present holds its complete nodes. -/
structure Represents (tree : MerkleTree) (leaves : List Hash) : Prop where
  size_eq : tree.size = leaves.length
  size_lt : leaves.length < 2 ^ 64
  bottom : 0 < tree.levels.length
  present : ∀ k, 0 < leaves.length / 2 ^ k → k < tree.levels.length
  level_eq : ∀ (k : ℕ) (lvl : List Hash), tree.levels[k]? = some lvl → lvl = levelOf leaves k

theorem represents_new : new.Represents [] where
  size_eq := rfl
  size_lt := by simp
  bottom := by simp [new]
  present k hk := by simp at hk
  level_eq k lvl hk := by
    cases k with
    | zero =>
        obtain rfl : [] = lvl := by simpa [new] using hk
        simp [levelOf]
    | succ k => simp [new] at hk

theorem Represents.getElem? {tree : MerkleTree} {leaves : List Hash}
    (hrep : tree.Represents leaves) {k : ℕ} (hk : 0 < leaves.length / 2 ^ k) :
    tree.levels[k]? = some (levelOf leaves k) := by
  have hlt := hrep.present k hk
  rw [List.getElem?_eq_getElem hlt]
  exact congrArg some (hrep.level_eq k _ (List.getElem?_eq_getElem hlt))

/-- The leaf hash at a number, as far as there are entries. -/
theorem Represents.leafHashAt {tree : MerkleTree} {leaves : List Hash}
    (hrep : tree.Represents leaves) (seq : ℕ) :
    tree.leafHashAt seq = some (leaves[seq]?.map leafHash) := by
  rw [MerkleTree.leafHashAt, hrep.size_eq]
  split
  · next hlt =>
    have hbottom := hrep.getElem? (show 0 < leaves.length / 2 ^ 0 by rw [pow_zero]; omega)
    have hleaf := levelOf_getElem? (show (seq + 1) * 2 ^ 0 ≤ leaves.length by omega)
    rw [nodeAt_zero scheme hlt] at hleaf
    simp only [hbottom, hleaf, Option.bind_eq_bind, Option.bind_some,
      List.getElem?_eq_getElem hlt, Option.map_some]
    rfl
  · next hge =>
    rw [List.getElem?_eq_none (by omega), Option.map_none]

/-- The levels during the carry loop of an append: those up to `i` already hold
the nodes of the new list, those above still hold the nodes of the old one. -/
def Carrying (leaves leaves' : List Hash) (i : ℕ) (levels : List (List Hash)) : Prop :=
  ∀ (k : ℕ) (lvl : List Hash), levels[k]? = some lvl →
    lvl = if k ≤ i then levelOf leaves' k else levelOf leaves k

theorem pushLevel_eq {levels : List (List Hash)} {k : ℕ} (hk : k < levels.length)
    (hash : Hash) :
    pushLevel levels k hash = some (levels.set k (levels[k] ++ [hash])) := by
  simp [pushLevel, List.getElem?_eq_getElem hk]

/-- Pushing the hash of the new leaf starts the carry. -/
theorem carrying_zero {leaves : List Hash} {entry : Hash} {levels : List (List Hash)}
    (hlevels : ∀ (k : ℕ) (lvl : List Hash), levels[k]? = some lvl → lvl = levelOf leaves k)
    (hzero : 0 < levels.length) :
    Carrying leaves (leaves ++ [entry]) 0
      (levels.set 0 (levels[0] ++ [leafHash entry])) := by
  intro k lvl hk
  cases k with
  | zero =>
      obtain rfl : levels[0] ++ [leafHash entry] = lvl := by simpa [hzero] using hk
      have hleaf : nodeAt scheme (leaves ++ [entry]) 0 leaves.length = leafHash entry := by
        rw [nodeAt_zero scheme (by simp)]
        simp [scheme]
      rw [hlevels 0 _ (List.getElem?_eq_getElem hzero), if_pos le_rfl,
        levelOf_concat_of_succ (by simp), pow_zero, Nat.div_one, hleaf]
  | succ k =>
      rw [if_neg (by omega)]
      exact hlevels _ _ (by simpa using hk)

/-- Growing the list of levels with empty ones does not disturb the carry,
provided the levels added have no complete node yet. -/
theorem Carrying.resize {leaves leaves' : List Hash} {levels : List (List Hash)} {n : ℕ}
    (hcarry : Carrying leaves leaves' 0 levels) (hzero : 0 < levels.length)
    (hempty : ∀ k, levels.length ≤ k → levelOf leaves k = []) :
    Carrying leaves leaves' 0 (levels ++ List.replicate n []) := by
  intro k lvl hk
  rcases Nat.lt_or_ge k levels.length with hlt | hge
  · exact hcarry k lvl (by rwa [List.getElem?_append_left hlt] at hk)
  · rw [List.getElem?_append_right hge, List.getElem?_replicate] at hk
    obtain rfl : [] = lvl := by
      split at hk
      · simpa using hk
      · simp at hk
    rw [if_neg (by omega), hempty k hge]

/-- Level `i + 1` gains its new node, and the carry is one level further. -/
theorem Carrying.set {leaves leaves' : List Hash} {levels : List (List Hash)} {i : ℕ}
    (hcarry : Carrying leaves leaves' i levels) (hup : i + 1 < levels.length) {hash : Hash}
    (hnext : levelOf leaves' (i + 1) = levelOf leaves (i + 1) ++ [hash]) :
    Carrying leaves leaves' (i + 1) (levels.set (i + 1) (levels[i + 1] ++ [hash])) := by
  intro k lvl hk
  rcases Nat.lt_trichotomy k (i + 1) with hlt | rfl | hgt
  · have hold := hcarry k lvl (by simpa [List.getElem?_set, hlt.ne'] using hk)
    rw [if_pos (by omega)] at hold ⊢
    exact hold
  · obtain rfl : levels[i + 1] ++ [hash] = lvl := by
      simpa [List.getElem?_set, hup] using hk
    have hold := hcarry (i + 1) _ (List.getElem?_eq_getElem hup)
    rw [if_neg (by omega)] at hold
    rw [hold, if_pos le_rfl, hnext]
  · have hold := hcarry k lvl (by simpa [List.getElem?_set, hgt.ne] using hk)
    rw [if_neg (by omega)] at hold ⊢
    exact hold

/-- Where level `i` holds an even number of nodes, the last two are hashed into the
next node of level `i + 1`. -/
theorem Carrying.completeLevel {leaves leaves' : List Hash} {levels : List (List Hash)} {i q : ℕ}
    (hcarry : Carrying leaves leaves' i levels) (hup : i + 1 < levels.length) (hq : 0 < q)
    (hsize : leaves'.length = 2 * q * 2 ^ i) :
    completeLevel levels i = some
      (levels.set (i + 1) (levels[i + 1] ++ [nodeAt scheme leaves' (i + 1) (q - 1)])) := by
  have hi : i < levels.length := by omega
  have hlvl := hcarry i _ (List.getElem?_eq_getElem hi)
  rw [if_pos le_rfl] at hlvl
  have hcount : (levelOf leaves' i).length = 2 * q := by
    rw [length_levelOf, hsize, Nat.mul_div_cancel _ (Nat.two_pow_pos i)]
  have hleft : (levelOf leaves' i)[2 * q - 2]? = some (nodeAt scheme leaves' i (2 * (q - 1))) := by
    have hindex : 2 * q - 2 = 2 * (q - 1) := by omega
    rw [hindex]
    exact levelOf_getElem? (by rw [hsize]; exact Nat.mul_le_mul_right _ (by omega))
  have hright : (levelOf leaves' i)[2 * q - 1]? =
      some (nodeAt scheme leaves' i (2 * (q - 1) + 1)) := by
    have hindex : 2 * q - 1 = 2 * (q - 1) + 1 := by omega
    rw [hindex]
    exact levelOf_getElem? (by rw [hsize]; exact Nat.mul_le_mul_right _ (by omega))
  have hjoin : nodeHash (nodeAt scheme leaves' i (2 * (q - 1)))
      (nodeAt scheme leaves' i (2 * (q - 1) + 1)) = nodeAt scheme leaves' (i + 1) (q - 1) := by
    refine (nodeAt_succ scheme ?_).symm
    rw [hsize]
    exact Nat.mul_lt_mul_of_pos_right (by omega) (Nat.two_pow_pos i)
  rw [MerkleTree.completeLevel, List.getElem?_eq_getElem hi, hlvl]
  simp [hcount, U64.sub_of_le (show 2 ≤ 2 * q by omega),
    U64.sub_of_le (show 1 ≤ 2 * q by omega), hleft, hright, hjoin, pushLevel_eq hup]

/-- One round of the carry loop completes the next level. -/
theorem completeLevel_spec {leaves : List Hash} {entry : Hash} {f t i : ℕ}
    (hn : leaves.length + 1 = (f + 1) * 2 ^ t) (heven : f % 2 = 0) (hi : i < t)
    {levels : List (List Hash)} (hlen : t < levels.length)
    (hcarry : Carrying leaves (leaves ++ [entry]) i levels) :
    ∃ levels', completeLevel levels i = some levels' ∧ levels'.length = levels.length ∧
      Carrying leaves (leaves ++ [entry]) (i + 1) levels' := by
  have hlen' : (leaves ++ [entry]).length = leaves.length + 1 := by simp
  obtain ⟨q, hq, hsize⟩ : ∃ q, 0 < q ∧ (leaves ++ [entry]).length = 2 * q * 2 ^ i := by
    obtain ⟨d, rfl⟩ := Nat.exists_eq_add_of_lt hi
    refine ⟨(f + 1) * 2 ^ d, Nat.mul_pos (by omega) (Nat.two_pow_pos d), ?_⟩
    rw [hlen', hn]
    ring
  have hgain : (leaves.length + 1) / 2 ^ (i + 1) = leaves.length / 2 ^ (i + 1) + 1 := by
    rw [succ_div_pow hn heven, if_pos (by omega)]
  have hquot : leaves.length / 2 ^ (i + 1) = q - 1 := by
    have hdouble : (leaves ++ [entry]).length = q * 2 ^ (i + 1) := by
      rw [hsize]
      ring
    rw [← hlen', hdouble, Nat.mul_div_cancel _ (Nat.two_pow_pos (i + 1))] at hgain
    omega
  have hnext : levelOf (leaves ++ [entry]) (i + 1) = levelOf leaves (i + 1) ++
      [nodeAt scheme (leaves ++ [entry]) (i + 1) (leaves.length / 2 ^ (i + 1))] :=
    levelOf_concat_of_succ hgain
  rw [hquot] at hnext
  have hup : i + 1 < levels.length := by omega
  exact ⟨_, hcarry.completeLevel hup hq hsize, List.length_set, hcarry.set hup hnext⟩

/-- The carry loop runs to the level it was asked for. -/
theorem foldlM_completeLevel {leaves : List Hash} {entry : Hash} {f t : ℕ}
    (hn : leaves.length + 1 = (f + 1) * 2 ^ t) (heven : f % 2 = 0)
    {levels : List (List Hash)} (hlen : t < levels.length)
    (hcarry : Carrying leaves (leaves ++ [entry]) 0 levels) {i : ℕ} (hi : i ≤ t) :
    ∃ levels', (List.range i).foldlM completeLevel levels = some levels' ∧
      levels'.length = levels.length ∧ Carrying leaves (leaves ++ [entry]) i levels' := by
  induction i with
  | zero => exact ⟨levels, rfl, rfl, hcarry⟩
  | succ i ih =>
      obtain ⟨mid, hrun, hmid, hcarry'⟩ := ih (by omega)
      obtain ⟨levels', hstep, hlen', hdone⟩ :=
        completeLevel_spec hn heven (show i < t by omega) (by omega) hcarry'
      refine ⟨levels', ?_, by omega, hdone⟩
      rw [List.range_succ, List.foldlM_append, hrun]
      simpa using hstep

/-- The state in which the carry loop starts: the leaf is pushed, and there is a level
for every subtree that the new size completes. -/
theorem Represents.exists_sized {tree : MerkleTree} {leaves : List Hash}
    (hrep : tree.Represents leaves) (entry : Hash) (completed : ℕ) :
    ∃ pushed sized, pushLevel tree.levels 0 (leafHash entry) = some pushed ∧
      (if pushed.length ≤ completed then
        pushed ++ List.replicate (completed + 1 - pushed.length) [] else pushed) = sized ∧
      completed < sized.length ∧ tree.levels.length ≤ sized.length ∧
      Carrying leaves (leaves ++ [entry]) 0 sized := by
  have hbottom := hrep.bottom
  have hpushedLen : (tree.levels.set 0 (tree.levels[0] ++ [leafHash entry])).length =
      tree.levels.length := List.length_set
  have hstart : Carrying leaves (leaves ++ [entry]) 0
      (tree.levels.set 0 (tree.levels[0] ++ [leafHash entry])) :=
    carrying_zero hrep.level_eq hrep.bottom
  refine ⟨_, _, pushLevel_eq hrep.bottom (leafHash entry), rfl, ?_⟩
  split
  · next hshort =>
    have hempty : ∀ k, (tree.levels.set 0 (tree.levels[0] ++ [leafHash entry])).length ≤ k →
        levelOf leaves k = [] := fun k hk => by
      have hnone : leaves.length / 2 ^ k = 0 := by
        by_contra hpos
        have := hrep.present k (Nat.pos_of_ne_zero hpos)
        omega
      simp [levelOf, hnone]
    refine ⟨?_, ?_, hstart.resize (hpushedLen ▸ hrep.bottom) hempty⟩
    · rw [List.length_append, List.length_replicate]
      omega
    · rw [List.length_append, List.length_replicate]
      omega
  · next hlong => exact ⟨by omega, by omega, hstart⟩

/-- Where the carry has reached the last completed level, the levels are those of the
longer list. -/
theorem Represents.of_carrying {tree : MerkleTree} {leaves : List Hash}
    (hrep : tree.Represents leaves) {entry : Hash} (hroom : leaves.length + 1 < 2 ^ 64)
    {f t : ℕ} (heven : f % 2 = 0) (hn : leaves.length + 1 = (f + 1) * 2 ^ t)
    {levels : List (List Hash)} (hlen : t < levels.length)
    (hgrown : tree.levels.length ≤ levels.length)
    (hdone : Carrying leaves (leaves ++ [entry]) t levels) :
    Represents { levels := levels, size := leaves.length + 1 } (leaves ++ [entry]) where
  size_eq := by simp
  size_lt := by simpa using hroom
  bottom := by simp only; omega
  present := by
    intro k hk
    simp only at hk ⊢
    rw [List.length_append, List.length_singleton, succ_div_pow hn heven] at hk
    by_cases hkt : k ≤ t
    · omega
    · rw [if_neg hkt] at hk
      have := hrep.present k (by omega)
      omega
  level_eq := by
    intro k lvl hk
    rw [hdone k lvl hk]
    split
    · rfl
    · next hkt =>
      exact (levelOf_concat_of_eq (by rw [succ_div_pow hn heven, if_neg hkt]; rfl)).symm

/-- Appending to a tree that represents `leaves` panics only when the size
leaves the `u64` range, and otherwise represents `leaves` with the entry at the
end. -/
theorem Represents.append {tree : MerkleTree} {leaves : List Hash}
    (hrep : tree.Represents leaves) (entry : Hash) (hroom : leaves.length + 1 < 2 ^ 64) :
    ∃ tree', tree.append entry = some tree' ∧ tree'.Represents (leaves ++ [entry]) := by
  obtain ⟨f, heven, hn⟩ := exists_completed hroom
  obtain ⟨pushed, sized, hpush, hsized, hlevels, hgrown, hcarry⟩ :=
    hrep.exists_sized entry (U64.trailingZeros (leaves.length + 1))
  obtain ⟨levels, hrun, hlen, hdone⟩ := foldlM_completeLevel hn heven hlevels hcarry le_rfl
  refine ⟨{ levels := levels, size := leaves.length + 1 }, ?_,
    hrep.of_carrying hroom heven hn (by omega) (by omega) hdone⟩
  rw [MerkleTree.append, hpush, hrep.size_eq]
  simp only [Option.bind_eq_bind, Option.bind_some, U64.add_of_lt hroom, hsized, hrun]
  rfl

end MerkleTree

end UnidppLog
