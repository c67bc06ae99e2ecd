/-
# Consistency proofs and their verification

The generator is the standard's top-down recursion; the verifier is its
bit-driven loop, which walks two leaf indices up the levels of the tree and
consumes one proof node a level. The two meet in the middle: `ladder` lists the
nodes the loop expects, level by level, and `subproof_eq_ladder` shows that the
recursion produces exactly that list. Acceptance is then one induction up the
levels.
-/

import UnidppLog.Rfc6962.Tree
import Mathlib.Algebra.Order.Ring.Nat
import Mathlib.Data.Nat.Prime.Basic

namespace Rfc6962

universe u v

variable {α : Type u} {β : Type v}

section Generator

variable (scheme : HashScheme α β)

/-- `SUBPROOF(m, D[n], b)`: the nodes that rebuild the hash of the first `m`
leaves and of all of them, deepest first. The flag says that the verifier
already holds the hash of the first `m` leaves. -/
def subproof (m : ℕ) (leaves : List α) (anchored : Bool) : List β :=
  if m = leaves.length then
    if anchored then [] else [mth scheme leaves]
  else if 2 ≤ leaves.length then
    if m ≤ split leaves.length then
      subproof m (leaves.take (split leaves.length)) anchored ++
        [mth scheme (leaves.drop (split leaves.length))]
    else
      subproof (m - split leaves.length) (leaves.drop (split leaves.length)) false ++
        [mth scheme (leaves.take (split leaves.length))]
  else []
termination_by leaves.length
decreasing_by
  · have hlt := split_lt ‹2 ≤ leaves.length›
    rw [List.length_take]
    omega
  · have hpos := split_pos leaves.length
    rw [List.length_drop]
    omega

/-- `PROOF(m, D[n])`, with nothing to prove about the empty prefix and about
the whole list. -/
def proof (m : ℕ) (leaves : List α) : List β :=
  if m = 0 then [] else subproof scheme m leaves true

theorem subproof_self (leaves : List α) (anchored : Bool) :
    subproof scheme leaves.length leaves anchored =
      if anchored then [] else [mth scheme leaves] := by
  rw [subproof.eq_def, if_pos rfl]

theorem subproof_of_le_split {m : ℕ} {leaves : List α} {anchored : Bool}
    (hne : m ≠ leaves.length) (hlen : 2 ≤ leaves.length) (hm : m ≤ split leaves.length) :
    subproof scheme m leaves anchored =
      subproof scheme m (leaves.take (split leaves.length)) anchored ++
        [mth scheme (leaves.drop (split leaves.length))] := by
  rw [subproof.eq_def, if_neg hne, if_pos hlen, if_pos hm]

theorem subproof_of_split_lt {m : ℕ} {leaves : List α} {anchored : Bool}
    (hne : m ≠ leaves.length) (hlen : 2 ≤ leaves.length) (hm : split leaves.length < m) :
    subproof scheme m leaves anchored =
      subproof scheme (m - split leaves.length) (leaves.drop (split leaves.length)) false ++
        [mth scheme (leaves.take (split leaves.length))] := by
  rw [subproof.eq_def, if_neg hne, if_pos hlen, if_neg (by omega)]

/-- Within a range, an old prefix of the left half takes the right half as new. -/
theorem subproof_slice_of_le_split {leaves : List α} {m lo len : ℕ} {anchored : Bool}
    (hne : m ≠ len) (htwo : 2 ≤ len) (hend : lo + len ≤ leaves.length) (hm : m ≤ split len) :
    subproof scheme m (slice leaves lo len) anchored =
      subproof scheme m (slice leaves lo (split len)) anchored ++
        [mth scheme (slice leaves (lo + split len) (len - split len))] := by
  have hlength : (slice leaves lo len).length = len := by
    rw [length_slice]
    omega
  rw [subproof_of_le_split scheme (by rwa [hlength]) (by omega) (by rwa [hlength]), hlength,
    take_slice (split_lt htwo).le, drop_slice]

/-- Within a range, an old prefix that reaches into the right half keeps the left one. -/
theorem subproof_slice_of_split_lt {leaves : List α} {m lo len : ℕ} {anchored : Bool}
    (hne : m ≠ len) (htwo : 2 ≤ len) (hend : lo + len ≤ leaves.length) (hm : split len < m) :
    subproof scheme m (slice leaves lo len) anchored =
      subproof scheme (m - split len) (slice leaves (lo + split len) (len - split len)) false ++
        [mth scheme (slice leaves lo (split len))] := by
  have hlength : (slice leaves lo len).length = len := by
    rw [length_slice]
    omega
  rw [subproof_of_split_lt scheme (by rwa [hlength]) (by omega) (by rwa [hlength]), hlength,
    take_slice (split_lt htwo).le, drop_slice]

theorem subproof_of_lt_two {m : ℕ} {leaves : List α} {anchored : Bool}
    (hne : m ≠ leaves.length) (hlen : ¬ 2 ≤ leaves.length) :
    subproof scheme m leaves anchored = [] := by
  rw [subproof.eq_def, if_neg hne, if_neg hlen]

theorem subproof_ne_nil {m : ℕ} {leaves : List α} {anchored : Bool}
    (hne : m ≠ leaves.length) (hlen : 2 ≤ leaves.length) :
    subproof scheme m leaves anchored ≠ [] := by
  rcases Nat.lt_or_ge (split leaves.length) m with hright | hleft
  · rw [subproof_of_split_lt scheme hne hlen hright]
    simp
  · rw [subproof_of_le_split scheme hne hlen hleft]
    simp

theorem proof_zero (leaves : List α) : proof scheme 0 leaves = [] := by
  simp [proof]

theorem proof_self (leaves : List α) : proof scheme leaves.length leaves = [] := by
  simp [proof, subproof_self]

/-- When the old size is a power of two the anchored recursion never leaves the
left spine, and omits exactly the old root. -/
theorem subproof_anchored_of_pow {e : ℕ} {leaves : List α} (hm : 2 ^ e ≤ leaves.length) :
    mth scheme (leaves.take (2 ^ e)) :: subproof scheme (2 ^ e) leaves true =
      subproof scheme (2 ^ e) leaves false := by
  induction hn : leaves.length using Nat.strong_induction_on generalizing leaves with
  | _ n ih =>
      subst hn
      have hpos : 0 < 2 ^ e := Nat.two_pow_pos e
      by_cases hself : 2 ^ e = leaves.length
      · rw [hself, subproof_self, subproof_self, List.take_length]
        rfl
      · have htwo : 2 ≤ leaves.length := by omega
        obtain ⟨k, hk, hlow, hhigh⟩ := exists_split htwo
        have hek : 2 ^ e ≤ split leaves.length := by
          rw [hk]
          refine Nat.pow_le_pow_right (by omega) ?_
          have hlt : 2 ^ e < 2 ^ (k + 1) := by omega
          exact Nat.lt_succ_iff.mp ((Nat.pow_lt_pow_iff_right (by omega)).mp hlt)
        have hlen : (leaves.take (split leaves.length)).length = split leaves.length := by
          rw [List.length_take]
          omega
        have hsub := ih _ (by omega) (hek.trans_eq hlen.symm) rfl
        rw [List.take_take, Nat.min_eq_left hek] at hsub
        rw [subproof_of_le_split scheme hself htwo hek,
          subproof_of_le_split scheme hself htwo hek, ← hsub]
        rfl

/-- When the old size is no power of two the anchor is lost on the first step
to the right, before it can save a node. -/
theorem subproof_anchored_of_not_pow {m : ℕ} {leaves : List α}
    (hpow : ¬ m.isPowerOfTwo) (hlt : m < leaves.length) :
    subproof scheme m leaves true = subproof scheme m leaves false := by
  induction hn : leaves.length using Nat.strong_induction_on generalizing leaves with
  | _ n ih =>
      subst hn
      by_cases htwo : 2 ≤ leaves.length
      · obtain ⟨k, hk, hlow, -⟩ := exists_split htwo
        rcases Nat.lt_or_ge (split leaves.length) m with hright | hleft
        · rw [subproof_of_split_lt scheme hlt.ne htwo hright,
            subproof_of_split_lt scheme hlt.ne htwo hright]
        · have hne : m ≠ split leaves.length := fun heq => hpow ⟨k, heq.trans hk⟩
          have hlen : (leaves.take (split leaves.length)).length = split leaves.length := by
            rw [List.length_take]
            omega
          rw [subproof_of_le_split scheme hlt.ne htwo hleft,
            subproof_of_le_split scheme hlt.ne htwo hleft,
            ih _ (by omega) (by omega) rfl]
      · rw [subproof_of_lt_two scheme hlt.ne htwo, subproof_of_lt_two scheme hlt.ne htwo]

end Generator

/-! ## The verifier -/

/-- The state of the verification loop: the index of the last old leaf and of
the last new leaf, shifted to the current level, and the two rebuilt hashes. -/
structure VerifierState (β : Type v) where
  fn : ℕ
  sn : ℕ
  fr : β
  sr : β

/-- Shift both indices until the low bit of the first is clear. -/
def skipOnes (fn sn : ℕ) : ℕ × ℕ :=
  if fn % 2 = 1 then skipOnes (fn / 2) (sn / 2) else (fn, sn)
termination_by fn
decreasing_by omega

/-- Shift both indices until the low bit of the first is set or it is zero. -/
def skipZeros (fn sn : ℕ) : ℕ × ℕ :=
  if fn % 2 = 0 ∧ fn ≠ 0 then skipZeros (fn / 2) (sn / 2) else (fn, sn)
termination_by fn
decreasing_by omega

section Verifier

variable (scheme : HashScheme α β)

/-- One round of the loop on the next proof node. -/
def verifyStep (state : VerifierState β) (next : β) : Option (VerifierState β) :=
  if state.sn = 0 then none
  else if state.fn % 2 = 1 ∨ state.fn = state.sn then
    let skipped := skipZeros state.fn state.sn
    some
      { fn := skipped.1 / 2
        sn := skipped.2 / 2
        fr := scheme.node next state.fr
        sr := scheme.node next state.sr }
  else
    some
      { fn := state.fn / 2
        sn := state.sn / 2
        fr := state.fr
        sr := scheme.node state.sr next }

/-- The loop over a whole proof: the old root is put in front of it when the old
size is a power of two, the first node seeds both hashes, and the rest are
consumed one by one. -/
def rebuildRoots (m : ℕ) (oldRoot : β) (n : ℕ) (nodes : List β) :
    Option (VerifierState β) :=
  match if m.isPowerOfTwo then oldRoot :: nodes else nodes with
  | [] => none
  | seed :: rest =>
    let start := skipOnes (m - 1) (n - 1)
    rest.foldlM (verifyStep scheme) { fn := start.1, sn := start.2, fr := seed, sr := seed }

/-- The standard's consistency verification: rebuild both roots, compare them,
and check that no level is left over. Equal sizes need the empty proof and
equal roots, and the empty prefix needs the empty proof only. -/
def verifyConsistency [DecidableEq β] (m : ℕ) (oldRoot : β) (n : ℕ) (newRoot : β)
    (nodes : List β) : Bool :=
  if m = n then nodes.isEmpty && decide (oldRoot = newRoot)
  else if m = 0 then nodes.isEmpty
  else if n < m ∨ nodes = [] then false
  else
    match rebuildRoots scheme m oldRoot n nodes with
    | none => false
    | some final =>
      decide (final.fr = oldRoot) && decide (final.sr = newRoot) && decide (final.sn = 0)

end Verifier

section Ladder

variable (scheme : HashScheme α β)

/-- The siblings the loop consumes from `level` up: the left sibling where the
old index is odd, the right sibling where the new tree has one, none where both
indices are the same even number. -/
def ladder (leaves : List α) (level fn sn : ℕ) : List β :=
  if sn = 0 then []
  else if fn % 2 = 1 then
    nodeAt scheme leaves level (fn - 1) :: ladder leaves (level + 1) (fn / 2) (sn / 2)
  else if fn < sn then
    nodeAt scheme leaves level (fn + 1) :: ladder leaves (level + 1) (fn / 2) (sn / 2)
  else ladder leaves (level + 1) (fn / 2) (sn / 2)
termination_by sn
decreasing_by all_goals omega

@[simp]
theorem ladder_zero (leaves : List α) (level fn : ℕ) :
    ladder scheme leaves level fn 0 = [] := by
  rw [ladder.eq_def, if_pos rfl]

theorem ladder_odd {leaves : List α} {level fn sn : ℕ} (hsn : sn ≠ 0) (hodd : fn % 2 = 1) :
    ladder scheme leaves level fn sn =
      nodeAt scheme leaves level (fn - 1) ::
        ladder scheme leaves (level + 1) (fn / 2) (sn / 2) := by
  rw [ladder.eq_def, if_neg hsn, if_pos hodd]

theorem ladder_even {leaves : List α} {level fn sn : ℕ} (heven : fn % 2 = 0) (hlt : fn < sn) :
    ladder scheme leaves level fn sn =
      nodeAt scheme leaves level (fn + 1) ::
        ladder scheme leaves (level + 1) (fn / 2) (sn / 2) := by
  rw [ladder.eq_def, if_neg (by omega), if_neg (by omega), if_pos hlt]

theorem ladder_skip {leaves : List α} {level fn : ℕ} (heven : fn % 2 = 0) :
    ladder scheme leaves level fn fn =
      ladder scheme leaves (level + 1) (fn / 2) (fn / 2) := by
  by_cases hzero : fn = 0
  · subst hzero
    simp
  · rw [ladder.eq_def, if_neg hzero, if_neg (by omega), if_neg (by omega)]

theorem ladder_self_ne_nil (leaves : List α) {level fn : ℕ} (hfn : fn ≠ 0) :
    ladder scheme leaves level fn fn ≠ [] := by
  induction fn using Nat.strong_induction_on generalizing level with
  | _ fn ih =>
      rcases Nat.mod_two_eq_zero_or_one fn with heven | hodd
      · rw [ladder_skip scheme heven]
        exact ih (fn / 2) (by omega) (by omega)
      · rw [ladder_odd scheme hfn hodd]
        exact List.cons_ne_nil _ _

/-- Descending to the left half: the ladder of the whole tree is the ladder of
its left half, then the right half as one node. -/
theorem ladder_left {leaves : List α} {e j level fn sn : ℕ} (hlevel : level + j = e)
    (hlow : 2 ^ e < leaves.length) (hhigh : leaves.length ≤ 2 ^ (e + 1))
    (hfn : fn < 2 ^ j) (hsn : sn = (leaves.length - 1) / 2 ^ level) :
    ladder scheme leaves level fn sn =
      ladder scheme (leaves.take (2 ^ e)) level fn (2 ^ j - 1) ++
        [mth scheme (leaves.drop (2 ^ e))] := by
  induction j generalizing level fn sn with
  | zero =>
      obtain rfl : level = e := by omega
      obtain rfl : fn = 0 := by simpa using hfn
      obtain rfl : sn = 1 := by
        rw [hsn]
        exact Nat.div_eq_of_lt_le (by omega) (by rw [pow_succ] at hhigh; omega)
      have hnode : nodeAt scheme leaves level 1 = mth scheme (leaves.drop (2 ^ level)) := by
        have hshift := nodeAt_drop scheme leaves level 0 1
        rw [Nat.one_mul] at hshift
        rw [← hshift]
        exact nodeAt_root scheme (by rw [List.length_drop]; rw [pow_succ] at hhigh; omega)
      rw [ladder_even scheme (by omega) (by omega), hnode]
      simp
  | succ j ih =>
      have hwidth : 2 ^ e = 2 ^ (j + 1) * 2 ^ level := by rw [← pow_add]; congr 1; omega
      have hpow : 2 ^ (j + 1) = 2 * 2 ^ j := by ring
      have hpos : 0 < 2 ^ j := Nat.two_pow_pos j
      have hge : 2 ^ (j + 1) ≤ sn := by
        rw [hsn, Nat.le_div_iff_mul_le (Nat.two_pow_pos level), ← hwidth]
        omega
      have hlast : sn / 2 = (leaves.length - 1) / 2 ^ (level + 1) := by
        rw [hsn, Nat.div_div_eq_div_mul, ← pow_succ]
      have hfn' : fn / 2 < 2 ^ j := by omega
      have hnext := ih (by omega) hfn' hlast
      have hhalf : (2 ^ (j + 1) - 1) / 2 = 2 ^ j - 1 := by omega
      have hinside : ∀ index, index + 1 ≤ 2 ^ (j + 1) →
          nodeAt scheme (leaves.take (2 ^ e)) level index = nodeAt scheme leaves level index :=
        fun index hindex => nodeAt_take scheme (by
          rw [hwidth]
          exact Nat.mul_le_mul_right _ hindex)
      rcases Nat.mod_two_eq_zero_or_one fn with heven | hodd
      · rw [ladder_even scheme heven (by omega), ladder_even scheme heven (by omega), hhalf,
          hinside (fn + 1) (by omega), hnext]
        rfl
      · rw [ladder_odd scheme (by omega) hodd, ladder_odd scheme (by omega) hodd, hhalf,
          hinside (fn - 1) (by omega), hnext]
        rfl

/-- Descending to the right half: the ladder of the whole tree is the ladder of
its right half with the indices moved past the left half, then the left half as
one node. -/
theorem ladder_right {leaves : List α} {e j level fn sn : ℕ} (hlevel : level + j = e)
    (hlow : 2 ^ e < leaves.length) (hfn : fn ≤ sn) (hsn : sn < 2 ^ j) :
    ladder scheme leaves level (2 ^ j + fn) (2 ^ j + sn) =
      ladder scheme (leaves.drop (2 ^ e)) level fn sn ++
        [mth scheme (leaves.take (2 ^ e))] := by
  induction j generalizing level fn sn with
  | zero =>
      obtain rfl : level = e := by omega
      obtain rfl : sn = 0 := by simpa using hsn
      obtain rfl : fn = 0 := by omega
      have hnode : nodeAt scheme leaves level 0 = mth scheme (leaves.take (2 ^ level)) := by
        rw [nodeAt, Nat.zero_mul, slice_zero_left]
      rw [ladder_odd scheme (by simp) (by simp)]
      simp [hnode]
  | succ j ih =>
      have hwidth : 2 ^ e = 2 ^ (j + 1) * 2 ^ level := by rw [← pow_add]; congr 1; omega
      have hpow : 2 ^ (j + 1) = 2 * 2 ^ j := by ring
      have hpos : 0 < 2 ^ j := Nat.two_pow_pos j
      have hfn' : (2 ^ (j + 1) + fn) / 2 = 2 ^ j + fn / 2 := by omega
      have hsn' : (2 ^ (j + 1) + sn) / 2 = 2 ^ j + sn / 2 := by omega
      have hhalf : fn / 2 ≤ sn / 2 := by omega
      have hbelow : sn / 2 < 2 ^ j := by omega
      have hnext := ih (show level + 1 + j = e by omega) hhalf hbelow
      have hshift : ∀ index, nodeAt scheme (leaves.drop (2 ^ e)) level index =
          nodeAt scheme leaves level (2 ^ (j + 1) + index) := fun index => by
        rw [hwidth, nodeAt_drop]
      rcases Nat.mod_two_eq_zero_or_one fn with heven | hodd
      · rcases Nat.lt_or_ge fn sn with hlt | hge
        · rw [ladder_even scheme (by omega) (by omega), ladder_even scheme heven hlt, hfn', hsn',
            hnext, hshift, Nat.add_assoc]
          rfl
        · obtain rfl : fn = sn := by omega
          rw [ladder_skip scheme (by omega), ladder_skip scheme heven, hfn', hnext]
      · have hindex : 2 ^ (j + 1) + fn - 1 = 2 ^ (j + 1) + (fn - 1) := by omega
        rw [ladder_odd scheme (by omega) (by omega), ladder_odd scheme (by omega) hodd, hfn', hsn',
          hnext, hshift, hindex]
        rfl

/-- An odd divisor of a power of two is one. -/
theorem eq_zero_of_isPowerOfTwo {f t : ℕ} (heven : f % 2 = 0)
    (hpower : ((f + 1) * 2 ^ t).isPowerOfTwo) : f = 0 := by
  obtain ⟨e, he⟩ := hpower
  have hdvd : f + 1 ∣ 2 ^ e := ⟨2 ^ t, he.symm⟩
  obtain ⟨i, -, hi⟩ := (Nat.dvd_prime_pow Nat.prime_two).mp hdvd
  cases i with
  | zero => omega
  | succ i =>
      rw [pow_succ] at hi
      omega

/-- A multiple of a power of two that lies strictly within an interval between two
powers is one of a smaller power. -/
theorem lt_of_between {g t e : ℕ} (hlow : 2 ^ e < g * 2 ^ t) (hhigh : g * 2 ^ t < 2 ^ (e + 1)) :
    t < e := by
  by_contra hcon
  obtain ⟨d, hd⟩ := Nat.exists_eq_add_of_le (Nat.le_of_not_lt hcon)
  have hmul : g * 2 ^ t = g * 2 ^ d * 2 ^ e := by
    rw [hd, pow_add]
    ring
  rw [hmul] at hlow hhigh
  have hone : 1 < g * 2 ^ d := by
    refine lt_of_mul_lt_mul_right (a := 2 ^ e) ?_ (Nat.zero_le _)
    rwa [Nat.one_mul]
  have htwo : g * 2 ^ d < 2 := by
    refine lt_of_mul_lt_mul_right (a := 2 ^ e) ?_ (Nat.zero_le _)
    rwa [← pow_succ']
  omega

/-- The last node of a complete tree. -/
theorem last_of_pow (t j : ℕ) : (2 ^ (t + j) - 1) / 2 ^ t = 2 ^ j - 1 := by
  have htpos : 0 < 2 ^ t := Nat.two_pow_pos t
  have hjpos : 0 < 2 ^ j := Nat.two_pow_pos j
  have hwidth : 2 ^ (t + j) = 2 ^ j * 2 ^ t := by rw [Nat.add_comm, pow_add]
  refine Nat.div_eq_of_lt_le ?_ ?_
  · rw [hwidth, Nat.sub_mul]
    omega
  · rw [hwidth, Nat.sub_add_cancel hjpos]
    have := Nat.mul_pos hjpos htpos
    omega

/-- The last node of a tree, counted from its right half on. -/
theorem last_of_right {n t j : ℕ} (hlow : 2 ^ (t + j) < n) :
    (n - 1) / 2 ^ t = 2 ^ j + (n - 2 ^ (t + j) - 1) / 2 ^ t := by
  have hwidth : 2 ^ (t + j) = 2 ^ j * 2 ^ t := by rw [Nat.add_comm, pow_add]
  have hnum : n - 1 = n - 2 ^ (t + j) - 1 + 2 ^ j * 2 ^ t := by omega
  rw [hnum, Nat.add_mul_div_right _ _ (Nat.two_pow_pos t), Nat.add_comm]

/-- An old boundary right of the split is a boundary of the right half, whose last
node it does not pass. -/
theorem exists_of_right {f t e n : ℕ} (heven : f % 2 = 0) (hright : 2 ^ e < (f + 1) * 2 ^ t)
    (hn : (f + 1) * 2 ^ t < n) (hhigh : n ≤ 2 ^ (e + 1)) :
    ∃ j f', e = t + j + 1 ∧ f = 2 ^ (j + 1) + f' ∧ f' % 2 = 0 ∧
      (f + 1) * 2 ^ t = 2 ^ e + (f' + 1) * 2 ^ t ∧
      f' ≤ (n - 2 ^ e - 1) / 2 ^ t ∧ (n - 2 ^ e - 1) / 2 ^ t < 2 ^ (j + 1) := by
  have htpos : 0 < 2 ^ t := Nat.two_pow_pos t
  obtain ⟨j, rfl⟩ := Nat.exists_eq_add_of_lt (lt_of_between hright (by omega))
  have hwidth : 2 ^ (t + j + 1) = 2 ^ (j + 1) * 2 ^ t := by
    rw [Nat.add_assoc, Nat.add_comm, pow_add]
  have hjpow : 2 ^ (j + 1) = 2 * 2 ^ j := by ring
  have hfge : 2 ^ (j + 1) < f + 1 := by
    rw [hwidth] at hright
    exact lt_of_mul_lt_mul_right hright (Nat.zero_le _)
  obtain ⟨f', rfl⟩ := Nat.exists_eq_add_of_le (Nat.lt_succ_iff.mp hfge)
  have hsum : (2 ^ (j + 1) + f' + 1) * 2 ^ t = 2 ^ (t + j + 1) + (f' + 1) * 2 ^ t := by
    rw [hwidth]
    ring
  have hpast : (f' + 1) * 2 ^ t = f' * 2 ^ t + 2 ^ t := by ring
  have hpow : 2 ^ (t + j + 1 + 1) = 2 * 2 ^ (t + j + 1) := by ring
  refine ⟨j, f', rfl, rfl, by omega, hsum, ?_, ?_⟩
  · rw [Nat.le_div_iff_mul_le htpos]
    omega
  · rw [Nat.div_lt_iff_lt_mul htpos, ← hwidth]
    omega

/-- The unanchored recursion lists the last complete old subtree and then the
ladder above it. The old size `m` is `(f + 1) * 2 ^ t` with `f` even. -/
theorem subproof_eq_ladder {leaves : List α} {f t : ℕ} (heven : f % 2 = 0)
    (hm : (f + 1) * 2 ^ t ≤ leaves.length)
    (hself : (f + 1) * 2 ^ t = leaves.length → leaves.length.isPowerOfTwo) :
    subproof scheme ((f + 1) * 2 ^ t) leaves false =
      nodeAt scheme leaves t f ::
        ladder scheme leaves t f ((leaves.length - 1) / 2 ^ t) := by
  induction hn : leaves.length using Nat.strong_induction_on generalizing leaves f with
  | _ n ih =>
      subst hn
      have htpos : 0 < 2 ^ t := Nat.two_pow_pos t
      have hmpos : 2 ^ t ≤ (f + 1) * 2 ^ t := Nat.le_mul_of_pos_left _ (by omega)
      by_cases hend : (f + 1) * 2 ^ t = leaves.length
      · obtain rfl : f = 0 := eq_zero_of_isPowerOfTwo heven (hend ▸ hself hend)
        rw [Nat.zero_add, Nat.one_mul] at hend
        have hlast : (leaves.length - 1) / 2 ^ t = 0 := Nat.div_eq_of_lt (by omega)
        rw [hlast, ladder_zero, Nat.zero_add, Nat.one_mul, hend, subproof_self,
          nodeAt_root scheme (by omega)]
        rfl
      · have htwo : 2 ≤ leaves.length := by omega
        obtain ⟨e, hk, hlow, hhigh⟩ := exists_split htwo
        rcases Nat.lt_or_ge (split leaves.length) ((f + 1) * 2 ^ t) with hright | hleft
        · -- The old boundary lies right of the split.
          rw [hk] at hright
          obtain ⟨j, f', rfl, rfl, heven', hsum, hle, hbelow⟩ :=
            exists_of_right heven hright (by omega) hhigh
          have hlen : (leaves.drop (2 ^ (t + j + 1))).length =
              leaves.length - 2 ^ (t + j + 1) := by
            rw [List.length_drop]
          have hsub : (2 ^ (j + 1) + f' + 1) * 2 ^ t - 2 ^ (t + j + 1) = (f' + 1) * 2 ^ t := by
            omega
          have hwidth : 2 ^ (t + j + 1) = 2 ^ (j + 1) * 2 ^ t := by
            rw [Nat.add_assoc, Nat.add_comm, pow_add]
          have hrest : (f' + 1) * 2 ^ t < (leaves.drop (2 ^ (t + j + 1))).length := by omega
          have hrec := ih _ (by omega) heven' hrest.le (fun hself => absurd hself hrest.ne) rfl
          have hquot : (leaves.length - 1) / 2 ^ t =
              2 ^ (j + 1) + (leaves.length - 2 ^ (t + j + 1) - 1) / 2 ^ t := last_of_right hlow
          rw [subproof_of_split_lt scheme hend htwo (by omega), hk, hsub, hrec, hquot,
            ladder_right scheme (by omega) hlow hle hbelow, hlen, hwidth, nodeAt_drop]
          rfl
        · -- The old tree lies within the left half.
          rw [hk] at hleft
          have hte : t ≤ e := (Nat.pow_le_pow_iff_right (by omega)).mp (hmpos.trans hleft)
          obtain ⟨j, rfl⟩ := Nat.exists_eq_add_of_le hte
          have hwidth : 2 ^ (t + j) = 2 ^ j * 2 ^ t := by rw [Nat.add_comm, pow_add]
          have hlen : (leaves.take (2 ^ (t + j))).length = 2 ^ (t + j) := by
            rw [List.length_take]
            omega
          have hfn : f < 2 ^ j := by
            rw [hwidth] at hleft
            have := le_of_mul_le_mul_right hleft htpos
            omega
          have hrec := ih _ (by omega) heven (hleft.trans_eq hlen.symm)
            (fun _ => ⟨t + j, hlen⟩) rfl
          rw [subproof_of_le_split scheme hend htwo (by omega), hk, hrec, hlen, last_of_pow,
            ladder_left scheme rfl hlow hhigh hfn rfl, nodeAt_take scheme hleft]
          rfl

end Ladder

/-! ## Completeness -/

section Completeness

variable (scheme : HashScheme α β)

/-- Where both indices are the same even number the loop skips the level, so it
may as well start one level up. -/
theorem verifyStep_skip {fn : ℕ} (heven : fn % 2 = 0) (hfn : fn ≠ 0) (fr sr next : β) :
    verifyStep scheme { fn := fn, sn := fn, fr := fr, sr := sr } next =
      verifyStep scheme { fn := fn / 2, sn := fn / 2, fr := fr, sr := sr } next := by
  have hhalf : fn / 2 ≠ 0 := by omega
  have hskip : skipZeros fn fn = skipZeros (fn / 2) (fn / 2) := by
    rw [skipZeros.eq_def, if_pos ⟨heven, hfn⟩]
  simp only [verifyStep, if_neg hfn, if_neg hhalf, or_true, if_true, hskip]

theorem foldlM_verifyStep_skip {fn : ℕ} (heven : fn % 2 = 0) (hfn : fn ≠ 0) (fr sr : β)
    {nodes : List β} (hnodes : nodes ≠ []) :
    nodes.foldlM (verifyStep scheme) { fn := fn, sn := fn, fr := fr, sr := sr } =
      nodes.foldlM (verifyStep scheme) { fn := fn / 2, sn := fn / 2, fr := fr, sr := sr } := by
  cases nodes with
  | nil => exact absurd rfl hnodes
  | cons next rest => rw [List.foldlM_cons, List.foldlM_cons, verifyStep_skip scheme heven hfn]

/-- The node of a level that the last of `k` leaves falls in. -/
theorem bounds_of_last {k level i : ℕ} (hk : 0 < k) (hi : i = (k - 1) / 2 ^ level) :
    i * 2 ^ level < k ∧ k ≤ (i + 1) * 2 ^ level := by
  have hbelow := Nat.div_mul_le_self (k - 1) (2 ^ level)
  have habove := Nat.lt_div_mul_add (Nat.two_pow_pos level) (a := k - 1)
  rw [← hi] at hbelow habove
  rw [Nat.add_mul, Nat.one_mul]
  omega

/-- A left child whose right sibling the new tree has. -/
theorem verifyStep_even {fn sn : ℕ} (heven : fn % 2 = 0) (hlt : fn < sn) (fr sr next : β) :
    verifyStep scheme { fn := fn, sn := sn, fr := fr, sr := sr } next =
      some { fn := fn / 2, sn := sn / 2, fr := fr, sr := scheme.node sr next } := by
  have hzero : sn ≠ 0 := by omega
  simp [verifyStep, hzero, heven, hlt.ne]

/-- A right child, in the old tree and in the new one. -/
theorem verifyStep_odd {fn sn : ℕ} (hodd : fn % 2 = 1) (hle : fn ≤ sn) (fr sr next : β) :
    verifyStep scheme { fn := fn, sn := sn, fr := fr, sr := sr } next =
      some { fn := fn / 2, sn := sn / 2, fr := scheme.node next fr,
             sr := scheme.node next sr } := by
  have hzero : sn ≠ 0 := by omega
  have hskip : skipZeros fn sn = (fn, sn) := by
    rw [skipZeros.eq_def, if_neg (by omega)]
  simp [verifyStep, hzero, hodd, hskip]

/-- The loop on the ladder from any level up rebuilds both roots, given that it
holds the old and the new hash of the node the old boundary falls in. -/
theorem foldlM_ladder {leaves : List α} {m : ℕ} (hm : 0 < m) (hmn : m ≤ leaves.length)
    {level fn sn : ℕ} (hfn : fn = (m - 1) / 2 ^ level)
    (hsn : sn = (leaves.length - 1) / 2 ^ level) {fr sr : β}
    (hfr : fr = nodeAt scheme (leaves.take m) level fn)
    (hsr : sr = nodeAt scheme leaves level fn) :
    (ladder scheme leaves level fn sn).foldlM (verifyStep scheme)
        { fn := fn, sn := sn, fr := fr, sr := sr } =
      some { fn := 0, sn := 0, fr := mth scheme (leaves.take m), sr := mth scheme leaves } := by
  have hlen : (leaves.take m).length = m := by
    rw [List.length_take]
    omega
  induction hs : sn using Nat.strong_induction_on generalizing level fn sn fr sr with
  | _ n ih =>
      subst hs
      have hle : fn ≤ sn := by
        rw [hfn, hsn]
        exact Nat.div_le_div_right (by omega)
      have hfn' : fn / 2 = (m - 1) / 2 ^ (level + 1) := by
        rw [hfn, Nat.div_div_eq_div_mul, ← pow_succ]
      have hsn' : sn / 2 = (leaves.length - 1) / 2 ^ (level + 1) := by
        rw [hsn, Nat.div_div_eq_div_mul, ← pow_succ]
      have hold := bounds_of_last hm hfn
      have hnew := bounds_of_last (hm.trans_le hmn) hsn
      by_cases hzero : sn = 0
      · subst hzero
        obtain rfl : fn = 0 := by omega
        rw [ladder_zero, hfr, hsr, nodeAt_root scheme (by omega), nodeAt_root scheme (by omega)]
        rfl
      · rcases Nat.mod_two_eq_zero_or_one fn with heven | hodd
        · have hdouble : 2 * (fn / 2) = fn := by omega
          have hfrUp : fr = nodeAt scheme (leaves.take m) (level + 1) (fn / 2) := by
            rw [nodeAt_succ_of_le scheme (by rw [hdouble]; omega), hdouble, hfr]
          rcases Nat.lt_or_ge fn sn with hlt | hge
          · -- The new tree has a right sibling at this level.
            have hreach : (fn + 1) * 2 ^ level ≤ sn * 2 ^ level := Nat.mul_le_mul_right _ hlt
            have hsrUp : scheme.node sr (nodeAt scheme leaves level (fn + 1)) =
                nodeAt scheme leaves (level + 1) (fn / 2) := by
              rw [nodeAt_succ scheme (by rw [hdouble]; omega), hdouble, ← hsr]
            rw [ladder_even scheme heven hlt, List.foldlM_cons, verifyStep_even scheme heven hlt]
            exact ih (sn / 2) (by omega) hfn' hsn' hfrUp hsrUp rfl
          · -- The old boundary falls in the last node: this level has no sibling.
            obtain rfl : fn = sn := by omega
            have hsrUp : sr = nodeAt scheme leaves (level + 1) (fn / 2) := by
              rw [nodeAt_succ_of_le scheme (by rw [hdouble]; omega), hdouble, hsr]
            rw [ladder_skip scheme heven, foldlM_verifyStep_skip scheme heven hzero _ _
              (ladder_self_ne_nil scheme leaves (by omega))]
            exact ih (fn / 2) (by omega) hfn' hsn' hfrUp hsrUp rfl
        · -- The node is a right child, in the old tree and in the new one.
          have hdouble : 2 * (fn / 2) = fn - 1 := by omega
          have hdouble' : 2 * (fn / 2) + 1 = fn := by omega
          have hreach : fn * 2 ^ level ≤ sn * 2 ^ level := Nat.mul_le_mul_right _ hle
          have hsibling : nodeAt scheme (leaves.take m) level (fn - 1) =
              nodeAt scheme leaves level (fn - 1) :=
            nodeAt_take scheme (by rw [Nat.sub_add_cancel (by omega)]; omega)
          have hfrUp : scheme.node (nodeAt scheme leaves level (fn - 1)) fr =
              nodeAt scheme (leaves.take m) (level + 1) (fn / 2) := by
            rw [nodeAt_succ scheme (by rw [hdouble', hlen]; omega), hdouble', hdouble, hfr,
              hsibling]
          have hsrUp : scheme.node (nodeAt scheme leaves level (fn - 1)) sr =
              nodeAt scheme leaves (level + 1) (fn / 2) := by
            rw [nodeAt_succ scheme (by rw [hdouble']; omega), hdouble', hdouble, hsr]
          rw [ladder_odd scheme hzero hodd, List.foldlM_cons, verifyStep_odd scheme hodd hle]
          exact ih (sn / 2) (by omega) hfn' hsn' hfrUp hsrUp rfl

theorem skipOnes_eq {f t : ℕ} (heven : f % 2 = 0) (last : ℕ) :
    skipOnes ((f + 1) * 2 ^ t - 1) last = (f, last / 2 ^ t) := by
  induction t generalizing last with
  | zero =>
      rw [skipOnes.eq_def, if_neg (by simp [heven])]
      simp
  | succ t ih =>
      have hpos : 0 < (f + 1) * 2 ^ t := Nat.mul_pos (by omega) (Nat.two_pow_pos t)
      have hdouble : (f + 1) * 2 ^ (t + 1) = 2 * ((f + 1) * 2 ^ t) := by ring
      have hhalf : ((f + 1) * 2 ^ (t + 1) - 1) / 2 = (f + 1) * 2 ^ t - 1 := by omega
      rw [skipOnes.eq_def, if_pos (by omega), hhalf, ih, Nat.div_div_eq_div_mul, ← pow_succ']

/-- Every positive size is an odd number of complete subtrees. -/
theorem exists_trailing {m : ℕ} (hm : 0 < m) : ∃ f t, f % 2 = 0 ∧ m = (f + 1) * 2 ^ t := by
  induction m using Nat.strong_induction_on with
  | _ m ih =>
      rcases Nat.mod_two_eq_zero_or_one m with heven | hodd
      · obtain ⟨f, t, hf, hhalf⟩ := ih (m / 2) (by omega) (by omega)
        refine ⟨f, t + 1, hf, ?_⟩
        rw [pow_succ, ← Nat.mul_assoc, ← hhalf]
        omega
      · exact ⟨m - 1, 0, by omega, by rw [pow_zero, Nat.mul_one]; omega⟩

/-- The loop on a generated proof rebuilds the root of the prefix and the root
of the whole list. -/
theorem rebuildRoots_proof {leaves : List α} {m : ℕ} (hm : 0 < m) (hlt : m < leaves.length) :
    rebuildRoots scheme m (mth scheme (leaves.take m)) leaves.length (proof scheme m leaves) =
      some { fn := 0, sn := 0, fr := mth scheme (leaves.take m), sr := mth scheme leaves } := by
  have hnodes : (if m.isPowerOfTwo then
        mth scheme (leaves.take m) :: proof scheme m leaves else proof scheme m leaves) =
      subproof scheme m leaves false := by
    rw [proof, if_neg hm.ne']
    split
    · next hpow =>
      obtain ⟨e, rfl⟩ := hpow
      exact subproof_anchored_of_pow scheme hlt.le
    · next hpow => exact subproof_anchored_of_not_pow scheme hpow hlt
  obtain ⟨f, t, heven, hmeq⟩ := exists_trailing hm
  have hladder := subproof_eq_ladder scheme heven (hmeq ▸ hlt.le)
    (fun hself => absurd (hmeq.trans hself) hlt.ne)
  rw [← hmeq] at hladder
  have hpos : 0 < 2 ^ t := Nat.two_pow_pos t
  have hfn : f = (m - 1) / 2 ^ t := by
    symm
    refine Nat.div_eq_of_lt_le ?_ ?_
    · rw [hmeq, Nat.add_mul, Nat.one_mul]
      omega
    · omega
  have hseed : nodeAt scheme leaves t f = nodeAt scheme (leaves.take m) t f :=
    (nodeAt_take scheme (by omega)).symm
  have hstart : skipOnes (m - 1) (leaves.length - 1) = (f, (leaves.length - 1) / 2 ^ t) := by
    rw [hmeq]
    exact skipOnes_eq heven _
  rw [rebuildRoots, hnodes, hladder]
  simp only [hstart]
  exact foldlM_ladder scheme hm hlt.le hfn rfl hseed rfl

/-- The verifier accepts the generated proof between the root of any nonempty
prefix and the root of the whole list. -/
theorem verifyConsistency_proof [DecidableEq β] {leaves : List α} {m : ℕ} (hm : 0 < m)
    (hmn : m ≤ leaves.length) :
    verifyConsistency scheme m (mth scheme (leaves.take m)) leaves.length (mth scheme leaves)
      (proof scheme m leaves) = true := by
  rcases hmn.eq_or_lt with rfl | hlt
  · rw [verifyConsistency, if_pos rfl, proof_self, List.take_length]
    simp
  · have hrebuilt := rebuildRoots_proof scheme hm hlt
    have hne : proof scheme m leaves ≠ [] := by
      rw [proof, if_neg hm.ne']
      exact subproof_ne_nil scheme hlt.ne (by omega)
    rw [verifyConsistency, if_neg hlt.ne, if_neg hm.ne', if_neg (by simp [hne]; omega), hrebuilt]
    simp

end Completeness

end Rfc6962
