/-
# Binding

What the hashes commit to when they have no collisions: leaf and node hashes are
injective and never meet. A tree hash then has one list of leaves, an audit path
folds one leaf to the root, and a generated consistency proof is accepted
against one old root only.
-/

import UnidppLog.Rfc6962.Inclusion
import UnidppLog.Rfc6962.Consistency

namespace Rfc6962

universe u v

variable {α : Type u} {β : Type v} {scheme : HashScheme α β}

/-- Leaf hash and node hash are injective, and no leaf hash is a node hash. -/
structure HashScheme.Injective (scheme : HashScheme α β) : Prop where
  leaf_inj : ∀ a b, scheme.leaf a = scheme.leaf b → a = b
  node_inj : ∀ l r l' r', scheme.node l r = scheme.node l' r' → l = l' ∧ r = r'
  leaf_ne_node : ∀ a l r, scheme.leaf a ≠ scheme.node l r

/-- Nonempty lists with one tree hash are one list, whatever their lengths. -/
theorem mth_injective (hinj : scheme.Injective) {leaves leaves' : List α} (hne : leaves ≠ [])
    (hne' : leaves' ≠ []) (heq : mth scheme leaves = mth scheme leaves') : leaves = leaves' := by
  induction hn : leaves.length using Nat.strong_induction_on generalizing leaves leaves' with
  | _ n ih =>
      subst hn
      have hpos := List.length_pos_iff.mpr hne
      have hpos' := List.length_pos_iff.mpr hne'
      rcases Nat.lt_or_ge leaves.length 2 with hone | htwo
      · obtain ⟨entry, rfl⟩ : ∃ entry, leaves = [entry] := List.length_eq_one_iff.mp (by omega)
        rcases Nat.lt_or_ge leaves'.length 2 with hone' | htwo'
        · obtain ⟨entry', rfl⟩ : ∃ entry', leaves' = [entry'] :=
            List.length_eq_one_iff.mp (by omega)
          rw [mth_singleton, mth_singleton] at heq
          rw [hinj.leaf_inj entry entry' heq]
        · rw [mth_singleton, mth_of_two_le scheme htwo'] at heq
          exact absurd heq (hinj.leaf_ne_node _ _ _)
      · rcases Nat.lt_or_ge leaves'.length 2 with hone' | htwo'
        · obtain ⟨entry', rfl⟩ : ∃ entry', leaves' = [entry'] :=
            List.length_eq_one_iff.mp (by omega)
          rw [mth_singleton, mth_of_two_le scheme htwo] at heq
          exact absurd heq.symm (hinj.leaf_ne_node _ _ _)
        · rw [mth_of_two_le scheme htwo, mth_of_two_le scheme htwo'] at heq
          obtain ⟨hleft, hright⟩ := hinj.node_inj _ _ _ _ heq
          have hsplit := split_pos leaves.length
          have hlt := split_lt htwo
          have hsplit' := split_pos leaves'.length
          have hlt' := split_lt htwo'
          have htake := ih (leaves.take (split leaves.length)).length
            (by rw [List.length_take]; omega)
            (List.ne_nil_of_length_pos (by rw [List.length_take]; omega))
            (List.ne_nil_of_length_pos (by rw [List.length_take]; omega)) hleft rfl
          have hdrop := ih (leaves.drop (split leaves.length)).length
            (by rw [List.length_drop]; omega)
            (List.ne_nil_of_length_pos (by rw [List.length_drop]; omega))
            (List.ne_nil_of_length_pos (by rw [List.length_drop]; omega)) hright rfl
          calc leaves = leaves.take (split leaves.length) ++ leaves.drop (split leaves.length) :=
                (List.take_append_drop _ _).symm
            _ = leaves' := by rw [htake, hdrop, List.take_append_drop]

theorem foldNode_injective (hinj : scheme.Injective) {a b : β} {next : PathNode β}
    (heq : foldNode scheme a next = foldNode scheme b next) : a = b := by
  obtain ⟨sibling, side⟩ := next
  cases side with
  | left => exact (hinj.node_inj _ _ _ _ heq).2
  | right => exact (hinj.node_inj _ _ _ _ heq).1

/-- A path folds different hashes to different roots. -/
theorem foldPath_injective (hinj : scheme.Injective) {a b : β} {nodes : List (PathNode β)}
    (heq : foldPath scheme a nodes = foldPath scheme b nodes) : a = b := by
  induction nodes generalizing a b with
  | nil => exact heq
  | cons next rest ih => exact foldNode_injective hinj (ih heq)

/-- The audit path of a leaf folds no other leaf to the root. -/
theorem foldPath_path_ne (hinj : scheme.Injective) {leaves : List α} {m : ℕ}
    (hm : m < leaves.length) {entry : α} (hne : leaves[m] ≠ entry) :
    foldPath scheme (scheme.leaf entry) (path scheme m leaves) ≠ mth scheme leaves := by
  rw [← foldPath_path scheme hm]
  intro heq
  exact hne (hinj.leaf_inj _ _ (foldPath_injective hinj heq)).symm

/-- Rounds on states with the same indices stay at the same indices, and the new
hashes they rebuild tell the states apart. -/
theorem verifyStep_injective (hinj : scheme.Injective) {state other next next' : VerifierState β}
    {node : β} (hfn : state.fn = other.fn) (hsn : state.sn = other.sn)
    (hnext : verifyStep scheme state node = some next)
    (hnext' : verifyStep scheme other node = some next') :
    next.fn = next'.fn ∧ next.sn = next'.sn ∧ (next.sr = next'.sr → state.sr = other.sr) := by
  rw [verifyStep] at hnext hnext'
  rw [← hfn, ← hsn] at hnext'
  split at hnext
  · simp at hnext
  · next hpos =>
    rw [if_neg hpos] at hnext'
    split at hnext
    · next hround =>
      rw [if_pos hround] at hnext'
      obtain rfl := Option.some.inj hnext
      obtain rfl := Option.some.inj hnext'
      exact ⟨rfl, rfl, fun heq => (hinj.node_inj _ _ _ _ heq).2⟩
    · next hround =>
      rw [if_neg hround] at hnext'
      obtain rfl := Option.some.inj hnext
      obtain rfl := Option.some.inj hnext'
      exact ⟨rfl, rfl, fun heq => (hinj.node_inj _ _ _ _ heq).1⟩

theorem foldlM_verifyStep_injective (hinj : scheme.Injective)
    {state other final final' : VerifierState β} {nodes : List β} (hfn : state.fn = other.fn)
    (hsn : state.sn = other.sn) (hrun : nodes.foldlM (verifyStep scheme) state = some final)
    (hrun' : nodes.foldlM (verifyStep scheme) other = some final') (heq : final.sr = final'.sr) :
    state.sr = other.sr := by
  induction nodes generalizing state other with
  | nil =>
      obtain rfl := Option.some.inj hrun
      obtain rfl := Option.some.inj hrun'
      exact heq
  | cons node rest ih =>
      rw [List.foldlM_cons] at hrun hrun'
      obtain ⟨next, hnext, hrest⟩ := Option.bind_eq_some_iff.mp hrun
      obtain ⟨next', hnext', hrest'⟩ := Option.bind_eq_some_iff.mp hrun'
      obtain ⟨hfn', hsn', hsr⟩ := verifyStep_injective hinj hfn hsn hnext hnext'
      exact hsr (ih hfn' hsn' hrest hrest')

/-- Against the generated proof, an old root that rebuilds both roots is the root
of the prefix. When the old size is a power of two it is what the loop starts
from; otherwise the loop does not look at it. -/
theorem rebuildRoots_oldRoot (hinj : scheme.Injective) {leaves : List α} {m : ℕ} (hm : 0 < m)
    (hlt : m < leaves.length) {oldRoot : β} {final : VerifierState β}
    (hrun : rebuildRoots scheme m oldRoot leaves.length (proof scheme m leaves) = some final)
    (hfr : final.fr = oldRoot) (hsr : final.sr = mth scheme leaves) :
    oldRoot = mth scheme (leaves.take m) := by
  have hhonest := rebuildRoots_proof scheme hm hlt
  by_cases hpow : m.isPowerOfTwo
  · simp only [rebuildRoots, if_pos hpow] at hrun hhonest
    exact foldlM_verifyStep_injective hinj (by rfl) (by rfl) hrun hhonest hsr
  · simp only [rebuildRoots, if_neg hpow] at hrun hhonest
    have hfinal := Option.some.inj (hrun.symm.trans hhonest)
    rw [← hfr, hfinal]

/-- The verifier accepts a generated proof against the root of the prefix and no
other. -/
theorem verifyConsistency_proof_iff [DecidableEq β] (hinj : scheme.Injective) {leaves : List α}
    {m : ℕ} (hm : 0 < m) (hmn : m ≤ leaves.length) (oldRoot : β) :
    verifyConsistency scheme m oldRoot leaves.length (mth scheme leaves)
        (proof scheme m leaves) = true ↔
      oldRoot = mth scheme (leaves.take m) := by
  constructor
  · intro haccepts
    rcases hmn.eq_or_lt with rfl | hlt
    · rw [verifyConsistency, if_pos rfl] at haccepts
      simp only [Bool.and_eq_true, decide_eq_true_eq] at haccepts
      rw [List.take_length, haccepts.2]
    · rw [verifyConsistency, if_neg hlt.ne, if_neg hm.ne'] at haccepts
      split at haccepts
      · simp at haccepts
      split at haccepts
      · simp at haccepts
      · next final hrun =>
        simp only [Bool.and_eq_true, decide_eq_true_eq] at haccepts
        exact rebuildRoots_oldRoot hinj hm hlt hrun haccepts.1.1 haccepts.1.2
  · rintro rfl
    exact verifyConsistency_proof scheme hm hmn

end Rfc6962
