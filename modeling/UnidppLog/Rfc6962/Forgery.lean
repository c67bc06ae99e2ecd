/-
# Proofs that nobody generated

What a verifier accepts from anybody. A proof that was not generated from the
leaves is accepted only if two of the finitely many inputs that were hashed, for
the tree and by the verifier, have one hash. The hash functions themselves are
not assumed to be injective, which functions into short digests cannot be.
-/

import UnidppLog.Rfc6962.Inclusion
import UnidppLog.Rfc6962.Consistency
import Mathlib.Data.List.Basic

namespace Rfc6962

universe u v

variable {α : Type u} {β : Type v}

/-- What is hashed: an entry, or two nodes. -/
inductive HashInput (α : Type u) (β : Type v)
  | leaf (entry : α)
  | node (left right : β)
  deriving DecidableEq

/-- The hash of an input. -/
def HashInput.hash (scheme : HashScheme α β) : HashInput α β → β
  | .leaf entry => scheme.leaf entry
  | .node left right => scheme.node left right

/-- No two of these inputs have one hash. -/
def HashScheme.Separates (scheme : HashScheme α β) (inputs : List (HashInput α β)) : Prop :=
  ∀ a ∈ inputs, ∀ b ∈ inputs, a.hash scheme = b.hash scheme → a = b

instance [DecidableEq α] [DecidableEq β] (scheme : HashScheme α β)
    (inputs : List (HashInput α β)) : Decidable (scheme.Separates inputs) :=
  inferInstanceAs (Decidable (∀ a ∈ inputs, ∀ b ∈ inputs, _ → a = b))

section Inputs

variable (scheme : HashScheme α β)

/-- What the tree hash of the leaves hashes. -/
def treeInputs (leaves : List α) : List (HashInput α β) :=
  if 2 ≤ leaves.length then
    .node (mth scheme (leaves.take (split leaves.length)))
        (mth scheme (leaves.drop (split leaves.length))) ::
      (treeInputs (leaves.take (split leaves.length)) ++
        treeInputs (leaves.drop (split leaves.length)))
  else leaves.map .leaf
termination_by leaves.length
decreasing_by
  · have hlt := split_lt ‹2 ≤ leaves.length›
    rw [List.length_take]
    omega
  · have hpos := split_pos leaves.length
    rw [List.length_drop]
    omega

/-- What one node of a path is hashed with. -/
def foldInput (acc : β) (next : PathNode β) : HashInput α β :=
  match next.side with
  | .left => .node next.sibling acc
  | .right => .node acc next.sibling

/-- What folding a path hashes. -/
def pathInputs (start : β) : List (PathNode β) → List (HashInput α β)
  | [] => []
  | next :: rest => foldInput start next :: pathInputs (foldNode scheme start next) rest

/-- What a round of the consistency loop hashes to the new root. -/
def roundInput (state : VerifierState β) (next : β) : HashInput α β :=
  if state.fn % 2 = 1 ∨ state.fn = state.sn then .node next state.sr else .node state.sr next

/-- What the consistency loop hashes to the new root. -/
def loopInputs (state : VerifierState β) : List β → List (HashInput α β)
  | [] => []
  | next :: rest => roundInput state next ::
      match verifyStep scheme state next with
      | none => []
      | some state => loopInputs state rest

/-- What consistency verification hashes to the new root. -/
def consistencyInputs (m : ℕ) (oldRoot : β) (n : ℕ) (nodes : List β) : List (HashInput α β) :=
  match if m.isPowerOfTwo then oldRoot :: nodes else nodes with
  | [] => []
  | seed :: rest =>
    let start := skipOnes (m - 1) (n - 1)
    loopInputs scheme { fn := start.1, sn := start.2, fr := seed, sr := seed } rest

end Inputs

variable {scheme : HashScheme α β}

theorem HashScheme.Separates.mono {inputs inputs' : List (HashInput α β)}
    (h : scheme.Separates inputs) (hsub : ∀ a ∈ inputs', a ∈ inputs) :
    scheme.Separates inputs' :=
  fun a ha b hb => h a (hsub a ha) b (hsub b hb)

theorem hash_foldInput (acc : β) (next : PathNode β) :
    (foldInput acc next : HashInput α β).hash scheme = foldNode scheme acc next := by
  obtain ⟨sibling, side⟩ := next
  cases side <;> rfl

theorem pathInputs_concat (start : β) (nodes : List (PathNode β)) (last : PathNode β) :
    pathInputs scheme start (nodes ++ [last]) =
      pathInputs scheme start nodes ++ [foldInput (foldPath scheme start nodes) last] := by
  induction nodes generalizing start with
  | nil => rfl
  | cons next rest ih =>
      rw [List.cons_append, pathInputs, ih, pathInputs, List.cons_append]
      rfl

theorem treeInputs_singleton (entry : α) : treeInputs scheme [entry] = [.leaf entry] := by
  rw [treeInputs.eq_def, if_neg (by simp)]
  rfl

theorem treeInputs_of_two_le {leaves : List α} (hlen : 2 ≤ leaves.length) :
    treeInputs scheme leaves =
      .node (mth scheme (leaves.take (split leaves.length)))
          (mth scheme (leaves.drop (split leaves.length))) ::
        (treeInputs scheme (leaves.take (split leaves.length)) ++
          treeInputs scheme (leaves.drop (split leaves.length))) := by
  rw [treeInputs.eq_def, if_pos hlen]

/-- What is hashed for a path: the entry, and then each node with its sibling. -/
theorem mem_pathInputs_concat {entry : α} {nodes : List (PathNode β)} {last : PathNode β}
    {a : HashInput α β}
    (h : a ∈ .leaf entry :: pathInputs scheme (scheme.leaf entry) nodes) :
    a ∈ .leaf entry :: pathInputs scheme (scheme.leaf entry) (nodes ++ [last]) := by
  rw [pathInputs_concat, ← List.cons_append]
  exact List.mem_append_left _ h

theorem foldInput_mem {entry : α} {nodes : List (PathNode β)} {last : PathNode β} :
    foldInput (foldPath scheme (scheme.leaf entry) nodes) last ∈
      .leaf entry :: pathInputs scheme (scheme.leaf entry) (nodes ++ [last]) := by
  rw [pathInputs_concat, ← List.cons_append]
  exact List.mem_append_right _ (List.mem_singleton_self _)

/-- An entry that is folded to the hash of one leaf is that leaf, and the path is empty. -/
theorem eq_of_foldPath_leaf {only entry : α} {nodes : List (PathNode β)}
    (hsep : scheme.Separates ([.leaf only] ++
      .leaf entry :: pathInputs scheme (scheme.leaf entry) nodes))
    (heq : foldPath scheme (scheme.leaf entry) nodes = scheme.leaf only) :
    only = entry ∧ nodes = [] := by
  have honly : (.leaf only : HashInput α β) ∈ [.leaf only] ++
      .leaf entry :: pathInputs scheme (scheme.leaf entry) nodes := List.mem_cons_self
  rcases List.eq_nil_or_concat' nodes with rfl | ⟨init, last, rfl⟩
  · have hentry := hsep (.leaf only) honly (.leaf entry) (by simp) heq.symm
    exact ⟨HashInput.leaf.inj hentry, rfl⟩
  · rw [foldPath_concat, ← hash_foldInput (α := α)] at heq
    have hlast := hsep _ (List.mem_append_right _ foldInput_mem) _ honly heq
    obtain ⟨sibling, side⟩ := last
    cases side <;> simp [foldInput] at hlast

/-- An entry that is folded to the hash of two nodes is folded to one of them, and the other
one is the last sibling. -/
theorem cases_of_foldPath_node {left right : β} {inputs : List (HashInput α β)} {entry : α}
    {nodes : List (PathNode β)}
    (hsep : scheme.Separates (.node left right :: inputs ++
      .leaf entry :: pathInputs scheme (scheme.leaf entry) nodes))
    (heq : foldPath scheme (scheme.leaf entry) nodes = scheme.node left right) :
    ∃ init, foldPath scheme (scheme.leaf entry) init = left ∧ nodes = init ++ [⟨right, .right⟩] ∨
      foldPath scheme (scheme.leaf entry) init = right ∧ nodes = init ++ [⟨left, .left⟩] := by
  have hnode : (.node left right : HashInput α β) ∈ .node left right :: inputs ++
      .leaf entry :: pathInputs scheme (scheme.leaf entry) nodes := by simp
  rcases List.eq_nil_or_concat' nodes with rfl | ⟨init, last, rfl⟩
  · have hentry := hsep (.leaf entry) (by simp) _ hnode heq
    simp at hentry
  · rw [foldPath_concat, ← hash_foldInput (α := α)] at heq
    have hlast := hsep _ (List.mem_append_right _ foldInput_mem) _ hnode heq
    obtain ⟨sibling, side⟩ := last
    refine ⟨init, ?_⟩
    cases side with
    | left =>
        obtain ⟨rfl, hright⟩ := HashInput.node.inj hlast
        exact .inr ⟨hright, rfl⟩
    | right =>
        obtain ⟨hleft, rfl⟩ := HashInput.node.inj hlast
        exact .inl ⟨hleft, rfl⟩

/-- A path that folds an entry to the tree hash of the leaves is the path of a leaf, and the
entry is that leaf. -/
theorem exists_of_foldPath {leaves : List α} (hne : leaves ≠ []) {entry : α}
    {nodes : List (PathNode β)}
    (hsep : scheme.Separates (treeInputs scheme leaves ++
      .leaf entry :: pathInputs scheme (scheme.leaf entry) nodes))
    (heq : foldPath scheme (scheme.leaf entry) nodes = mth scheme leaves) :
    ∃ m, leaves[m]? = some entry ∧ nodes = path scheme m leaves := by
  induction leaves using treeInputs.induct generalizing nodes with
  | case1 leaves htwo ihleft ihright =>
      have hlt := split_lt htwo
      have hpos := split_pos leaves.length
      rw [treeInputs_of_two_le htwo] at hsep
      rw [mth_of_two_le scheme htwo] at heq
      obtain ⟨init, ⟨hfold, rfl⟩ | ⟨hfold, rfl⟩⟩ := cases_of_foldPath_node hsep heq
      · -- The last sibling is the right half: the leaf is in the left one.
        obtain ⟨m, hentry, rfl⟩ := ihleft
          (List.ne_nil_of_length_pos (by rw [List.length_take]; omega))
          (hsep.mono fun a ha => by
            rcases List.mem_append.mp ha with hleft | hpath
            · simp [hleft]
            · exact List.mem_append_right _ (mem_pathInputs_concat hpath)) hfold
        have hm := (List.getElem?_eq_some_iff.mp hentry).1
        rw [List.length_take] at hm
        rw [List.getElem?_take_of_lt (by omega)] at hentry
        exact ⟨m, hentry, (path_of_lt_split scheme htwo (by omega)).symm⟩
      · obtain ⟨m, hentry, rfl⟩ := ihright
          (List.ne_nil_of_length_pos (by rw [List.length_drop]; omega))
          (hsep.mono fun a ha => by
            rcases List.mem_append.mp ha with hright | hpath
            · simp [hright]
            · exact List.mem_append_right _ (mem_pathInputs_concat hpath)) hfold
        rw [List.getElem?_drop] at hentry
        refine ⟨split leaves.length + m, hentry, ?_⟩
        rw [path_of_split_le scheme htwo (by omega), Nat.add_sub_cancel_left]
  | case2 leaves hone =>
      obtain ⟨only, rfl⟩ : ∃ only, leaves = [only] := by
        have hpos := List.length_pos_iff.mpr hne
        exact List.length_eq_one_iff.mp (by omega)
      rw [mth_singleton] at heq
      rw [treeInputs_singleton] at hsep
      obtain ⟨rfl, rfl⟩ := eq_of_foldPath_leaf hsep heq
      exact ⟨0, rfl, (path_of_le_one scheme le_rfl).symm⟩

/-- The entries with a path to the tree hash of the leaves are the leaves, with their paths. -/
theorem foldPath_eq_mth_iff {leaves : List α} (hne : leaves ≠ []) {entry : α}
    {nodes : List (PathNode β)}
    (hsep : scheme.Separates (treeInputs scheme leaves ++
      .leaf entry :: pathInputs scheme (scheme.leaf entry) nodes)) :
    foldPath scheme (scheme.leaf entry) nodes = mth scheme leaves ↔
      ∃ m, leaves[m]? = some entry ∧ nodes = path scheme m leaves := by
  refine ⟨exists_of_foldPath hne hsep, ?_⟩
  rintro ⟨m, hentry, rfl⟩
  obtain ⟨hm, rfl⟩ := List.getElem?_eq_some_iff.mp hentry
  exact foldPath_path scheme hm

theorem hash_roundInput {state next : VerifierState β} {node : β}
    (hnext : verifyStep scheme state node = some next) :
    (roundInput state node : HashInput α β).hash scheme = next.sr := by
  rw [verifyStep] at hnext
  split at hnext
  · simp at hnext
  · rw [roundInput]
    split at hnext <;> obtain rfl := Option.some.inj hnext
    · next hround => rw [if_pos hround]; rfl
    · next hround => rw [if_neg hround]; rfl

/-- Rounds at the same indices go on to the same indices, and what they hash tells the nodes
and the states apart. -/
theorem eq_of_verifyStep {state other next next' : VerifierState β} {node node' : β}
    (hfn : state.fn = other.fn) (hsn : state.sn = other.sn)
    (hnext : verifyStep scheme state node = some next)
    (hnext' : verifyStep scheme other node' = some next') :
    next.fn = next'.fn ∧ next.sn = next'.sn ∧
      ((roundInput state node : HashInput α β) = roundInput other node' →
        node = node' ∧ state.sr = other.sr) := by
  rw [verifyStep] at hnext hnext'
  rw [roundInput, roundInput]
  rw [← hfn, ← hsn] at hnext' ⊢
  split at hnext
  · simp at hnext
  · next hpos =>
    rw [if_neg hpos] at hnext'
    split at hnext
    · next hround =>
      rw [if_pos hround] at hnext'
      obtain rfl := Option.some.inj hnext
      obtain rfl := Option.some.inj hnext'
      rw [if_pos hround, if_pos hround]
      exact ⟨rfl, rfl, fun heq => HashInput.node.inj heq⟩
    · next hround =>
      rw [if_neg hround] at hnext'
      obtain rfl := Option.some.inj hnext
      obtain rfl := Option.some.inj hnext'
      rw [if_neg hround, if_neg hround]
      exact ⟨rfl, rfl, fun heq => (HashInput.node.inj heq).symm⟩

/-- Two loops from the same indices that end with no level left over and with one new root
have taken the same nodes. -/
theorem eq_of_foldlM_verifyStep {state other final final' : VerifierState β}
    {nodes nodes' : List β} (hfn : state.fn = other.fn) (hsn : state.sn = other.sn)
    (hsep : scheme.Separates (loopInputs scheme state nodes ++ loopInputs scheme other nodes'))
    (hrun : nodes.foldlM (verifyStep scheme) state = some final)
    (hrun' : nodes'.foldlM (verifyStep scheme) other = some final') (hend : final.sn = 0)
    (hend' : final'.sn = 0) (heq : final.sr = final'.sr) :
    nodes = nodes' ∧ state.sr = other.sr := by
  have hstop : ∀ {state next : VerifierState β} {node : β}, state.sn = 0 →
      verifyStep scheme state node ≠ some next := by
    intro state next node hzero
    rw [verifyStep, if_pos hzero]
    exact Option.some_ne_none next |>.symm
  induction nodes generalizing state other nodes' with
  | nil =>
      obtain rfl := Option.some.inj hrun
      cases nodes' with
      | nil =>
          obtain rfl := Option.some.inj hrun'
          exact ⟨rfl, heq⟩
      | cons node' rest' =>
          rw [List.foldlM_cons] at hrun'
          obtain ⟨next', hnext', -⟩ := Option.bind_eq_some_iff.mp hrun'
          exact absurd hnext' (hstop (hsn ▸ hend))
  | cons node rest ih =>
      rw [List.foldlM_cons] at hrun
      obtain ⟨next, hnext, hrest⟩ := Option.bind_eq_some_iff.mp hrun
      cases nodes' with
      | nil =>
          obtain rfl := Option.some.inj hrun'
          exact absurd hnext (hstop (hsn ▸ hend'))
      | cons node' rest' =>
          rw [List.foldlM_cons] at hrun'
          obtain ⟨next', hnext', hrest'⟩ := Option.bind_eq_some_iff.mp hrun'
          obtain ⟨hfn', hsn', hback⟩ := eq_of_verifyStep (α := α) hfn hsn hnext hnext'
          rw [loopInputs, loopInputs, hnext, hnext'] at hsep
          obtain ⟨rfl, hsr⟩ := ih hfn' hsn'
            (hsep.mono fun a ha => by
              rcases List.mem_append.mp ha with hleft | hright
              · simp [hleft]
              · simp [hright]) hrest hrest'
          have hround := hsep (roundInput state node) (by simp) (roundInput other node') (by simp)
            (by rw [hash_roundInput hnext, hash_roundInput hnext', hsr])
          obtain ⟨rfl, hstate⟩ := hback hround
          exact ⟨rfl, hstate⟩

/-- A consistency proof that is accepted against the tree hash of the leaves is the generated
one, and the old root is that of the prefix. -/
theorem eq_of_verifyConsistency [DecidableEq β] {leaves : List α} {m : ℕ} (hm : 0 < m)
    (hmn : m ≤ leaves.length) {oldRoot : β} {nodes : List β}
    (hsep : scheme.Separates (consistencyInputs scheme m oldRoot leaves.length nodes ++
      consistencyInputs scheme m (mth scheme (leaves.take m)) leaves.length
        (proof scheme m leaves)))
    (haccepts : verifyConsistency scheme m oldRoot leaves.length (mth scheme leaves) nodes = true) :
    oldRoot = mth scheme (leaves.take m) ∧ nodes = proof scheme m leaves := by
  rcases hmn.eq_or_lt with rfl | hlt
  · rw [verifyConsistency, if_pos rfl] at haccepts
    simp only [Bool.and_eq_true, decide_eq_true_eq, List.isEmpty_iff] at haccepts
    obtain ⟨rfl, rfl⟩ := haccepts
    rw [List.take_length, proof_self]
    exact ⟨rfl, rfl⟩
  · rw [verifyConsistency, if_neg hlt.ne, if_neg hm.ne'] at haccepts
    split at haccepts
    · simp at haccepts
    split at haccepts
    · simp at haccepts
    · next final hrun =>
      simp only [Bool.and_eq_true, decide_eq_true_eq] at haccepts
      obtain ⟨⟨rfl, hsr⟩, hsn⟩ := haccepts
      have hhonest := rebuildRoots_proof scheme hm hlt
      by_cases hpow : m.isPowerOfTwo
      · simp only [rebuildRoots, consistencyInputs, if_pos hpow] at hrun hhonest hsep
        exact (eq_of_foldlM_verifyStep (by rfl) (by rfl) hsep hrun hhonest hsn rfl hsr).symm
      · cases nodes with
        | nil => simp [rebuildRoots, hpow] at hrun
        | cons seed rest =>
            cases hproof : proof scheme m leaves with
            | nil => simp [rebuildRoots, hpow, hproof] at hhonest
            | cons seed' rest' =>
                simp only [rebuildRoots, consistencyInputs, if_neg hpow, hproof]
                  at hrun hhonest hsep
                obtain ⟨rfl, rfl⟩ :=
                  eq_of_foldlM_verifyStep (by rfl) (by rfl) hsep hrun hhonest hsn rfl hsr
                have hfinal := Option.some.inj (hrun.symm.trans hhonest)
                exact ⟨by rw [hfinal], rfl⟩

/-- Against the tree hash of the leaves, the verifier accepts the root of the prefix with the
generated proof, and nothing else. -/
theorem verifyConsistency_mth_iff [DecidableEq β] {leaves : List α} {m : ℕ} (hm : 0 < m)
    (hmn : m ≤ leaves.length) {oldRoot : β} {nodes : List β}
    (hsep : scheme.Separates (consistencyInputs scheme m oldRoot leaves.length nodes ++
      consistencyInputs scheme m (mth scheme (leaves.take m)) leaves.length
        (proof scheme m leaves))) :
    verifyConsistency scheme m oldRoot leaves.length (mth scheme leaves) nodes = true ↔
      oldRoot = mth scheme (leaves.take m) ∧ nodes = proof scheme m leaves := by
  refine ⟨eq_of_verifyConsistency hm hmn hsep, ?_⟩
  rintro ⟨rfl, rfl⟩
  exact verifyConsistency_proof scheme hm hmn

end Rfc6962
