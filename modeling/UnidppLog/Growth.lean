/-
# How the levels grow

What every sequence of appends makes of the cached levels: how many nodes each has and
which, that none of them is moved or changed later, and that the carry loop never leaves
a level. All of it starts from the one level that `new` makes. The derived `Default`
makes none, and there the first append panics.
-/

import UnidppLog.Proofs
import UnidppLog.Sample.Crates

namespace UnidppLog

open Rfc6962 Unidpp

/-- Every level is still there, and what it held still stands in front. -/
def Extends {α : Type} (levels levels' : List (List α)) : Prop :=
  ∀ (k : ℕ) (lvl : List α), levels[k]? = some lvl →
    ∃ lvl', levels'[k]? = some lvl' ∧ lvl <+: lvl'

namespace Extends

variable {α β : Type} {levels levels' levels'' : List (List α)}

theorem refl (levels : List (List α)) : Extends levels levels :=
  fun _ lvl hk => ⟨lvl, hk, List.prefix_rfl⟩

theorem trans (h : Extends levels levels') (h' : Extends levels' levels'') :
    Extends levels levels'' := by
  intro k lvl hk
  obtain ⟨lvl', hk', hfront⟩ := h k lvl hk
  obtain ⟨lvl'', hk'', hfront'⟩ := h' k lvl' hk'
  exact ⟨lvl'', hk'', hfront.trans hfront'⟩

/-- More levels behind the last one. -/
theorem append (levels more : List (List α)) : Extends levels (levels ++ more) := by
  intro k lvl hk
  have hlt := (List.getElem?_eq_some_iff.mp hk).1
  exact ⟨lvl, by rw [List.getElem?_append_left hlt, hk], List.prefix_rfl⟩

/-- More nodes behind the last one of a level. -/
theorem set {i : ℕ} {old : List α} (hi : levels[i]? = some old) (more : List α) :
    Extends levels (levels.set i (old ++ more)) := by
  intro k lvl hk
  have hlt := (List.getElem?_eq_some_iff.mp hk).1
  rcases eq_or_ne i k with rfl | hne
  · obtain rfl : old = lvl := Option.some.inj (hi.symm.trans hk)
    exact ⟨old ++ more, List.getElem?_set_self hlt, List.prefix_append _ _⟩
  · exact ⟨lvl, by rw [List.getElem?_set_ne hne, hk], List.prefix_rfl⟩

/-- A loop whose rounds only add to the levels. -/
theorem foldlM {f : List (List α) → β → Option (List (List α))}
    (hf : ∀ levels x levels', f levels x = some levels' → Extends levels levels') {xs : List β}
    (hrun : xs.foldlM f levels = some levels') : Extends levels levels' := by
  induction xs generalizing levels with
  | nil =>
      obtain rfl : levels = levels' := by simpa using hrun
      exact refl levels
  | cons x xs ih =>
      rw [List.foldlM_cons] at hrun
      obtain ⟨mid, hstep, hrest⟩ := Option.bind_eq_some_iff.mp hrun
      exact (hf levels x mid hstep).trans (ih hrest)

end Extends

section

variable [Unidpp]

namespace MerkleTree

variable {tree tree' : MerkleTree} {levels levels' : List (List Hash)} {leaves : List Hash}
  {entry : Hash}

theorem pushLevel_extends {k : ℕ} {hash : Hash} (h : pushLevel levels k hash = some levels') :
    Extends levels levels' := by
  obtain ⟨lvl, hk, heq⟩ := Option.bind_eq_some_iff.mp h
  obtain rfl := Option.some.inj heq
  exact Extends.set hk [hash]

theorem completeLevel_extends {k : ℕ} (h : completeLevel levels k = some levels') :
    Extends levels levels' := by
  simp only [completeLevel, Option.bind_eq_bind, Option.bind_eq_some_iff] at h
  obtain ⟨lvl, -, _, -, left, -, _, -, right, -, hpush⟩ := h
  exact pushLevel_extends hpush

/-- The levels of an append before round `i` of its carry loop. -/
def carried (tree : MerkleTree) (entry : Hash) (i : ℕ) : Option (List (List Hash)) := do
  let levels ← pushLevel tree.levels 0 (leafHash entry)
  let completed := U64.trailingZeros (tree.size + 1)
  let levels :=
    if levels.length ≤ completed then
      levels ++ List.replicate (completed + 1 - levels.length) []
    else levels
  (List.range i).foldlM completeLevel levels

/-- An append is its carry loop, run to the last level that completes. -/
theorem append_eq_some_iff :
    tree.append entry = some tree' ↔ tree.size + 1 < 2 ^ 64 ∧
      tree.carried entry (U64.trailingZeros (tree.size + 1)) = some tree'.levels ∧
        tree'.size = tree.size + 1 := by
  by_cases hroom : tree.size + 1 < 2 ^ 64
  · obtain ⟨levels', size'⟩ := tree'
    simp only [append, carried, U64.add_of_lt hroom, Option.bind_eq_bind, Option.bind_some,
      Option.bind_eq_some_iff, Option.pure_def, Option.some.injEq, mk.injEq, hroom, true_and]
    constructor
    · rintro ⟨pushed, hpush, levels, hloop, rfl, rfl⟩
      exact ⟨⟨pushed, hpush, hloop⟩, rfl⟩
    · rintro ⟨⟨pushed, hpush, hloop⟩, rfl⟩
      exact ⟨pushed, hpush, levels', hloop, rfl, rfl⟩
  · rw [append_eq_none (Nat.not_lt.mp hroom)]
    exact iff_of_false (by simp) fun h => hroom h.1

theorem carried_extends {i : ℕ} (h : tree.carried entry i = some levels') :
    Extends tree.levels levels' := by
  obtain ⟨pushed, hpush, hloop⟩ := Option.bind_eq_some_iff.mp h
  have hsized : Extends pushed
      (if pushed.length ≤ U64.trailingZeros (tree.size + 1) then
        pushed ++ List.replicate (U64.trailingZeros (tree.size + 1) + 1 - pushed.length) []
      else pushed) := by
    split
    · exact Extends.append _ _
    · exact Extends.refl _
  have hrounds := Extends.foldlM (fun _ _ _ => completeLevel_extends) hloop
  exact ((pushLevel_extends hpush).trans hsized).trans hrounds

/-- What a tree has cached stays where it is. -/
theorem append_extends (h : tree.append entry = some tree') :
    Extends tree.levels tree'.levels :=
  carried_extends (append_eq_some_iff.mp h).2.1

/-- In every round of the carry loop the last two nodes of the level are there, and so is
the level that their parent goes to. -/
theorem Represents.carried_in_range (hrep : tree.Represents leaves) (entry : Hash)
    (hroom : leaves.length + 1 < 2 ^ 64) {i : ℕ}
    (hi : i < U64.trailingZeros (leaves.length + 1)) :
    ∃ levels lvl, tree.carried entry i = some levels ∧ levels[i]? = some lvl ∧
      2 ≤ lvl.length ∧ i + 1 < levels.length := by
  obtain ⟨f, heven, hn⟩ := exists_completed hroom
  obtain ⟨pushed, sized, hpush, hsized, hlevels, -, hcarry⟩ :=
    hrep.exists_sized entry (U64.trailingZeros (leaves.length + 1))
  obtain ⟨levels, hrun, hlen, hdone⟩ := foldlM_completeLevel hn heven hlevels hcarry hi.le
  have hlt : i < levels.length := by omega
  have hlvl := hdone i _ (List.getElem?_eq_getElem hlt)
  rw [if_pos le_rfl] at hlvl
  refine ⟨levels, _, ?_, List.getElem?_eq_getElem hlt, ?_, by omega⟩
  · rw [carried, hpush, hrep.size_eq]
    simp only [Option.bind_eq_bind, Option.bind_some, hsized, hrun]
  · -- The new size is a multiple of the length of two nodes of the level.
    rw [hlvl, length_levelOf, List.length_append, List.length_singleton,
      Nat.le_div_iff_mul_le (Nat.two_pow_pos i), ← pow_succ']
    calc 2 ^ (i + 1) ≤ 2 ^ U64.trailingZeros (leaves.length + 1) :=
          Nat.pow_le_pow_right (by decide) hi
      _ ≤ leaves.length + 1 := by
          conv_rhs => rw [hn]
          exact Nat.le_mul_of_pos_left _ (by omega)

/-- After any run of appends, a level that is there has one node for each complete subtree
of its height, in order, and every level with such a subtree is there. A further append
only adds to the levels, and its carry loop finds every node and level it asks for. -/
theorem appendAll_levels (entries : List Hash) :
    (new.appendAll entries = none ↔ 2 ^ 64 ≤ entries.length) ∧
      ∀ tree, new.appendAll entries = some tree → tree.size = entries.length ∧
        (∀ (k : ℕ) (lvl : List Hash), tree.levels[k]? = some lvl →
          lvl.length = entries.length >>> k ∧
            ∀ j < lvl.length, lvl[j]? = some (mth scheme (slice entries (j * 2 ^ k) (2 ^ k)))) ∧
        (∀ k, 0 < entries.length >>> k → k < tree.levels.length) ∧
        (∀ entry tree', tree.append entry = some tree' → Extends tree.levels tree'.levels) ∧
        (∀ entry, entries.length + 1 < 2 ^ 64 →
          ∀ i < U64.trailingZeros (entries.length + 1), ∃ levels lvl,
            tree.carried entry i = some levels ∧ levels[i]? = some lvl ∧ 2 ≤ lvl.length ∧
              i + 1 < levels.length) := by
  refine ⟨appendAll_eq_none_iff entries, fun tree hrun => ?_⟩
  have hrep := represents_of_appendAll hrun
  refine ⟨hrep.size_eq, fun k lvl hk => ?_, fun k hk => ?_, fun entry tree' => append_extends,
    fun entry hroom i hi => hrep.carried_in_range entry hroom hi⟩
  · obtain rfl := hrep.level_eq k lvl hk
    rw [length_levelOf, Nat.shiftRight_eq_div_pow]
    refine ⟨rfl, fun j hj => levelOf_getElem? ?_⟩
    exact (Nat.le_div_iff_mul_le (Nat.two_pow_pos k)).mp hj
  · rw [Nat.shiftRight_eq_div_pow] at hk
    exact hrep.present k hk

/-- Two trees of one size that answer every query within it alike. -/
structure Alike (tree tree' : MerkleTree) : Prop where
  size : tree.size = tree'.size
  rootAtSize : ∀ s ≤ tree.size, tree.rootAtSize s = tree'.rootAtSize s
  inclusionPath : ∀ s ≤ tree.size, ∀ m < s, tree.inclusionPath m s = tree'.inclusionPath m s
  consistencyPath : ∀ m ≤ tree.size, tree.consistencyPath m = tree'.consistencyPath m

/-- Appending these to the default tree does not panic, and gives a tree like the one
that appending them to a new tree gives. -/
def Interchangeable (entries : List Hash) : Prop :=
  ∃ tree, default.appendAll entries = some tree ∧
    ∀ tree', new.appendAll entries = some tree' → tree.Alike tree'

/-- The first append to the default tree panics. -/
theorem default_append (entry : Hash) : default.append entry = none :=
  rfl

theorem default_alike_new : default.Alike new where
  size := rfl
  rootAtSize s hs := by
    obtain rfl : s = 0 := Nat.le_zero.mp hs
    rfl
  inclusionPath s hs m hm := absurd hm (by rw [Nat.le_zero.mp hs]; exact Nat.not_lt_zero m)
  consistencyPath m hm := by
    obtain rfl : m = 0 := Nat.le_zero.mp hm
    rfl

/-- The constructors are interchangeable as long as nothing is appended. -/
theorem interchangeable_iff (entries : List Hash) : Interchangeable entries ↔ entries = [] := by
  constructor
  · rintro ⟨tree, hrun, -⟩
    cases entries with
    | nil => rfl
    | cons entry entries => simp [appendAll_cons, default_append] at hrun
  · rintro rfl
    refine ⟨default, rfl, fun tree' hrun => ?_⟩
    obtain rfl : new = tree' := Option.some.inj hrun
    exact default_alike_new

end MerkleTree

end

namespace Sample

/-- A new tree takes the first commitment, and the default tree panics. -/
theorem not_interchangeable :
    MerkleTree.default.appendAll [digest [1]] = none ∧
      (∃ tree, MerkleTree.new.appendAll [digest [1]] = some tree) ∧
        ¬ MerkleTree.Interchangeable [digest [1]] := by
  refine ⟨rfl, ⟨_, rfl⟩, ?_⟩
  rintro ⟨tree, hrun, -⟩
  simp [MerkleTree.appendAll_cons, MerkleTree.default_append] at hrun

end Sample

end UnidppLog
