/-
# Objects built from fields

What a program builds field by field, it reads field by field. A field's value is
the one that was inserted last, and an object built from plain values is plain
and one bracket deeper than the deepest of them.
-/

import UnidppLog.Json.Value

namespace Json

@[simp]
theorem lookup_nil (k : String) : lookup [] k = none :=
  rfl

theorem lookup_cons (key : String) (v : Value) (rest : List (String × Value)) (k : String) :
    lookup ((key, v) :: rest) k = if k = key then some v else lookup rest k := by
  rw [lookup, List.lookup_cons]
  by_cases hk : k = key
  · simp [hk]
  · rw [beq_eq_false_iff_ne.mpr hk, if_neg hk]
    rfl

theorem lookup_insert (fields : List (String × Value)) (key : String) (v : Value) (k : String) :
    lookup (insert fields key v) k = if k = key then some v else lookup fields k := by
  induction fields with
  | nil => rw [insert, lookup_cons]
  | cons f rest ih =>
      obtain ⟨l, w⟩ := f
      rw [insert]
      split
      · rw [lookup_cons]
      · split
        · next heq =>
          subst heq
          rw [lookup_cons, lookup_cons]
          split <;> rfl
        · next hne =>
          rw [lookup_cons, lookup_cons, ih]
          by_cases hl : k = l
          · rw [if_pos hl, if_pos hl, if_neg (by rw [hl]; exact Ne.symm hne)]
          · rw [if_neg hl, if_neg hl]

namespace Value

theorem lookup_collect (fields acc : List (String × Value)) (k : String) :
    lookup (collect fields acc) k = (lookup fields.reverse k).or (lookup acc k) := by
  induction fields generalizing acc with
  | nil => simp [collect, lookup]
  | cons f rest ih =>
      obtain ⟨key, v⟩ := f
      have hone := lookup_cons key v [] k
      rw [lookup] at hone
      rw [collect, ih, lookup_insert, List.reverse_cons, lookup, lookup, lookup,
        List.lookup_append, Option.or_assoc, hone]
      congr 1
      split <;> simp [lookup]

@[simp]
theorem asObject_ofFields (fields : List (String × Value)) :
    (ofFields fields).asObject = some (collect fields []) :=
  rfl

/-- The value of a field is the one given last. -/
theorem lookup_collect_nil (fields : List (String × Value)) (k : String) :
    lookup (collect fields []) k = lookup fields.reverse k := by
  rw [lookup_collect]
  simp [lookup]

theorem get_ofFields (fields : List (String × Value)) (k : String) :
    (ofFields fields).get k = lookup fields.reverse k := by
  rw [get, asObject_ofFields, Option.bind_some, lookup_collect_nil]

/-- The value at the end of a path of fields. -/
def field (v : Value) : List String → Option Value
  | [] => some v
  | key :: rest => (v.get key).bind fun w => w.field rest

@[simp]
theorem field_nil (v : Value) : v.field [] = some v :=
  rfl

theorem field_singleton (v : Value) (key : String) : v.field [key] = v.get key :=
  Option.bind_fun_some _

theorem get_of_asObject {v : Value} {fields : List (String × Value)}
    (h : v.asObject = some fields) (key : String) : v.get key = lookup fields key := by
  rw [get, h, Option.bind_some]

theorem field_ofFields (fields : List (String × Value)) (key : String) (path : List String) :
    (ofFields fields).field (key :: path) =
      (lookup fields.reverse key).bind fun w => w.field path := by
  rw [field, get_ofFields]

theorem plainItems_iff {items : List Value} : PlainItems items ↔ ∀ v ∈ items, v.Plain := by
  induction items with
  | nil => simp [PlainItems]
  | cons v rest ih => simp [PlainItems, ih]

theorem plainFields_iff {fields : List (String × Value)} :
    PlainFields fields ↔ ∀ f ∈ fields, f.2.Plain := by
  induction fields with
  | nil => simp [PlainFields]
  | cons f rest ih => simp [PlainFields, ih]

theorem mem_collect {fields acc : List (String × Value)} {f : String × Value}
    (hf : f ∈ collect fields acc) : f ∈ fields ∨ f ∈ acc := by
  induction fields generalizing acc with
  | nil => exact .inr hf
  | cons g rest ih =>
      rcases ih hf with hrest | hinsert
      · exact .inl (List.mem_cons_of_mem _ hrest)
      · rcases mem_insert hinsert with rfl | hacc
        · exact .inl List.mem_cons_self
        · exact .inr hacc

/-- An object built from plain values is plain. -/
theorem plain_ofFields {fields : List (String × Value)} (h : ∀ f ∈ fields, f.2.Plain) :
    (ofFields fields).Plain := by
  rw [ofFields, Plain]
  refine ⟨sortedKeys_collect fields List.Pairwise.nil, plainFields_iff.mpr fun f hf => ?_⟩
  rcases mem_collect hf with hmem | hnil
  · exact h f hmem
  · simp at hnil

theorem depthItems_le_iff {items : List Value} {n : ℕ} :
    depthItems items ≤ n ↔ ∀ v ∈ items, v.depth ≤ n := by
  induction items with
  | nil => simp [depthItems]
  | cons v rest ih => rw [depthItems, Nat.max_le, ih, List.forall_mem_cons]

theorem depthFields_le_iff {fields : List (String × Value)} {n : ℕ} :
    depthFields fields ≤ n ↔ ∀ f ∈ fields, f.2.depth ≤ n := by
  induction fields with
  | nil => simp [depthFields]
  | cons f rest ih => rw [depthFields, Nat.max_le, ih, List.forall_mem_cons]

theorem depth_array_le {items : List Value} {n : ℕ} (h : ∀ v ∈ items, v.depth ≤ n) :
    (Value.array items).depth ≤ n + 1 := by
  rw [depth]
  exact Nat.succ_le_succ (depthItems_le_iff.mpr h)

/-- An object is one bracket deeper than its values. -/
theorem depth_ofFields_le {fields : List (String × Value)} {n : ℕ}
    (h : ∀ f ∈ fields, f.2.depth ≤ n) : (ofFields fields).depth ≤ n + 1 := by
  rw [ofFields, depth]
  refine Nat.succ_le_succ (depthFields_le_iff.mpr fun f hf => ?_)
  rcases mem_collect hf with hmem | hnil
  · exact h f hmem
  · simp at hnil

end Value

end Json
