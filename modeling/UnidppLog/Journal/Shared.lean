/-
# Journals with several writers

Writers that share a journal each number their records from what they have of it. As long as
every writer has all of it when it writes, the records stand in the order of their numbers and
what a writer has is a beginning of the journal. The first record of a writer that is behind
carries a number that is taken, and nothing that is written later puts the journal in order.
-/

import UnidppLog.Journal.Numbering

namespace Journal

universe u

variable {R : Type u} {seq : R → ℕ} {rs : List R} {r : R}

/-- Every record carries the number of its place. -/
def InOrder (seq : R → ℕ) (rs : List R) : Prop :=
  ∀ i r, rs[i]? = some r → seq r = i

/-- Two records carry one number. -/
def Doubled (seq : R → ℕ) (rs : List R) : Prop :=
  ∃ (i j : ℕ) (r r' : R), i < j ∧ rs[i]? = some r ∧ rs[j]? = some r' ∧ seq r = seq r'

theorem inOrder_nil : InOrder seq [] := by
  intro i r hi
  simp at hi

theorem inOrder_concat : InOrder seq (rs ++ [r]) ↔ InOrder seq rs ∧ seq r = rs.length := by
  constructor
  · intro h
    refine ⟨fun i r' hi => h i r' ?_, h rs.length r List.getElem?_concat_length⟩
    obtain ⟨hlt, -⟩ := List.getElem?_eq_some_iff.mp hi
    rwa [List.getElem?_append_left hlt]
  · rintro ⟨hrs, hr⟩ i r' hi
    rcases Nat.lt_or_ge i rs.length with hlt | hge
    · rw [List.getElem?_append_left hlt] at hi
      exact hrs i r' hi
    · rw [List.getElem?_append_right hge, List.getElem?_singleton] at hi
      split at hi
      · next hzero =>
        obtain rfl := Option.some.inj hi
        omega
      · simp at hi

theorem Doubled.append (h : Doubled seq rs) (more : List R) : Doubled seq (rs ++ more) := by
  obtain ⟨i, j, r, r', hij, hi, hj, heq⟩ := h
  obtain ⟨hlt, -⟩ := List.getElem?_eq_some_iff.mp hj
  refine ⟨i, j, r, r', hij, ?_, ?_, heq⟩
  · rwa [List.getElem?_append_left (by omega)]
  · rwa [List.getElem?_append_left hlt]

theorem InOrder.not_doubled (h : InOrder seq rs) : ¬ Doubled seq rs := by
  rintro ⟨i, j, r, r', hij, hi, hj, heq⟩
  have hi' := h i r hi
  have hj' := h j r' hj
  omega

/-- A record that is numbered behind a beginning of the journal stands in order if the
beginning is the whole, and takes a number for the second time if it is not. -/
theorem InOrder.concat_cases {view : List R} (h : InOrder seq rs) (hview : view <+: rs)
    (hr : seq r = view.length) :
    view = rs ∧ InOrder seq (rs ++ [r]) ∨ view ≠ rs ∧ Doubled seq (rs ++ [r]) := by
  rcases hview.length_le.eq_or_lt with heq | hlt
  · obtain rfl := hview.eq_of_length heq
    exact .inl ⟨rfl, inOrder_concat.mpr ⟨h, hr⟩⟩
  · refine .inr ⟨fun heq => by simp [heq] at hlt, ?_⟩
    obtain ⟨taken, htaken⟩ : ∃ taken, rs[view.length]? = some taken :=
      ⟨_, List.getElem?_eq_getElem hlt⟩
    refine ⟨view.length, rs.length, taken, r, hlt, ?_, List.getElem?_concat_length, ?_⟩
    · rwa [List.getElem?_append_left hlt]
    · rw [h _ _ htaken, hr]

/-- The records of a journal, and what each of its writers has of them. -/
structure Shared (R : Type u) where
  written : List R
  views : List (List R)

namespace Shared

variable {s : Shared R}

/-- A writer has read the journal. -/
def join (s : Shared R) : Shared R :=
  { s with views := s.views ++ [s.written] }

/-- A writer has written a record behind what it had. -/
def write (s : Shared R) (i : ℕ) (view : List R) (r : R) : Shared R where
  written := s.written ++ [r]
  views := s.views.set i (view ++ [r])

/-- As long as the journal is in order, a writer has a beginning of it. If it is not, a number
has been taken twice. -/
structure Sound (seq : R → ℕ) (s : Shared R) : Prop where
  order : InOrder seq s.written ∨ Doubled seq s.written
  isPrefix : InOrder seq s.written → ∀ view ∈ s.views, view <+: s.written

theorem Sound.join (h : s.Sound seq) : s.join.Sound seq where
  order := h.order
  isPrefix horder view hview := by
    rcases List.mem_append.mp hview with hold | hnew
    · exact h.isPrefix horder view hold
    · rw [List.mem_singleton.mp hnew]
      exact List.prefix_rfl

/-- A record goes behind what its writer has. The journal is in order then if it was before,
and the writer had all of it. -/
theorem Sound.write (h : s.Sound seq) {i : ℕ} {view : List R} (hi : s.views[i]? = some view)
    (hr : seq r = view.length) :
    (s.write i view r).Sound seq ∧
      (InOrder seq (s.write i view r).written ↔ InOrder seq s.written ∧ view = s.written) := by
  have hmem := List.mem_of_getElem? hi
  rcases h.order with horder | hdoubled
  · rcases horder.concat_cases (h.isPrefix horder view hmem) hr with ⟨rfl, hnext⟩ | ⟨hne, htwice⟩
    · refine ⟨⟨.inl hnext, fun _ other hother => ?_⟩, iff_of_true hnext ⟨horder, rfl⟩⟩
      rcases List.mem_or_eq_of_mem_set hother with hold | rfl
      · exact (h.isPrefix horder other hold).trans (List.prefix_append _ _)
      · exact List.prefix_rfl
    · refine ⟨⟨.inr htwice, fun hnext => absurd htwice hnext.not_doubled⟩, ?_⟩
      exact iff_of_false (fun hnext => hnext.not_doubled htwice) fun hall => hne hall.2
  · have htwice : Doubled seq (s.write i view r).written := hdoubled.append [r]
    refine ⟨⟨.inr htwice, fun hnext => absurd htwice hnext.not_doubled⟩, ?_⟩
    exact iff_of_false (fun hnext => hnext.not_doubled htwice)
      fun hall => hall.1.not_doubled hdoubled

end Shared

/-- Records that were written are replayed as they are, if they are replayed. -/
theorem Replays.eq_of_written {codec : Codec R} {admits : List R → R → Prop}
    (hlaw : codec.Lawful) {E E' : List R}
    (h : Replays codec admits E (rs.map fun r => String.ofList (codec.text r)) E') :
    E' = E ++ rs := by
  induction rs generalizing E with
  | nil =>
      rw [List.map_nil] at h
      cases h
      exact (List.append_nil _).symm
  | cons r rs ih =>
      rw [List.map_cons] at h
      have hparse := hlaw.parse_text r
      generalize String.ofList (codec.text r) = line at h hparse
      generalize hrest : rs.map (fun r => String.ofList (codec.text r)) = rest at h
      cases h with
      | torn herror => simp [hparse] at herror
      | record hparse' hseq htail =>
          obtain rfl := Except.ok.inj (hparse.symm.trans hparse')
          rw [← hrest] at htail
          rw [ih htail, List.append_assoc, List.singleton_append]

end Journal
