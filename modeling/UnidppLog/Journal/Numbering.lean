/-
# Journals of numbered records

A record carries its own number, and replay admits it only where it stands. Said
about the lines themselves: each is a record with the number of the line, but
for a last one that is torn. Whatever is made of the lines of a valid journal is
accepted only as its beginning, so no line can be dropped from the middle,
moved, repeated or overwritten.
-/

import UnidppLog.Journal.Recovery

namespace Journal

universe u

variable {R : Type u}

section Numbering

variable (codec : Codec R) (seq : R → ℕ)

/-- Each line is a record that carries its number, counted from `start`. -/
def NumberedFrom (start : ℕ) (texts : List String) : Prop :=
  ∀ i line, texts[i]? = some line → ∃ r, codec.parse line = .ok r ∧ seq r = start + i

/-- Each line is a record that carries its number, but the last one may be no
record as long as it is not blank. -/
def AcceptableFrom (start : ℕ) (texts : List String) : Prop :=
  ∀ i line, texts[i]? = some line →
    (∃ r, codec.parse line = .ok r ∧ seq r = start + i) ∨
      i + 1 = texts.length ∧ (∃ e, codec.parse line = .error e) ∧ ¬ Blank line.toList

/-- The records that the lines are, in order. -/
def recordsOf (texts : List String) : List R :=
  texts.filterMap fun line => (codec.parse line).toOption

/-- The lines whose number is not deleted. -/
def without (deleted : ℕ → Bool) (texts : List String) : List String :=
  (texts.zipIdx.filter fun p => !deleted p.2).map Prod.fst

/-- The second list of lines was made of the first by deleting lines in front of
one that stays, by reordering lines, by copying one, or by overwriting one in
front of others with a text that does not read as its record. -/
inductive Tampers : List String → List String → Prop
  | delete {texts : List String} (deleted : ℕ → Bool) {i j : ℕ} (hij : i < j)
      (hj : j < texts.length) (hdeleted : deleted i = true) (hkept : deleted j = false) :
      Tampers texts (without deleted texts)
  | reorder {texts texts' : List String} (hperm : texts'.Perm texts) (hne : texts' ≠ texts) :
      Tampers texts texts'
  | copy {front back : List String} {line : String} (hline : line ∈ front ++ back) :
      Tampers (front ++ back) (front ++ line :: back)
  | overwrite {front back : List String} {line text : String} (hback : back ≠ [])
      (hother : ∀ r, codec.parse text = .ok r → seq r ≠ front.length) :
      Tampers (front ++ line :: back) (front ++ text :: back)

end Numbering

variable {codec : Codec R} {seq : R → ℕ}

theorem acceptableFrom_nil (start : ℕ) : AcceptableFrom codec seq start [] := by
  intro i line hline
  simp at hline

theorem acceptableFrom_cons {start : ℕ} {line : String} {rest : List String} :
    AcceptableFrom codec seq start (line :: rest) ↔
      ((∃ r, codec.parse line = .ok r ∧ seq r = start) ∨
        rest = [] ∧ (∃ e, codec.parse line = .error e) ∧ ¬ Blank line.toList) ∧
        AcceptableFrom codec seq (start + 1) rest := by
  constructor
  · intro h
    refine ⟨?_, fun i next hnext => ?_⟩
    · simpa [eq_comm] using h 0 line rfl
    · have hsucc := h (i + 1) next hnext
      rw [List.length_cons, Nat.add_right_cancel_iff] at hsucc
      rwa [Nat.add_right_comm, Nat.add_assoc]
  · rintro ⟨hline, hrest⟩ i next hnext
    cases i with
    | zero =>
        obtain rfl : line = next := by simpa using hnext
        simpa [eq_comm] using hline
    | succ i =>
        have hsucc := hrest i next hnext
        rwa [List.length_cons, Nat.add_right_cancel_iff, ← Nat.add_assoc, Nat.add_right_comm]

/-- Where records are admitted by their numbers, replay accepts the acceptable
lines, and makes of them the records they are. -/
theorem replays_iff {admits : List R → R → Prop} {n : ℕ}
    (hadmits : ∀ E r, E.length < n → (admits E r ↔ seq r = E.length)) {E E' : List R}
    {texts : List String} (hroom : E.length + texts.length ≤ n) :
    Replays codec admits E texts E' ↔
      AcceptableFrom codec seq E.length texts ∧ E' = E ++ recordsOf codec texts := by
  induction texts generalizing E with
  | nil =>
      constructor
      · intro h
        cases h
        exact ⟨acceptableFrom_nil _, by simp [recordsOf]⟩
      · rintro ⟨-, rfl⟩
        simpa [recordsOf] using Replays.done E
  | cons line rest ih =>
      rw [List.length_cons] at hroom
      have hlt : E.length < n := by omega
      have hnext : ∀ r, (E ++ [r]).length = E.length + 1 := fun r => by simp
      rw [acceptableFrom_cons]
      constructor
      · intro h
        cases h with
        | torn hparse hvisible =>
            refine ⟨⟨.inr ⟨rfl, ⟨_, hparse⟩, hvisible⟩, acceptableFrom_nil _⟩, ?_⟩
            simp [recordsOf, hparse, Except.toOption]
        | @record _ _ _ _ r hparse hseq hrest =>
            obtain ⟨haccept, hrecords⟩ := (ih (by rw [hnext r]; omega)).mp hrest
            rw [hnext r] at haccept
            refine ⟨⟨.inl ⟨r, hparse, (hadmits E r hlt).mp hseq⟩, haccept⟩, ?_⟩
            simp [hrecords, recordsOf, hparse, Except.toOption]
      · rintro ⟨⟨⟨r, hparse, hseq⟩ | ⟨rfl, ⟨e, hparse⟩, hvisible⟩, hrest⟩, rfl⟩
        · rw [← hnext r] at hrest
          refine .record hparse ((hadmits E r hlt).mpr hseq) ?_
          refine (ih (by rw [hnext r]; omega)).mpr ⟨hrest, ?_⟩
          simp [recordsOf, hparse, Except.toOption]
        · simpa [recordsOf, hparse, Except.toOption] using Replays.torn hparse hvisible

theorem NumberedFrom.acceptable {start : ℕ} {texts : List String}
    (h : NumberedFrom codec seq start texts) : AcceptableFrom codec seq start texts :=
  fun i line hline => .inl (h i line hline)

/-- Records written in the order of their numbers are numbered lines. -/
theorem Codec.Lawful.numberedFrom (hlaw : codec.Lawful) {start : ℕ} {rs : List R}
    (hseq : ∀ i r, rs[i]? = some r → seq r = start + i) :
    NumberedFrom codec seq start (rs.map fun r => String.ofList (codec.text r)) := by
  intro i line hline
  rw [List.getElem?_map, Option.map_eq_some_iff] at hline
  obtain ⟨r, hr, rfl⟩ := hline
  exact ⟨r, hlaw.parse_text r, hseq i r hr⟩

variable {texts texts' : List String}

/-- The number a line carries is where it stands. -/
theorem NumberedFrom.injective (h : NumberedFrom codec seq 0 texts) {i j : ℕ} {line : String}
    (hi : texts[i]? = some line) (hj : texts[j]? = some line) : i = j := by
  obtain ⟨r, hparse, hseq⟩ := h i line hi
  obtain ⟨r', hparse', hseq'⟩ := h j line hj
  obtain rfl := Except.ok.inj (hparse.symm.trans hparse')
  omega

/-- Lines of a valid journal are acceptable as its beginning only. -/
theorem NumberedFrom.isPrefix (h : NumberedFrom codec seq 0 texts) (hsub : texts' ⊆ texts)
    (haccept : AcceptableFrom codec seq 0 texts') : texts' <+: texts := by
  rw [List.prefix_iff_getElem?]
  intro i hi
  have hline : texts'[i]? = some texts'[i] := List.getElem?_eq_getElem hi
  obtain ⟨j, hj⟩ := List.mem_iff_getElem?.mp (hsub (List.getElem_mem hi))
  obtain ⟨r, hparse, hseq⟩ := h j _ hj
  rcases haccept i _ hline with ⟨r', hparse', hseq'⟩ | ⟨-, ⟨e, hparse'⟩, -⟩
  · obtain rfl := Except.ok.inj (hparse.symm.trans hparse')
    obtain rfl : i = j := by omega
    exact hj
  · simp [hparse] at hparse'

theorem mem_without_iff {deleted : ℕ → Bool} {line : String} :
    line ∈ without deleted texts ↔ ∃ i, texts[i]? = some line ∧ deleted i = false := by
  simp [without, List.mem_zipIdx_iff_getElem?]

/-- What was made of the lines of a valid journal is not acceptable. -/
theorem NumberedFrom.not_acceptable (h : NumberedFrom codec seq 0 texts)
    (htampers : Tampers codec seq texts texts') : ¬ AcceptableFrom codec seq 0 texts' := by
  intro haccept
  cases htampers with
  | @delete _ deleted i j hij hj hdeleted hkept =>
      have hsub : without deleted texts ⊆ texts := by
        intro line hline
        obtain ⟨k, hk, -⟩ := mem_without_iff.mp hline
        exact List.mem_of_getElem? hk
      have hinitial := h.isPrefix hsub haccept
      have hline : texts[j]? = some texts[j] := List.getElem?_eq_getElem hj
      obtain ⟨p, hp⟩ := List.mem_iff_getElem?.mp (mem_without_iff.mpr ⟨j, hline, hkept⟩)
      obtain ⟨hlt, -⟩ := List.getElem?_eq_some_iff.mp hp
      have hp' : texts[p]? = some texts[j] := by
        rw [← hp]
        exact (List.prefix_iff_getElem?.mp hinitial p hlt).trans
          (List.getElem?_eq_getElem hlt).symm
      obtain rfl := h.injective hp' hline
      have hi : i < (without deleted texts).length := by omega
      have hstill := List.prefix_iff_getElem?.mp hinitial i hi
      obtain ⟨k, hk, hkept'⟩ := mem_without_iff.mp (List.getElem_mem hi)
      obtain rfl := h.injective hstill hk
      simp [hdeleted] at hkept'
  | reorder hperm hne =>
      have hinitial := h.isPrefix hperm.subset haccept
      exact hne (hinitial.eq_of_length hperm.length_eq)
  | @copy front back line hline =>
      have hsub : front ++ line :: back ⊆ front ++ back := by
        intro other hother
        rw [List.mem_append, List.mem_cons] at hother
        rcases hother with hfront | rfl | hback
        · exact List.mem_append_left _ hfront
        · exact hline
        · exact List.mem_append_right _ hback
      have hlen := (h.isPrefix hsub haccept).length_le
      rw [List.length_append, List.length_append, List.length_cons] at hlen
      omega
  | @overwrite front back line text hback hother =>
      have htext : (front ++ text :: back)[front.length]? = some text := by simp
      rcases haccept _ _ htext with ⟨r, hparse, hseq⟩ | ⟨hlast, -⟩
      · exact hother r hparse (by omega)
      · have hpos := List.length_pos_iff.mpr hback
        rw [List.length_append, List.length_cons] at hlast
        omega

end Journal
