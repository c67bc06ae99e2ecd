/-
# First occurrences

What stands in front of the first occurrence of some elements. It does not depend on
what follows, and what is cut off before the occurrence is complete has none. Cutting
at single elements gives the lines and the words of a text.
-/

import UnidppLog.Text.Lines
import Mathlib.Data.List.Infix
import Mathlib.Data.Nat.Find

namespace Text

universe u

variable {α : Type u}

/-- Behind `front`, `needle` occurs for the first time. -/
def First (needle front : List α) : Prop :=
  ∀ j < front.length, ¬ needle <+: (front ++ needle).drop j

namespace First

variable {needle front back : List α}

/-- Elements without the first one of the needle are in front of its first occurrence. -/
theorem of_not_mem {a : α} {rest : List α} (hnot : a ∉ front) : First (a :: rest) front := by
  intro j hj hprefix
  rw [List.drop_append_of_le_length hj.le] at hprefix
  obtain ⟨b, more, hmore⟩ := List.exists_cons_of_ne_nil (List.ne_nil_of_length_pos
    (show 0 < (front.drop j).length by simp; omega))
  rw [hmore, List.cons_append, List.cons_prefix_cons] at hprefix
  obtain ⟨rfl, -⟩ := hprefix
  exact hnot (List.mem_of_mem_drop (i := j) (by rw [hmore]; exact List.mem_cons_self))

/-- An occurrence lies within as many elements as it takes. -/
theorem prefix_drop_of_append {j : ℕ} {whole : List α} (hj : j + needle.length ≤ whole.length)
    (h : needle <+: (whole ++ back).drop j) : needle <+: whole.drop j := by
  rw [List.drop_append_of_le_length (by omega)] at h
  refine List.prefix_of_prefix_length_le h (List.prefix_append _ _) ?_
  rw [List.length_drop]
  omega

/-- Nothing that follows makes an earlier occurrence. -/
theorem not_prefix_drop (h : First needle front) (back : List α) {j : ℕ} (hj : j < front.length) :
    ¬ needle <+: (front ++ needle ++ back).drop j := by
  intro hprefix
  refine h j hj (prefix_drop_of_append ?_ hprefix)
  rw [List.length_append]
  omega

theorem prefix_drop (needle front back : List α) :
    needle <+: (front ++ needle ++ back).drop front.length := by
  simp

end First

/-- Whatever occurs, occurs for the first time somewhere. -/
theorem exists_first {needle haystack : List α} (h : needle <:+: haystack) :
    ∃ front back, haystack = front ++ needle ++ back ∧ First needle front := by
  classical
  have hsome : ∃ j, needle <+: haystack.drop j := by
    obtain ⟨before, after, rfl⟩ := h
    exact ⟨before.length, by simp⟩
  obtain ⟨back, hback⟩ := Nat.find_spec hsome
  have hwhole : haystack = haystack.take (Nat.find hsome) ++ needle ++ back := by
    rw [List.append_assoc, hback, List.take_append_drop]
  refine ⟨_, back, hwhole, fun j hj hprefix => ?_⟩
  have hlt : j < Nat.find hsome := hj.trans_le (List.length_take_le _ _)
  refine Nat.find_min hsome hlt ?_
  rw [hwhole, List.drop_append_of_le_length]
  · exact hprefix.trans (List.prefix_append _ _)
  · rw [List.length_append]
    omega

/-- Elements cut behind every one that ends a piece. -/
def splitInclusive (ends : α → Bool) : List α → List (List α)
  | [] => []
  | a :: rest =>
    if ends a then [a] :: splitInclusive ends rest
    else
      match splitInclusive ends rest with
      | [] => [[a]]
      | piece :: more => (a :: piece) :: more

/-- `str::lines`. -/
def textLines (cs : List Char) : List (List Char) :=
  (splitInclusive (· = '\n') cs).map chomp

/-- `str::split_whitespace`. -/
def words (cs : List Char) : List (List Char) :=
  (cs.splitOnP isWhitespace).filter (· ≠ [])

section

variable [DecidableEq α]

/-- `str::split_once`, at a single element. -/
def splitOnce (a : α) (xs : List α) : Option (List α × List α) :=
  if a ∈ xs then some (xs.takeWhile (· ≠ a), (xs.dropWhile (· ≠ a)).tail) else none

/-- `str::rsplit_once`, at a single element. -/
def rsplitOnce (a : α) (xs : List α) : Option (List α × List α) :=
  (splitOnce a xs.reverse).map fun cut => (cut.2.reverse, cut.1.reverse)

/-- A cut at the first one of an element. -/
theorem splitOnce_eq_some_iff {a : α} {xs front back : List α} :
    splitOnce a xs = some (front, back) ↔ xs = front ++ a :: back ∧ a ∉ front := by
  constructor
  · intro h
    rw [splitOnce] at h
    split at h
    · next hmem =>
      obtain ⟨rfl, rfl⟩ := Prod.mk.inj (Option.some.inj h)
      have hnot : a ∉ xs.takeWhile (· ≠ a) := fun h => by
        simpa using List.mem_takeWhile_imp h
      refine ⟨?_, hnot⟩
      have hdrop : xs.dropWhile (· ≠ a) ≠ [] := by
        intro hnil
        have hall := List.dropWhile_eq_nil_iff.mp hnil a hmem
        simp at hall
      have hhead := List.head_dropWhile_not (fun x => decide (x ≠ a)) hdrop
      have hfirst : (xs.dropWhile (· ≠ a)).head hdrop = a := by simpa using hhead
      conv_lhs => rw [← List.takeWhile_append_dropWhile (p := fun x => decide (x ≠ a)) (l := xs)]
      rw [← List.cons_head_tail hdrop, hfirst]
      simp
    · simp at h
  · rintro ⟨rfl, hnot⟩
    have hall : ∀ x ∈ front, decide (x ≠ a) = true := fun x hx =>
      decide_eq_true fun h => hnot (h ▸ hx)
    rw [splitOnce, if_pos (by simp), List.takeWhile_append_of_pos hall,
      List.dropWhile_append_of_pos hall]
    simp

theorem splitOnce_eq_none_iff {a : α} {xs : List α} : splitOnce a xs = none ↔ a ∉ xs := by
  simp [splitOnce]

/-- A cut at the last one of an element. -/
theorem rsplitOnce_eq_some_iff {a : α} {xs front back : List α} :
    rsplitOnce a xs = some (front, back) ↔ xs = front ++ a :: back ∧ a ∉ back := by
  rw [rsplitOnce, Option.map_eq_some_iff]
  constructor
  · rintro ⟨⟨back', front'⟩, hcut, heq⟩
    obtain ⟨rfl, rfl⟩ := Prod.mk.inj heq
    obtain ⟨hxs, hnot⟩ := splitOnce_eq_some_iff.mp hcut
    refine ⟨?_, by simpa using hnot⟩
    rw [← List.reverse_reverse xs, hxs]
    simp
  · rintro ⟨rfl, hnot⟩
    refine ⟨(back.reverse, front.reverse), ?_, by simp⟩
    exact splitOnce_eq_some_iff.mpr ⟨by simp, by simpa using hnot⟩

theorem rsplitOnce_eq_none_iff {a : α} {xs : List α} : rsplitOnce a xs = none ↔ a ∉ xs := by
  rw [rsplitOnce, Option.map_eq_none_iff, splitOnce_eq_none_iff, List.mem_reverse]

end

/-- White space around a text without any is trimmed. -/
theorem trim_of_blank {left cs right : List Char} (hleft : ∀ c ∈ left, isWhitespace c = true)
    (hright : ∀ c ∈ right, isWhitespace c = true) (hcs : ∀ c ∈ cs, isWhitespace c = false) :
    trim (left ++ (cs ++ right)) = cs := by
  have hstart : (left ++ (cs ++ right)).dropWhile isWhitespace =
      (cs ++ right).dropWhile isWhitespace := List.dropWhile_append_of_pos hleft
  cases cs with
  | nil =>
      have hall : ∀ c ∈ right.dropWhile isWhitespace, isWhitespace c = true :=
        fun c hc => hright c ((List.dropWhile_sublist _).mem hc)
      rw [trim, hstart, List.nil_append, List.rdropWhile_eq_nil_iff]
      exact hall
  | cons c rest =>
      have hself : (c :: rest ++ right).dropWhile isWhitespace = c :: rest ++ right := by
        simp [hcs c List.mem_cons_self]
      have hend : (c :: rest ++ right).rdropWhile isWhitespace =
          (c :: rest).rdropWhile isWhitespace := by
        rw [List.rdropWhile, List.rdropWhile, List.reverse_append,
          List.dropWhile_append_of_pos fun c hc => hright c (List.mem_reverse.mp hc)]
      rw [trim, hstart, hself, hend, List.rdropWhile_eq_self_iff]
      intro hne
      simp [hcs _ (List.getLast_mem hne)]

end Text
