/-
# Blocks of lines

Lines joined by line ends, the way the head of a message is written. Where no line is
empty or has a line end in it, the lines are read back, and the first blank line is the
one behind the block.
-/

import UnidppLog.Text.Search

namespace Text

/-- Lines with a line end between each two of them. -/
def block (lines : List (List Char)) : List Char :=
  ['\r', '\n'].intercalate lines

@[simp]
theorem block_singleton (line : List Char) : block [line] = line :=
  List.intercalate_singleton

theorem block_cons_cons (line next : List Char) (rest : List (List Char)) :
    block (line :: next :: rest) = line ++ '\r' :: '\n' :: block (next :: rest) := by
  rw [block, List.intercalate_cons_cons, List.append_assoc]
  rfl

/-- A line that can stand in a block. -/
structure IsLine (line : List Char) : Prop where
  ne_nil : line ≠ []
  no_return : '\r' ∉ line
  no_feed : '\n' ∉ line

/-- A line with its end is the first piece of a text. -/
theorem splitInclusive_append {α : Type*} {ends : α → Bool} {piece : List α} {a : α}
    (hpiece : ∀ x ∈ piece, ends x = false) (ha : ends a = true) (rest : List α) :
    splitInclusive ends (piece ++ a :: rest) = (piece ++ [a]) :: splitInclusive ends rest := by
  induction piece with
  | nil => simp [splitInclusive, ha]
  | cons x piece ih =>
      have hx : ends x = false := hpiece x List.mem_cons_self
      have htail := ih fun y hy => hpiece y (List.mem_cons_of_mem _ hy)
      rw [List.cons_append, splitInclusive, if_neg (by simp [hx]), htail]
      rfl

theorem splitInclusive_of_none {α : Type*} {ends : α → Bool} {piece : List α} (hne : piece ≠ [])
    (hpiece : ∀ x ∈ piece, ends x = false) : splitInclusive ends piece = [piece] := by
  induction piece with
  | nil => exact absurd rfl hne
  | cons x piece ih =>
      have hx : ends x = false := hpiece x List.mem_cons_self
      rw [splitInclusive, if_neg (by simp [hx])]
      cases piece with
      | nil => rfl
      | cons y piece =>
          rw [ih (by simp) fun z hz => hpiece z (List.mem_cons_of_mem _ hz)]

/-- The lines of a block are read back. -/
theorem textLines_block {lines : List (List Char)} (h : ∀ line ∈ lines, IsLine line) :
    textLines (block lines) = lines := by
  induction lines with
  | nil => rfl
  | cons line rest ih =>
      have hline := h line List.mem_cons_self
      have hfeed : ∀ c ∈ line, decide (c = '\n') = false := fun c hc =>
        decide_eq_false fun heq => hline.no_feed (heq ▸ hc)
      cases rest with
      | nil =>
          rw [block_singleton, textLines, splitInclusive_of_none hline.ne_nil hfeed]
          simp [chomp_of_not_mem hline.no_feed]
      | cons next rest =>
          have htail := ih fun l hl => h l (List.mem_cons_of_mem _ hl)
          have hcut : splitInclusive (fun c => decide (c = '\n'))
              (line ++ '\r' :: '\n' :: block (next :: rest)) = (line ++ ['\r'] ++ ['\n']) ::
                splitInclusive (fun c => decide (c = '\n')) (block (next :: rest)) := by
            have hpiece : ∀ c ∈ line ++ ['\r'], decide (c = '\n') = false := by
              intro c hc
              rcases List.mem_append.mp hc with hc | hc
              · exact hfeed c hc
              · rw [List.mem_singleton.mp hc]
                decide
            have hwhole := splitInclusive_append hpiece (a := '\n') (by decide)
              (block (next :: rest))
            rwa [List.append_assoc, List.singleton_append] at hwhole
          have hchomp : chomp (line ++ ['\r'] ++ ['\n']) = line := by
            simp [chomp]
          rw [block_cons_cons, textLines, hcut, List.map_cons, hchomp]
          exact congrArg _ htail

/-- In front of something that does not go on with the needle, a line and its end have no
occurrence of the needle in them. -/
theorem First.append {α : Type*} {a b : α} {rest line front : List α} (hab : a ≠ b)
    (hline : a ∉ line) (hfront : First (a :: b :: a :: rest) front)
    (hhead : (front ++ a :: b :: a :: rest).head? ≠ some a) :
    First (a :: b :: a :: rest) (line ++ a :: b :: front) := by
  intro j hj hprefix
  have hwhole : line ++ a :: b :: front ++ a :: b :: a :: rest =
      line ++ a :: b :: (front ++ a :: b :: a :: rest) := by simp
  rw [hwhole] at hprefix
  rcases Nat.lt_or_ge j line.length with hlt | hge
  · -- An occurrence within the line starts with one of its elements.
    rw [List.drop_append_of_le_length hlt.le] at hprefix
    obtain ⟨c, more, hmore⟩ := List.exists_cons_of_ne_nil (List.ne_nil_of_length_pos
      (show 0 < (line.drop j).length by simp; omega))
    rw [hmore, List.cons_append, List.cons_prefix_cons] at hprefix
    obtain ⟨rfl, -⟩ := hprefix
    exact hline (List.mem_of_mem_drop (i := j) (by rw [hmore]; exact List.mem_cons_self))
  · obtain ⟨k, rfl⟩ := Nat.exists_eq_add_of_le hge
    rw [List.drop_length_add_append] at hprefix
    rcases k with - | - | k
    · simp only [List.drop_zero, List.cons_prefix_cons, true_and] at hprefix
      obtain ⟨more, hmore⟩ := hprefix
      exact hhead (by rw [← hmore]; rfl)
    · simp only [Nat.zero_add, List.drop_succ_cons, List.drop_zero,
        List.cons_prefix_cons] at hprefix
      exact hab hprefix.1
    · simp only [List.drop_succ_cons] at hprefix
      refine hfront k ?_ hprefix
      simp only [List.length_append, List.length_cons] at hj
      omega

/-- The first blank line behind a block is the one that ends it. -/
theorem first_block {lines : List (List Char)} (hne : lines ≠ [])
    (h : ∀ line ∈ lines, IsLine line) : First [13, 10, 13, 10] (encode (block lines)) := by
  have hbyte : ∀ line : List Char, IsLine line → (13 : UInt8) ∉ encode line :=
    fun line hline hmem => hline.no_return ((mem_encode_iff (a := '\r') (by decide)).mp hmem)
  induction lines with
  | nil => exact absurd rfl hne
  | cons line rest ih =>
      have hline := h line List.mem_cons_self
      cases rest with
      | nil =>
          rw [block_singleton]
          exact First.of_not_mem (hbyte line hline)
      | cons next rest =>
          have hnext := h next (by simp)
          have htail := ih (by simp) fun l hl => h l (List.mem_cons_of_mem _ hl)
          have hends : encode ('\r' :: '\n' :: block (next :: rest)) =
              13 :: 10 :: encode (block (next :: rest)) := by
            rw [encode_cons, encode_cons]
            rfl
          have hstart : (encode (block (next :: rest)) ++ [13, 10, 13, 10]).head? ≠
              some (13 : UInt8) := by
            obtain ⟨more, hmore⟩ : ∃ more, block (next :: rest) = next ++ more := by
              cases rest with
              | nil => exact ⟨[], by simp⟩
              | cons after rest => exact ⟨_, block_cons_cons next after rest⟩
            have hne : encode next ≠ [] := fun hnil => hnext.ne_nil (encode_eq_nil_iff.mp hnil)
            obtain ⟨b, bytes, hbytes⟩ := List.exists_cons_of_ne_nil hne
            rw [hmore, encode_append, hbytes]
            rintro hfirst
            obtain rfl : b = 13 := by simpa using hfirst
            exact hbyte next hnext (by rw [hbytes]; exact List.mem_cons_self)
          rw [block_cons_cons, encode_append, hends]
          exact First.append (by decide) (hbyte line hline) htail hstart

end Text
