/-
# Replaying a journal of lines

A journal is a stream of lines, one record a line. Replay accepts the lines that
are records in sequence, and forgives a last line that is no record as long as
it is not blank. What is said here holds of any record type, any line codec and
any rule of sequence: the codec's laws are what makes a line recognizable as
one, complete, torn, or run into by the next.
-/

import UnidppLog.Text.Lines

namespace Journal

open Text

universe u

variable {R : Type u}

/-- A line codec: what one line says, and what is written for a record. -/
structure Codec (R : Type u) where
  parse : String → Except String R
  text : R → List Char

/-- Nothing but white space. -/
def Blank (cs : List Char) : Prop :=
  ∀ c ∈ cs, isWhitespace c = true

/-- The laws of a line codec: a record is read back from its text, the text is
one line that opens with a visible ASCII character, and neither a proper prefix
of it nor it with anything written in front reads as a record. -/
structure Codec.Lawful (codec : Codec R) : Prop where
  parse_text : ∀ r, codec.parse (String.ofList (codec.text r)) = .ok r
  newline_free : ∀ r, '\n' ∉ codec.text r
  no_return : ∀ r, (codec.text r).getLast? ≠ some '\r'
  opens : ∀ r, ∃ c rest, codec.text r = c :: rest ∧ c.toNat < 128 ∧ isWhitespace c = false
  record_visible : ∀ cs r, codec.parse (String.ofList cs) = .ok r → ¬ Blank cs
  prefix_free : ∀ r cs, cs <+: codec.text r → cs ≠ codec.text r →
    ∀ r', codec.parse (String.ofList cs) ≠ .ok r'
  not_fused : ∀ cs r, ¬ Blank cs → ∀ r', codec.parse (String.ofList (cs ++ codec.text r)) ≠ .ok r'

/-- The bytes of a record's line, without its line feed. -/
def Codec.bytes (codec : Codec R) (r : R) : List UInt8 :=
  encode (codec.text r)

/-- The bytes written for a record. -/
def Codec.line (codec : Codec R) (r : R) : List UInt8 :=
  codec.bytes r ++ [newline]

/-- The bytes written for a sequence of records. -/
def Codec.written (codec : Codec R) (rs : List R) : List UInt8 :=
  rs.flatMap codec.line

section Replay

variable (codec : Codec R) (admits : List R → R → Prop)

/-- The lines are records, in sequence behind those of `E`. -/
inductive Records : List R → List String → List R → Prop
  | done (E : List R) : Records E [] E
  | record {E E' : List R} {line : String} {rest : List String} {r : R}
      (hparse : codec.parse line = .ok r) (hseq : admits E r) :
      Records (E ++ [r]) rest E' → Records E (line :: rest) E'

/-- The lines are records in sequence, but for a last one that is torn. -/
inductive Replays : List R → List String → List R → Prop
  | done (E : List R) : Replays E [] E
  | torn {E : List R} {line e : String} (hparse : codec.parse line = .error e)
      (hvisible : ¬ Blank line.toList) : Replays E [line] E
  | record {E E' : List R} {line : String} {rest : List String} {r : R}
      (hparse : codec.parse line = .ok r) (hseq : admits E r) :
      Replays (E ++ [r]) rest E' → Replays E (line :: rest) E'

/-- Replaying these bytes from an empty log ends with the records `E`. -/
def Recovers (bytes : List UInt8) (E : List R) : Prop :=
  ∃ texts : List String, lines bytes = texts.map .ok ∧ Replays codec admits [] texts E

/-- The bytes are complete lines and nothing else, one for each record of `E`. -/
def Clean (bytes : List UInt8) (E : List R) : Prop :=
  Terminated bytes ∧ ∃ texts : List String, lines bytes = texts.map .ok ∧
    Records codec admits [] texts E

variable {codec admits}

theorem Records.replays {E E' : List R} {texts : List String}
    (h : Records codec admits E texts E') : Replays codec admits E texts E' := by
  induction h with
  | done E => exact .done E
  | record hparse hseq _ ih => exact .record hparse hseq ih

theorem Replays.unique {E E₁ E₂ : List R} {texts : List String}
    (h₁ : Replays codec admits E texts E₁) (h₂ : Replays codec admits E texts E₂) : E₁ = E₂ := by
  induction h₁ with
  | done E => cases h₂; rfl
  | torn hparse hvisible =>
      cases h₂ with
      | torn => rfl
      | record hparse' => simp [hparse] at hparse'
  | record hparse hseq _ ih =>
      cases h₂ with
      | torn hparse' => simp [hparse] at hparse'
      | record hparse' hseq' hrest =>
          obtain rfl := Except.ok.inj (hparse.symm.trans hparse')
          exact ih hrest

theorem Records.append {E E₁ E₂ : List R} {texts more : List String}
    (h : Records codec admits E texts E₁) (hmore : Records codec admits E₁ more E₂) :
    Records codec admits E (texts ++ more) E₂ := by
  induction h with
  | done E => exact hmore
  | record hparse hseq _ ih => exact .record hparse hseq (ih hmore)

theorem Records.append_replays {E E₁ E₂ : List R} {texts more : List String}
    (h : Records codec admits E texts E₁) (hmore : Replays codec admits E₁ more E₂) :
    Replays codec admits E (texts ++ more) E₂ := by
  induction h with
  | done E => exact hmore
  | record hparse hseq _ ih => exact .record hparse hseq (ih hmore)

/-- The lines in front of further ones are records. -/
theorem Replays.exists_records {E E₂ : List R} {texts more : List String}
    (h : Replays codec admits E (texts ++ more) E₂) (hmore : more ≠ []) :
    ∃ E₁, Records codec admits E texts E₁ ∧ Replays codec admits E₁ more E₂ := by
  induction texts generalizing E with
  | nil => exact ⟨E, .done E, h⟩
  | cons line rest ih =>
      rw [List.cons_append] at h
      cases hrest : rest ++ more with
      | nil => exact absurd (List.append_eq_nil_iff.mp hrest).2 hmore
      | cons next others =>
          rw [hrest] at h
          cases h with
          | record hparse hseq htail =>
              rw [← hrest] at htail
              obtain ⟨E₁, hrecords, hreplays⟩ := ih htail
              exact ⟨E₁, .record hparse hseq hrecords, hreplays⟩

theorem Records.exists_append {E E₂ : List R} {texts more : List String}
    (h : Records codec admits E (texts ++ more) E₂) :
    ∃ E₁, Records codec admits E texts E₁ ∧ Records codec admits E₁ more E₂ := by
  induction texts generalizing E with
  | nil => exact ⟨E, .done E, h⟩
  | cons line rest ih =>
      cases h with
      | record hparse hseq htail =>
          obtain ⟨E₁, hrecords, hmore⟩ := ih htail
          exact ⟨E₁, .record hparse hseq hrecords, hmore⟩

theorem Replays.length_le {E E' : List R} {texts : List String}
    (h : Replays codec admits E texts E') : E.length ≤ E'.length := by
  induction h with
  | done E => exact le_rfl
  | torn => exact le_rfl
  | record _ _ _ ih =>
      rw [List.length_append, List.length_singleton] at ih
      omega

/-- What was there stays in front. -/
theorem Replays.isPrefix {E E' : List R} {texts : List String}
    (h : Replays codec admits E texts E') : E <+: E' := by
  induction h with
  | done E => exact List.prefix_rfl
  | torn => exact List.prefix_rfl
  | record _ _ _ ih => exact (List.prefix_append _ _).trans ih

/-- A line that is a record becomes the entry at its place. -/
theorem Replays.getElem? {E E' : List R} {texts : List String}
    (h : Replays codec admits E texts E') {i : ℕ} {line : String} (hline : texts[i]? = some line)
    {r : R} (hr : codec.parse line = .ok r) : E'[E.length + i]? = some r := by
  induction h generalizing i with
  | done E => simp at hline
  | torn hparse hvisible =>
      cases i with
      | zero =>
          obtain rfl : _ = line := by simpa using hline
          simp [hparse] at hr
      | succ i => simp at hline
  | @record E E' first rest r' hparse _ hrest ih =>
      cases i with
      | zero =>
          obtain rfl : first = line := by simpa using hline
          obtain rfl := Except.ok.inj (hparse.symm.trans hr)
          exact List.prefix_iff_getElem?.mp hrest.isPrefix E.length (by simp) |>.trans (by simp)
      | succ i =>
          have hnext := ih (i := i) hline
          rwa [List.length_append, List.length_singleton, Nat.add_right_comm,
            Nat.add_assoc] at hnext

/-- A line in front of others is a record. -/
theorem Replays.exists_parse {E E' : List R} {texts : List String}
    (h : Replays codec admits E texts E') {i : ℕ} {line : String} (hline : texts[i]? = some line)
    (hlt : i + 1 < texts.length) : ∃ r, codec.parse line = .ok r := by
  induction h generalizing i with
  | done E => simp at hlt
  | torn => simp at hlt
  | @record E E' first rest r hparse _ _ ih =>
      cases i with
      | zero =>
          obtain rfl : first = line := by simpa using hline
          exact ⟨r, hparse⟩
      | succ i => exact ih (i := i) hline (by simpa using hlt)

/-- Replay stops at a line that is no record, which must be the last one. -/
theorem Replays.of_not_record {E E' : List R} {line : String} {rest : List String}
    (h : Replays codec admits E (line :: rest) E')
    (hline : ∀ r, codec.parse line ≠ .ok r) : rest = [] ∧ E' = E := by
  cases h with
  | torn => exact ⟨rfl, rfl⟩
  | record hparse => exact absurd hparse (hline _)

theorem Recovers.unique {bytes : List UInt8} {E₁ E₂ : List R}
    (h₁ : Recovers codec admits bytes E₁) (h₂ : Recovers codec admits bytes E₂) : E₁ = E₂ := by
  obtain ⟨texts, htexts, hreplays⟩ := h₁
  obtain ⟨texts', htexts', hreplays'⟩ := h₂
  obtain rfl : texts = texts' := by
    have hmap := htexts.symm.trans htexts'
    exact List.map_injective_iff.mpr (fun _ _ h => Except.ok.inj h) hmap
  exact hreplays.unique hreplays'

theorem Clean.recovers {bytes : List UInt8} {E : List R} (h : Clean codec admits bytes E) :
    Recovers codec admits bytes E := by
  obtain ⟨-, texts, htexts, hrecords⟩ := h
  exact ⟨texts, htexts, hrecords.replays⟩

theorem clean_nil : Clean codec admits [] [] :=
  ⟨terminated_nil, [], rfl, .done []⟩

end Replay

end Journal
