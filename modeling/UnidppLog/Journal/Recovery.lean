/-
# Recovery and appending

What replay makes of a journal that further lines are written to. Behind clean
bytes a written record is recovered, a torn one is forgiven and a complete one
without its line feed counts. Behind any other bytes that replay accepts, the
next record is lost: it is run into the rest of the last line, or leaves a line
that is no record in the middle of the file.
-/

import UnidppLog.Journal.Replay

namespace Journal

open Text

universe u

variable {R : Type u} {codec : Codec R} {admits : List R → R → Prop}

namespace Codec

theorem line_ne_nil (codec : Codec R) (r : R) : codec.line r ≠ [] := by
  simp [line]

theorem terminated_line (codec : Codec R) (r : R) : Terminated (codec.line r) :=
  terminated_concat _

theorem written_cons (codec : Codec R) (r : R) (rs : List R) :
    codec.written (r :: rs) = codec.line r ++ codec.written rs := by
  simp [written]

theorem written_concat (codec : Codec R) (rs : List R) (r : R) :
    codec.written (rs ++ [r]) = codec.written rs ++ codec.line r := by
  simp [written]

namespace Lawful

theorem text_ne_nil (hlaw : codec.Lawful) (r : R) : codec.text r ≠ [] := by
  intro hnil
  refine hlaw.record_visible _ r (hlaw.parse_text r) ?_
  simp [hnil, Blank]

/-- A text that was begun is not blank. -/
theorem visible (hlaw : codec.Lawful) {r : R} {cs : List Char} (hinitial : cs <+: codec.text r)
    (hne : cs ≠ []) : ¬ Blank cs := by
  obtain ⟨c, rest, heq, -, hc⟩ := hlaw.opens r
  obtain ⟨d, ds, rfl⟩ := List.exists_cons_of_ne_nil hne
  rw [heq] at hinitial
  obtain ⟨rfl, -⟩ := List.cons_prefix_cons.mp hinitial
  intro hblank
  simp [hblank d List.mem_cons_self] at hc

theorem newline_not_mem (hlaw : codec.Lawful) (r : R) : newline ∉ codec.bytes r := by
  rw [bytes, newline_mem_encode_iff]
  exact hlaw.newline_free r

theorem lines_line (hlaw : codec.Lawful) (r : R) :
    lines (codec.line r) = [.ok (String.ofList (codec.text r))] :=
  lines_encode_newline (hlaw.newline_free r) (hlaw.no_return r)

theorem lines_written (hlaw : codec.Lawful) (rs : List R) :
    lines (codec.written rs) = (rs.map fun r => String.ofList (codec.text r)).map .ok := by
  induction rs with
  | nil => rfl
  | cons r rs ih =>
      rw [written_cons, lines_append (codec.terminated_line r), hlaw.lines_line, ih]
      rfl

/-- Bytes that end no line and a record written behind them are one line. -/
theorem lines_fused (hlaw : codec.Lawful) {tail : List UInt8} (htail : newline ∉ tail) (r : R) :
    ∃ x, lines (tail ++ codec.line r) = [x] := by
  rw [Codec.line, ← List.append_assoc, lines,
    pieces_newline (by simp [htail, hlaw.newline_not_mem r])]
  exact ⟨_, rfl⟩

/-- A record written behind visible bytes that end no line: the two are read as
one line, and it is no record. -/
theorem not_record_fused (hlaw : codec.Lawful) {tail : List UInt8} (htail : newline ∉ tail)
    (hvisible : ∀ cs, tail = encode cs → ¬ Blank cs) {r r' : R} {line : String}
    (hread : lines (tail ++ codec.line r) = [.ok line]) : codec.parse line ≠ .ok r' := by
  have hfree : newline ∉ tail ++ codec.bytes r := by
    simp [htail, hlaw.newline_not_mem r]
  rw [Codec.line, ← List.append_assoc] at hread
  obtain ⟨cs, rfl⟩ := exists_of_lines_newline hfree hread
  rw [Codec.bytes, ← encode_append] at hread hfree
  have hreturn : (cs ++ codec.text r).getLast? ≠ some '\r' := by
    rw [List.getLast?_append_of_ne_nil _ (hlaw.text_ne_nil r)]
    exact hlaw.no_return r
  rw [lines_encode_newline (by rwa [← newline_mem_encode_iff]) hreturn] at hread
  obtain rfl : String.ofList (cs ++ codec.text r) = line := by simpa using hread
  exact hlaw.not_fused cs r (hvisible cs rfl) r'

end Lawful

end Codec

/-- What follows complete lines is replayed behind their records. -/
theorem recovers_append_iff {front back : List UInt8} (hfront : Terminated front)
    (hback : back ≠ []) {E : List R} :
    Recovers codec admits (front ++ back) E ↔
      ∃ (E₁ : List R) (texts : List String), Clean codec admits front E₁ ∧
        lines back = texts.map .ok ∧ Replays codec admits E₁ texts E := by
  constructor
  · rintro ⟨texts, htexts, hreplays⟩
    rw [lines_append hfront] at htexts
    obtain ⟨texts₁, texts₂, rfl, h₁, h₂⟩ := List.map_eq_append_iff.mp htexts.symm
    have hne : texts₂ ≠ [] := by
      rintro rfl
      have hnil : pieces back = [] := by simpa [lines] using h₂.symm
      exact hback (pieces_eq_nil_iff.mp hnil)
    obtain ⟨E₁, hrecords, hrest⟩ := hreplays.exists_records hne
    exact ⟨E₁, texts₂, ⟨hfront, texts₁, h₁.symm, hrecords⟩, h₂.symm, hrest⟩
  · rintro ⟨E₁, texts₂, ⟨-, texts₁, h₁, hrecords⟩, h₂, hrest⟩
    refine ⟨texts₁ ++ texts₂, ?_, hrecords.append_replays hrest⟩
    rw [lines_append hfront, h₁, h₂, List.map_append]

theorem Clean.append {bytes : List UInt8} {E : List R} {r : R} (hlaw : codec.Lawful)
    (hclean : Clean codec admits bytes E) (hseq : admits E r) :
    Clean codec admits (bytes ++ codec.line r) (E ++ [r]) := by
  obtain ⟨hterm, texts, htexts, hrecords⟩ := hclean
  refine ⟨hterm.append (codec.terminated_line r), texts ++ [String.ofList (codec.text r)], ?_,
    hrecords.append (.record (hlaw.parse_text r) hseq (.done _))⟩
  rw [lines_append hterm, htexts, hlaw.lines_line r]
  simp

/-- The records are each in sequence behind those before them. -/
def Sequenced (admits : List R → R → Prop) : List R → List R → Prop
  | _, [] => True
  | E, r :: rs => admits E r ∧ Sequenced admits (E ++ [r]) rs

theorem Clean.written {bytes : List UInt8} {E rs : List R} (hlaw : codec.Lawful)
    (hclean : Clean codec admits bytes E) (hseq : Sequenced admits E rs) :
    Clean codec admits (bytes ++ codec.written rs) (E ++ rs) := by
  induction rs generalizing bytes E with
  | nil => simpa [Codec.written] using hclean
  | cons r rs ih =>
      have hnext := ih (hclean.append hlaw hseq.1) hseq.2
      rw [Codec.written_cons]
      simpa using hnext

/-- A prefix of a line is the whole line or a prefix of its text. -/
theorem prefix_line_cases {codec : Codec R} {r : R} {part : List UInt8}
    (hpart : part <+: codec.line r) : part = codec.line r ∨ part <+: codec.bytes r := by
  rw [Codec.line] at hpart
  exact (List.prefix_concat_iff.mp hpart).imp id id

/-- Behind clean bytes, a prefix of a line that cuts no character is recovered:
it counts when it holds the whole text, and is forgiven otherwise. -/
theorem Clean.recovers_part {bytes part : List UInt8} {E : List R} {r : R}
    (hlaw : codec.Lawful) (hclean : Clean codec admits bytes E) (hseq : admits E r)
    (hpart : part <+: codec.line r) {cs : List Char} (htext : part = encode cs) :
    Recovers codec admits (bytes ++ part)
      (E ++ if codec.bytes r <+: part then [r] else []) := by
  rcases prefix_line_cases hpart with rfl | hinitial
  · rw [if_pos (by simp [Codec.line])]
    exact (hclean.append hlaw hseq).recovers
  · subst htext
    have hcs : cs <+: codec.text r := by
      obtain ⟨rest, hrest⟩ := hinitial
      obtain ⟨ds, -, hds⟩ := exists_of_encode_append hrest
      exact ⟨ds, hds.symm⟩
    have hiff : codec.bytes r <+: encode cs ↔ cs = codec.text r := by
      constructor
      · intro hback
        exact encode_injective (hinitial.eq_of_length_le hback.length_le)
      · rintro rfl
        exact List.prefix_rfl
    rcases eq_or_ne cs [] with rfl | hne
    · have hnot : ¬ codec.bytes r <+: encode [] :=
        fun h => hlaw.text_ne_nil r (hiff.mp h).symm
      rw [if_neg hnot]
      simpa using hclean.recovers
    · have hline : '\n' ∉ cs := fun h => hlaw.newline_free r (hcs.subset h)
      refine (recovers_append_iff hclean.1 (by rwa [Ne, encode_eq_nil_iff])).mpr
        ⟨E, [String.ofList cs], hclean, lines_encode hne hline, ?_⟩
      by_cases hwhole : cs = codec.text r
      · rw [if_pos (hiff.mpr hwhole)]
        subst hwhole
        exact .record (hlaw.parse_text r) hseq (.done _)
      · rw [if_neg (mt hiff.mp hwhole), List.append_nil]
        cases hparse : codec.parse (String.ofList cs) with
        | ok r' => exact absurd hparse (hlaw.prefix_free r cs hcs hwhole r')
        | error e => exact .torn hparse (by simpa using hlaw.visible hcs hne)

/-- A prefix of a line that cuts a character makes the journal unreadable. -/
theorem not_recovers_of_decode_eq_none {bytes part : List UInt8} {r : R} (hlaw : codec.Lawful)
    (hterm : Terminated bytes) (hpart : part <+: codec.line r) (hnone : decode part = none)
    (E : List R) : ¬ Recovers codec admits (bytes ++ part) E := by
  have hne : part ≠ [] := by
    rintro rfl
    exact absurd (decode_encode []) (by rw [encode_nil, hnone]; simp)
  have hfree : newline ∉ part := by
    rcases prefix_line_cases hpart with rfl | hinitial
    · rw [Codec.line, Codec.bytes, encode_newline, decode_encode] at hnone
      simp at hnone
    · exact fun h => hlaw.newline_not_mem r (hinitial.subset h)
  rw [recovers_append_iff hterm hne]
  rintro ⟨E₁, texts, -, htexts, -⟩
  rw [lines_of_decode_eq_none hnone hfree] at htexts
  cases texts with
  | nil => simp at htexts
  | cons line rest => simp at htexts

/-- Lines that replay accepts are all records, or all but a last one that is
not blank. -/
theorem Replays.records_or_torn {E E' : List R} {texts : List String}
    (h : Replays codec admits E texts E') :
    Records codec admits E texts E' ∨
      ∃ (front : List String) (line : String), texts = front ++ [line] ∧
        Records codec admits E front E' ∧ ∀ r, codec.parse line ≠ .ok r := by
  induction h with
  | done E => exact .inl (.done E)
  | @torn E line e hparse hvisible =>
      exact .inr ⟨[], line, rfl, .done E, fun r hr => by simp [hparse] at hr⟩
  | @record E E' line rest r hparse hseq _ ih =>
      rcases ih with hrecords | ⟨front, last, rfl, hrecords, hlast⟩
      · exact .inl (.record hparse hseq hrecords)
      · exact .inr ⟨line :: front, last, rfl, .record hparse hseq hrecords, hlast⟩

/-- Bytes that replay accepts are clean, or end in a torn line with its line
feed, or in a visible rest without one. -/
theorem Recovers.cases (hlaw : codec.Lawful) {bytes : List UInt8} {E : List R}
    (h : Recovers codec admits bytes E) :
    Clean codec admits bytes E ∨
      (Terminated bytes ∧ ∃ (texts : List String) (line : String),
        lines bytes = (texts ++ [line]).map .ok ∧ ∀ r, codec.parse line ≠ .ok r) ∨
      ∃ (front tail : List UInt8) (E₁ : List R) (cs : List Char), bytes = front ++ tail ∧
        newline ∉ tail ∧ Clean codec admits front E₁ ∧ E₁.length ≤ E.length ∧
          tail = encode cs ∧ ¬ Blank cs := by
  obtain ⟨front, tail, rfl, hfront, htail⟩ := exists_terminated_append bytes
  rcases eq_or_ne tail [] with rfl | hne
  · rw [List.append_nil] at h ⊢
    obtain ⟨texts, htexts, hreplays⟩ := h
    rcases hreplays.records_or_torn with hrecords | ⟨ts, line, rfl, -, hline⟩
    · exact .inl ⟨hfront, texts, htexts, hrecords⟩
    · exact .inr (.inl ⟨hfront, ts, line, htexts, hline⟩)
  · obtain ⟨E₁, texts, hclean, htexts, hreplays⟩ := (recovers_append_iff hfront hne).mp h
    refine .inr (.inr ?_)
    cases hdecode : decode tail with
    | none =>
        rw [lines_of_decode_eq_none hdecode htail] at htexts
        cases texts <;> simp at htexts
    | some cs =>
        obtain rfl := decode_eq_some_iff.mp hdecode
        refine ⟨front, encode cs, E₁, cs, rfl, htail, hclean, hreplays.length_le, rfl, ?_⟩
        rw [lines_encode (by rwa [Ne, encode_eq_nil_iff] at hne)
          (by rwa [← newline_mem_encode_iff])] at htexts
        obtain ⟨line, rfl⟩ : ∃ line, texts = [line] := by
          have hlen := congrArg List.length htexts
          exact List.length_eq_one_iff.mp (by simpa using hlen.symm)
        obtain rfl : String.ofList cs = line := by simpa using htexts
        cases hreplays with
        | torn hparse hvisible => simpa using hvisible
        | record hparse => exact hlaw.record_visible cs _ hparse

/-- Behind a visible rest of a line the next record is lost, and with it what is
written later. -/
theorem not_recovers_fused (hlaw : codec.Lawful) {front tail : List UInt8} {E₁ E : List R}
    (hclean : Clean codec admits front E₁) (htail : newline ∉ tail)
    (hvisible : ∀ cs, tail = encode cs → ¬ Blank cs) (hlen : E₁.length < E.length) (r : R)
    {more : List UInt8} : ¬ Recovers codec admits (front ++ (tail ++ codec.line r ++ more)) E := by
  have hne : tail ++ codec.line r ++ more ≠ [] := by simp [codec.line_ne_nil r]
  have hterm : Terminated (tail ++ codec.line r) :=
    (terminated_append_iff (codec.line_ne_nil r)).mpr (codec.terminated_line r)
  obtain ⟨x, hx⟩ := hlaw.lines_fused htail r
  rw [recovers_append_iff hclean.1 hne]
  rintro ⟨E₂, texts, hclean₂, htexts, hreplays⟩
  obtain rfl := hclean.recovers.unique hclean₂.recovers
  rw [lines_append hterm, hx] at htexts
  cases texts with
  | nil => simp at htexts
  | cons line rest =>
      obtain ⟨rfl, -⟩ := List.cons.inj htexts
      have hnot : ∀ r', codec.parse line ≠ .ok r' :=
        fun r' => hlaw.not_record_fused htail hvisible hx
      obtain ⟨-, rfl⟩ := hreplays.of_not_record hnot
      exact absurd hlen (lt_irrefl _)

/-- Records written behind bytes that replay accepts are recovered with what was
there exactly when the bytes are clean. -/
theorem Recovers.written_iff (hlaw : codec.Lawful) {bytes : List UInt8} {E rs : List R}
    (h : Recovers codec admits bytes E) (hne : rs ≠ []) (hseq : Sequenced admits E rs) :
    Recovers codec admits (bytes ++ codec.written rs) (E ++ rs) ↔ Clean codec admits bytes E := by
  refine ⟨fun hrec => ?_, fun hclean => (hclean.written hlaw hseq).recovers⟩
  obtain ⟨r, rs, rfl⟩ := List.exists_cons_of_ne_nil hne
  rcases h.cases hlaw with hclean | ⟨hterm, texts, line, htexts, hline⟩ |
    ⟨front, tail, E₁, cs, rfl, htail, hclean, hlen, hcs, hvisible⟩
  · exact hclean
  · -- The torn line is now in the middle of the file.
    rw [Codec.written_cons] at hrec
    obtain ⟨E₂, -, ⟨-, texts', htexts', hrecords⟩, -, -⟩ :=
      (recovers_append_iff hterm (by simp [codec.line_ne_nil r])).mp hrec
    obtain rfl : texts ++ [line] = texts' :=
      List.map_injective_iff.mpr (fun _ _ h => Except.ok.inj h) (htexts.symm.trans htexts')
    obtain ⟨E₃, -, hlast⟩ := hrecords.exists_append
    cases hlast with
    | record hparse => exact absurd hparse (hline _)
  · -- The next record is run into the rest of the last line.
    rw [Codec.written_cons, List.append_assoc, ← List.append_assoc tail] at hrec
    refine absurd hrec (not_recovers_fused hlaw hclean htail ?_ ?_ r)
    · rintro ds hds
      obtain rfl := encode_injective (hcs.symm.trans hds)
      exact hvisible
    · rw [List.length_append, List.length_cons]
      omega

end Journal
