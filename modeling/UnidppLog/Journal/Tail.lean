/-
# The last line of a journal

Whether a journal that replay accepts is clean shows at its end: it is when it
is empty or its last line is a record with its line feed. A last line that is
cut off is never blank, not even after a further line was begun behind it, so
bytes that a cut write left behind never make a journal clean again.
-/

import UnidppLog.Journal.Recovery

namespace Journal

open Text

universe u

variable {R : Type u} {codec : Codec R} {admits : List R → R → Prop}

/-- No bytes, or a last line that is complete and a record. -/
def EndsInRecord (codec : Codec R) (bytes : List UInt8) : Prop :=
  bytes = [] ∨ bytes.getLast? = some newline ∧
    ∃ line r, (lines bytes).getLast? = some (.ok line) ∧ codec.parse line = .ok r

/-- The last of the lines that are records is one. -/
theorem Records.exists_last {E E' : List R} {texts : List String} {line : String}
    (h : Records codec admits E (texts ++ [line]) E') :
    ∃ (E₁ : List R) (r : R), Records codec admits E texts E₁ ∧ codec.parse line = .ok r ∧
      admits E₁ r ∧ E' = E₁ ++ [r] := by
  obtain ⟨E₁, hfront, hlast⟩ := h.exists_append
  cases hlast with
  | record hparse hseq hdone =>
      cases hdone
      exact ⟨E₁, _, hfront, hparse, hseq, rfl⟩

theorem getLast?_lines {bytes : List UInt8} {texts : List String} {line : String}
    (hlines : lines bytes = (texts ++ [line]).map .ok) :
    (lines bytes).getLast? = some (.ok line) := by
  simp [hlines]

/-- What replay accepts is clean exactly when it ends in a complete record. -/
theorem Recovers.clean_iff {bytes : List UInt8} {E : List R} (h : Recovers codec admits bytes E) :
    Clean codec admits bytes E ↔ EndsInRecord codec bytes := by
  obtain ⟨texts, htexts, hreplays⟩ := h
  constructor
  · rintro ⟨hterm, texts', htexts', hrecords⟩
    rcases hterm with rfl | hlast
    · exact .inl rfl
    · rcases List.eq_nil_or_concat texts' with rfl | ⟨front, line, rfl⟩
      · have hnil : pieces bytes = [] := by simpa [lines] using htexts'
        exact .inl (pieces_eq_nil_iff.mp hnil)
      · rw [List.concat_eq_append] at htexts' hrecords
        obtain ⟨-, r, -, hparse, -⟩ := hrecords.exists_last
        exact .inr ⟨hlast, line, r, getLast?_lines htexts', hparse⟩
  · rintro (rfl | ⟨hlast, line, r, hline, hparse⟩)
    · cases texts with
      | nil =>
          cases hreplays
          exact clean_nil
      | cons line rest => simp at htexts
    · refine ⟨.inr hlast, texts, htexts, ?_⟩
      rcases hreplays.records_or_torn with hrecords | ⟨front, torn, rfl, -, htorn⟩
      · exact hrecords
      · rw [getLast?_lines htexts] at hline
        obtain rfl : torn = line := by simpa using hline
        exact absurd hparse (htorn r)

/-- The piece of the journal at `i` is a record's line, and the record is the entry
at `i`. -/
def Contributes (codec : Codec R) (entries : List R) (i : ℕ) (piece : List UInt8) : Prop :=
  ∃ line r, readLine piece = .ok line ∧ codec.parse line = .ok r ∧ entries[i]? = some r

/-- All that replay accepts with a line feed contributes its record, unless the
last line is complete and no record. -/
theorem Recovers.contributes_iff {bytes : List UInt8} {E : List R}
    (h : Recovers codec admits bytes E) :
    (∀ i piece, (pieces bytes)[i]? = some piece → piece.getLast? = some newline →
        Contributes codec E i piece) ↔
      bytes.getLast? ≠ some newline ∨ EndsInRecord codec bytes := by
  obtain ⟨texts, htexts, hreplays⟩ := h
  have hlen : texts.length = (pieces bytes).length := by
    rw [← List.length_map (f := readLine), ← lines, htexts, List.length_map]
  constructor
  · intro hall
    rw [or_iff_not_imp_left, not_not]
    intro hlast
    have hne : pieces bytes ≠ [] := by
      rw [Ne, pieces_eq_nil_iff]
      rintro rfl
      simp at hlast
    have hpiece := List.getLast?_eq_some_getLast hne
    have hplace := hpiece
    rw [List.getLast?_eq_getElem?] at hplace
    obtain ⟨line, r, hread, hparse, -⟩ :=
      hall _ _ hplace ((getLast?_of_pieces hpiece).trans hlast)
    refine .inr ⟨hlast, line, r, ?_, hparse⟩
    rw [lines, List.getLast?_map, hpiece, Option.map_some, hread]
  · intro hend i piece hpiece hterm
    have hi := (List.getElem?_eq_some_iff.mp hpiece).1
    obtain ⟨line, hline⟩ : ∃ line, texts[i]? = some line :=
      ⟨_, List.getElem?_eq_getElem (hlen ▸ hi)⟩
    have hread : readLine piece = .ok line := by
      have htext : (lines bytes)[i]? = some (readLine piece) := by
        rw [lines, List.getElem?_map, hpiece, Option.map_some]
      rw [htexts, List.getElem?_map, hline, Option.map_some, Option.some.injEq] at htext
      exact htext.symm
    obtain ⟨r, hparse⟩ : ∃ r, codec.parse line = .ok r := by
      rcases Nat.lt_or_ge (i + 1) texts.length with hlt | hge
      · exact hreplays.exists_parse hline hlt
      · -- The piece is the last one, so the file ends in a line feed.
        have hlast : (pieces bytes).getLast? = some piece := by
          rw [List.getLast?_eq_getElem?, ← hpiece]
          congr 1
          omega
        rw [← getLast?_of_pieces hlast, hterm] at hend
        rcases hend with hnot | rfl | ⟨-, line', r, hread', hparse⟩
        · exact absurd rfl hnot
        · simp [pieces] at hpiece
        · rw [lines, List.getLast?_map, hlast, Option.map_some, hread] at hread'
          obtain rfl : line = line' := by simpa using hread'
          exact ⟨r, hparse⟩
    exact ⟨line, r, hread, hparse, by simpa using hreplays.getElem? hline hparse⟩

/-- What stands behind the last line feed, if it is a text, is not blank. -/
def VisibleTail (bytes : List UInt8) : Prop :=
  ∀ front tail, bytes = front ++ tail → Terminated front → newline ∉ tail → tail ≠ [] →
    ∀ cs, tail = encode cs → ¬ Blank cs

theorem Terminated.visibleTail {bytes : List UInt8} (hterm : Terminated bytes) :
    VisibleTail bytes := by
  rintro front tail rfl - htail hne
  have hnil := (terminated_iff_eq_nil htail).mp ((terminated_append_iff hne).mp hterm)
  exact absurd hnil hne

/-- Replay does not accept a blank last line. -/
theorem Recovers.visibleTail (hlaw : codec.Lawful) {bytes : List UInt8} {E : List R}
    (h : Recovers codec admits bytes E) : VisibleTail bytes := by
  rintro front tail rfl hfront htail hne cs rfl
  obtain ⟨E₁, texts, -, htexts, hreplays⟩ := (recovers_append_iff hfront hne).mp h
  rw [lines_encode (by rwa [Ne, encode_eq_nil_iff] at hne)
    (by rwa [← newline_mem_encode_iff])] at htexts
  cases texts with
  | nil => simp at htexts
  | cons line rest =>
      obtain ⟨hline, -⟩ := List.cons.inj htexts
      obtain rfl := Except.ok.inj hline
      cases hreplays with
      | torn hparse hvisible => simpa using hvisible
      | record hparse => exact hlaw.record_visible cs _ hparse

/-- A line begun behind the last one keeps the end visible. -/
theorem VisibleTail.append_part (hlaw : codec.Lawful) {bytes part : List UInt8}
    (h : VisibleTail bytes) {r : R} (hpart : part <+: codec.line r) :
    VisibleTail (bytes ++ part) := by
  rcases prefix_line_cases hpart with rfl | hinitial
  · refine Terminated.visibleTail ?_
    exact (terminated_append_iff (codec.line_ne_nil r)).mpr (codec.terminated_line r)
  · have hfree : newline ∉ part := fun hmem => hlaw.newline_not_mem r (hinitial.subset hmem)
    obtain ⟨c, rest, hopen, hascii, hc⟩ := hlaw.opens r
    rw [Codec.bytes, hopen, encode_cons, utf8EncodeChar_of_lt hascii] at hinitial
    cases part with
    | nil => simpa using h
    | cons b part =>
        obtain ⟨rfl, -⟩ := List.cons_prefix_cons.mp hinitial
        rintro front tail heq hfront htail hne cs rfl hblank
        have hmem : UInt8.ofNat c.toNat ∈ encode cs := by
          rcases List.append_eq_append_iff.mp heq with ⟨past, rfl, hpast⟩ | ⟨past, -, hpast⟩
          · rcases eq_or_ne past [] with rfl | hpast_ne
            · rw [List.nil_append] at hpast
              exact hpast ▸ List.mem_cons_self
            · rcases (terminated_append_iff hpast_ne).mp hfront with hnil | hlast
              · exact absurd hnil hpast_ne
              · refine absurd ?_ hfree
                rw [hpast]
                exact List.mem_append_left _ (List.mem_of_getLast? hlast)
          · rw [hpast]
            exact List.mem_append_right _ List.mem_cons_self
        have hvisible := hblank c ((mem_encode_iff hascii).mp hmem)
        simp [hc] at hvisible

/-- Bytes that begin a line make a journal clean only as a whole line behind a
clean journal. -/
theorem Clean.of_append_part (hlaw : codec.Lawful) {bytes part : List UInt8} {E : List R}
    (hvisible : VisibleTail bytes) {r : R} (hpart : part <+: codec.line r) (hne : part ≠ [])
    (h : Clean codec admits (bytes ++ part) E) :
    ∃ E₁, Clean codec admits bytes E₁ ∧ admits E₁ r ∧ E = E₁ ++ [r] := by
  obtain ⟨hterm, texts, htexts, hrecords⟩ := h
  obtain rfl : part = codec.line r := by
    rcases prefix_line_cases hpart with heq | hinitial
    · exact heq
    · have hfree : newline ∉ part := fun hmem => hlaw.newline_not_mem r (hinitial.subset hmem)
      exact absurd ((terminated_iff_eq_nil hfree).mp ((terminated_append_iff hne).mp hterm)) hne
  obtain ⟨front, tail, rfl, hfront, htail⟩ := exists_terminated_append bytes
  obtain ⟨x, hx⟩ := hlaw.lines_fused htail r
  rw [List.append_assoc, lines_append hfront, hx] at htexts
  obtain ⟨texts₁, texts₂, rfl, h₁, h₂⟩ := List.map_eq_append_iff.mp htexts.symm
  obtain ⟨line, rfl, rfl⟩ := List.map_eq_singleton_iff.mp h₂
  obtain ⟨E₁, r', hfirst, hparse, hseq, rfl⟩ := hrecords.exists_last
  rcases eq_or_ne tail [] with rfl | htail_ne
  · rw [List.nil_append, hlaw.lines_line r] at hx
    obtain rfl : String.ofList (codec.text r) = line := by simpa using hx
    obtain rfl := Except.ok.inj ((hlaw.parse_text r).symm.trans hparse)
    exact ⟨E₁, ⟨by simpa using hfront, texts₁, by simpa using h₁.symm, hfirst⟩, hseq, rfl⟩
  · refine absurd hparse (hlaw.not_record_fused htail ?_ hx)
    exact hvisible front tail rfl hfront htail htail_ne

/-- A record written behind a visible rest of a line: replay accepts the two as a
torn line, without the record. -/
theorem Clean.recovers_fused (hlaw : codec.Lawful) {front : List UInt8} {E : List R}
    (hclean : Clean codec admits front E) {cs : List Char} (hline : '\n' ∉ cs)
    (hvisible : ¬ Blank cs) (r : R) :
    Recovers codec admits (front ++ (encode cs ++ codec.line r)) E := by
  have hne : encode cs ++ codec.line r ≠ [] := by simp [codec.line_ne_nil r]
  refine (recovers_append_iff hclean.1 hne).mpr ⟨E, [String.ofList (cs ++ codec.text r)], hclean,
    ?_, ?_⟩
  · rw [Codec.line, Codec.bytes, ← List.append_assoc, ← encode_append]
    refine lines_encode_newline ?_ ?_
    · simp [hline, hlaw.newline_free r]
    · rw [List.getLast?_append_of_ne_nil _ (hlaw.text_ne_nil r)]
      exact hlaw.no_return r
  · cases hparse : codec.parse (String.ofList (cs ++ codec.text r)) with
    | ok r' => exact absurd hparse (hlaw.not_fused cs r hvisible r')
    | error e =>
        refine .torn hparse fun hblank => hvisible fun c hc => hblank c ?_
        simp [hc]

end Journal
