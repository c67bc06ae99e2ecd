/-
# Lines of a byte stream

Reading a stream line by line: the bytes up to and with each line feed are
decoded as one piece, then the line feed and a carriage return in front of it
are dropped. Bytes after the last line feed are a line too.
-/

import UnidppLog.Text.Utf8
import Mathlib.Data.List.DropRight

namespace Text

/-- The byte that ends a line. -/
abbrev newline : UInt8 :=
  10

/-- The bytes cut behind every line feed. -/
def pieces : List UInt8 → List (List UInt8)
  | [] => []
  | b :: rest =>
    if b = newline then [b] :: pieces rest
    else
      match pieces rest with
      | [] => [[b]]
      | piece :: more => (b :: piece) :: more

/-- Drop one line end. -/
def chomp (cs : List Char) : List Char :=
  if cs.getLast? = some '\n' then
    if cs.dropLast.getLast? = some '\r' then cs.dropLast.dropLast else cs.dropLast
  else cs

/-- One piece as a line. -/
def readLine (piece : List UInt8) : Except String String :=
  match decode piece with
  | none => .error "stream did not contain valid UTF-8"
  | some cs => .ok (String.ofList (chomp cs))

/-- The lines of a stream. -/
def lines (bytes : List UInt8) : List (Except String String) :=
  (pieces bytes).map readLine

/-- Nothing, or complete lines only. -/
def Terminated (bytes : List UInt8) : Prop :=
  bytes = [] ∨ bytes.getLast? = some newline

instance (bytes : List UInt8) : Decidable (Terminated bytes) :=
  inferInstanceAs (Decidable (_ ∨ _))

@[simp]
theorem pieces_eq_nil_iff {bytes : List UInt8} : pieces bytes = [] ↔ bytes = [] := by
  cases bytes with
  | nil => simp [pieces]
  | cons b rest =>
      rw [pieces]
      split
      · simp
      · split <;> simp

/-- Bytes without a line feed are one piece. -/
theorem pieces_of_not_mem {bytes : List UInt8} (hne : bytes ≠ []) (hline : newline ∉ bytes) :
    pieces bytes = [bytes] := by
  induction bytes with
  | nil => exact absurd rfl hne
  | cons b rest ih =>
      simp only [List.mem_cons, not_or] at hline
      rw [pieces, if_neg (Ne.symm hline.1)]
      cases rest with
      | nil => rfl
      | cons c rest => rw [ih (by simp) hline.2]

theorem terminated_cons_iff {b : UInt8} {rest : List UInt8} :
    Terminated (b :: rest) ↔ (rest = [] ∧ b = newline) ∨ (rest ≠ [] ∧ Terminated rest) := by
  cases rest with
  | nil => simp [Terminated]
  | cons c rest => simp [Terminated, List.getLast?_cons]

/-- Complete lines in front are cut as they are alone. -/
theorem pieces_append {front : List UInt8} (hfront : Terminated front) (back : List UInt8) :
    pieces (front ++ back) = pieces front ++ pieces back := by
  induction front with
  | nil => rfl
  | cons b rest ih =>
      rw [List.cons_append, pieces, pieces]
      rcases terminated_cons_iff.mp hfront with ⟨rfl, rfl⟩ | ⟨hne, hrest⟩
      · rfl
      · rw [ih hrest]
        split
        · rfl
        · cases hpieces : pieces rest with
          | nil => exact absurd (pieces_eq_nil_iff.mp hpieces) hne
          | cons piece more => rfl

/-- The last piece ends as the stream does. -/
theorem getLast?_of_pieces {bytes piece : List UInt8}
    (h : (pieces bytes).getLast? = some piece) : piece.getLast? = bytes.getLast? := by
  induction bytes generalizing piece with
  | nil => simp [pieces] at h
  | cons b rest ih =>
      rw [pieces] at h
      split at h
      · cases hrest : pieces rest with
        | nil =>
            obtain rfl := pieces_eq_nil_iff.mp hrest
            obtain rfl : [b] = piece := by simpa [pieces] using h
            rfl
        | cons first more =>
            have hlast : (pieces rest).getLast? = some piece := by
              rwa [hrest, List.getLast?_cons_cons, ← hrest] at h
            have hne : rest ≠ [] := fun hnil => by simp [hnil, pieces] at hrest
            rw [ih hlast, List.getLast?_cons_of_ne_nil hne]
      · cases hrest : pieces rest with
        | nil =>
            obtain rfl := pieces_eq_nil_iff.mp hrest
            obtain rfl : [b] = piece := by simpa [pieces] using h
            rfl
        | cons first more =>
            have hne : rest ≠ [] := fun hnil => by simp [hnil, pieces] at hrest
            simp only [hrest] at h
            cases more with
            | nil =>
                have hfirst : first.getLast? = rest.getLast? := ih (by simp [hrest])
                obtain rfl : b :: first = piece := by simpa using h
                rw [List.getLast?_cons_of_ne_nil hne, List.getLast?_cons, hfirst,
                  List.getLast?_eq_some_getLast hne]
                rfl
            | cons second more =>
                rw [List.getLast?_cons_cons] at h
                rw [ih (by rwa [hrest, List.getLast?_cons_cons]),
                  List.getLast?_cons_of_ne_nil hne]

theorem terminated_nil : Terminated [] :=
  .inl rfl

theorem terminated_concat (bytes : List UInt8) : Terminated (bytes ++ [newline]) := by
  simp [Terminated]

theorem Terminated.append {front back : List UInt8} (hfront : Terminated front)
    (hback : Terminated back) : Terminated (front ++ back) := by
  rcases hback with rfl | hlast
  · simpa using hfront
  · refine .inr ?_
    rw [List.getLast?_append, hlast]
    rfl

/-- A line feed somewhere behind ends neither what is in front nor what follows
a line feed. -/
theorem terminated_append_iff {front back : List UInt8} (hback : back ≠ []) :
    Terminated (front ++ back) ↔ Terminated back := by
  rw [Terminated, Terminated, List.getLast?_append_of_ne_nil _ hback]
  simp [hback]

/-- Every stream is complete lines and a rest without a line feed. -/
theorem exists_terminated_append (bytes : List UInt8) :
    ∃ front tail, bytes = front ++ tail ∧ Terminated front ∧ newline ∉ tail := by
  induction bytes with
  | nil => exact ⟨[], [], rfl, terminated_nil, by simp⟩
  | cons b rest ih =>
      obtain ⟨front, tail, rfl, hfront, htail⟩ := ih
      by_cases hb : b = newline
      · refine ⟨b :: front, tail, rfl, terminated_cons_iff.mpr ?_, htail⟩
        rcases eq_or_ne front [] with hnil | hne
        · exact .inl ⟨hnil, hb⟩
        · exact .inr ⟨hne, hfront⟩
      · rcases eq_or_ne front [] with rfl | hne
        · exact ⟨[], b :: tail, rfl, terminated_nil, by simp [Ne.symm hb, htail]⟩
        · exact ⟨b :: front, tail, rfl, terminated_cons_iff.mpr (.inr ⟨hne, hfront⟩), htail⟩

/-- A rest without a line feed is complete only when it is empty. -/
theorem terminated_iff_eq_nil {tail : List UInt8} (htail : newline ∉ tail) :
    Terminated tail ↔ tail = [] := by
  constructor
  · rintro (hnil | hlast)
    · exact hnil
    · exact absurd (List.mem_of_getLast? hlast) htail
  · rintro rfl
    exact terminated_nil

theorem lines_append {front : List UInt8} (hfront : Terminated front) (back : List UInt8) :
    lines (front ++ back) = lines front ++ lines back := by
  rw [lines, pieces_append hfront, List.map_append]
  rfl

@[simp]
theorem lines_nil : lines [] = [] :=
  rfl

theorem newline_mem_encode_iff {cs : List Char} : newline ∈ encode cs ↔ '\n' ∈ cs :=
  mem_encode_iff (show '\n'.toNat < 128 by decide)

theorem chomp_of_not_mem {cs : List Char} (hline : '\n' ∉ cs) : chomp cs = cs := by
  rw [chomp, if_neg fun hlast => hline (List.mem_of_getLast? hlast)]

/-- A text without a line feed, as the last line of a stream that does not end
in one. -/
theorem lines_encode {cs : List Char} (hne : cs ≠ []) (hline : '\n' ∉ cs) :
    lines (encode cs) = [.ok (String.ofList cs)] := by
  rw [lines, pieces_of_not_mem (by rwa [Ne, encode_eq_nil_iff])
    (by rwa [newline_mem_encode_iff])]
  simp [readLine, chomp_of_not_mem hline]

/-- Bytes that are no text make the last line unreadable. -/
theorem lines_of_decode_eq_none {bytes : List UInt8} (hnone : decode bytes = none)
    (hline : newline ∉ bytes) :
    lines bytes = [.error "stream did not contain valid UTF-8"] := by
  have hne : bytes ≠ [] := by
    rintro rfl
    exact absurd (decode_encode []) (by rw [encode_nil, hnone]; simp)
  rw [lines, pieces_of_not_mem hne hline]
  simp [readLine, hnone]

/-- Bytes without a line feed and a line feed behind them are one piece. -/
theorem pieces_newline {bytes : List UInt8} (hline : newline ∉ bytes) :
    pieces (bytes ++ [newline]) = [bytes ++ [newline]] := by
  induction bytes with
  | nil => rfl
  | cons b rest ih =>
      simp only [List.mem_cons, not_or] at hline
      rw [List.cons_append, pieces, if_neg (Ne.symm hline.1), ih hline.2]

theorem encode_newline (cs : List Char) : encode cs ++ [newline] = encode (cs ++ ['\n']) := by
  rw [encode_append]
  rfl

/-- A text without a line feed, written as a line. -/
theorem lines_encode_newline {cs : List Char} (hline : '\n' ∉ cs)
    (hreturn : cs.getLast? ≠ some '\r') :
    lines (encode cs ++ [newline]) = [.ok (String.ofList cs)] := by
  have hchomp : chomp (cs ++ ['\n']) = cs := by
    simp [chomp, hreturn]
  rw [lines, pieces_newline (by rwa [newline_mem_encode_iff]), encode_newline]
  simp only [List.map_cons, List.map_nil, readLine, decode_encode, hchomp]

/-- A line that can be read holds a text, and so does every part of it that a
text follows. -/
theorem exists_of_lines_newline {bytes : List UInt8} {cs : List Char} {line : String}
    (hline : newline ∉ bytes ++ encode cs)
    (hread : lines (bytes ++ encode cs ++ [newline]) = [.ok line]) : ∃ ds, bytes = encode ds := by
  rw [lines, pieces_newline hline, List.append_assoc, encode_newline, List.map_singleton,
    List.singleton_inj, readLine] at hread
  split at hread
  · simp at hread
  · next es hdecode =>
    obtain ⟨ds, hds, -⟩ := exists_of_append_encode (decode_eq_some_iff.mp hdecode)
    exact ⟨ds, hds⟩

/-- The `White_Space` property of Unicode. -/
def isWhitespace (c : Char) : Bool :=
  let n := c.toNat
  (9 ≤ n && n ≤ 13) || n = 32 || n = 0x85 || n = 0xA0 || n = 0x1680 ||
    (0x2000 ≤ n && n ≤ 0x200A) || n = 0x2028 || n = 0x2029 || n = 0x202F || n = 0x205F ||
    n = 0x3000

/-- A text without the white space at its ends. -/
def trim (cs : List Char) : List Char :=
  (cs.dropWhile isWhitespace).rdropWhile isWhitespace

theorem trim_eq_nil_iff {cs : List Char} : trim cs = [] ↔ ∀ c ∈ cs, isWhitespace c = true := by
  rw [trim, List.rdropWhile_eq_nil_iff]
  constructor
  · intro hall
    have hnil : cs.dropWhile isWhitespace = [] := by
      rw [List.eq_nil_iff_forall_not_mem]
      intro c hc
      obtain ⟨d, rest, hcons⟩ := List.exists_cons_of_ne_nil (List.ne_nil_of_mem hc)
      have hd := List.head_dropWhile_not isWhitespace (l := cs) (by simp [hcons])
      simp only [hcons, List.head_cons] at hd
      rw [hall d (by simp [hcons])] at hd
      exact absurd hd (by simp)
    exact List.dropWhile_eq_nil_iff.mp hnil
  · intro hall c hc
    exact hall c ((List.dropWhile_sublist _).mem hc)

/-- A text without white space is trimmed already. -/
theorem trim_eq_self {cs : List Char} (h : ∀ c ∈ cs, isWhitespace c = false) : trim cs = cs := by
  have hstart : cs.dropWhile isWhitespace = cs := by
    cases cs with
    | nil => rfl
    | cons c rest => simp [h c List.mem_cons_self]
  rw [trim, hstart, List.rdropWhile_eq_self_iff]
  intro hne
  simp [h _ (List.getLast_mem hne)]

theorem isWhitespace_of_isDigit {c : Char} (hdigit : c.isDigit = true) :
    isWhitespace c = false := by
  have hrange : 48 ≤ c.toNat ∧ c.toNat ≤ 57 := by
    simpa [Char.isDigit, UInt32.le_iff_toNat_le] using hdigit
  simp only [isWhitespace]
  simp
  omega

end Text
