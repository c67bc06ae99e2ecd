/-
# Lossy decoding

Any bytes as a text: what is no part of an encoded character is replaced, one
replacement for as many bytes as could still have become one. A character is
recognised byte by byte, by what may follow the bytes of it that are there.
-/

import UnidppLog.Text.Utf8

namespace Text

/-- The beginning of a character: how many bytes are owed, between what the next one
lies, and the bits so far. -/
structure Begun where
  owed : ℕ
  low : ℕ
  high : ℕ
  bits : ℕ

/-- What a byte is at the beginning of a character. -/
inductive Lead
  | whole (c : Char)
  | begun (b : Begun)
  | stray

/-- U+FFFD. -/
def replacement : Char :=
  Char.ofNat 0xFFFD

/-- A character of three bytes behind `0xED` is below the surrogates. -/
def lead (byte : UInt8) : Lead :=
  let n := byte.toNat
  if n < 0x80 then .whole (Char.ofNat n)
  else if 0xC2 ≤ n ∧ n ≤ 0xDF then .begun ⟨1, 0x80, 0xBF, n - 0xC0⟩
  else if n = 0xE0 then .begun ⟨2, 0xA0, 0xBF, n - 0xE0⟩
  else if n = 0xED then .begun ⟨2, 0x80, 0x9F, n - 0xE0⟩
  else if 0xE1 ≤ n ∧ n ≤ 0xEF then .begun ⟨2, 0x80, 0xBF, n - 0xE0⟩
  else if n = 0xF0 then .begun ⟨3, 0x90, 0xBF, n - 0xF0⟩
  else if 0xF1 ≤ n ∧ n ≤ 0xF3 then .begun ⟨3, 0x80, 0xBF, n - 0xF0⟩
  else if n = 0xF4 then .begun ⟨3, 0x80, 0x8F, n - 0xF0⟩
  else .stray

/-- What a byte at the beginning of a character contributes, by what the rest does. -/
def opening (byte : UInt8) (rest : Option Begun → List Char) : List Char :=
  match lead byte with
  | .whole c => c :: rest none
  | .begun b => rest (some b)
  | .stray => replacement :: rest none

/-- The text of the bytes behind what has begun. -/
def lossy : Option Begun → List UInt8 → List Char
  | none, [] => []
  | some _, [] => [replacement]
  | none, byte :: rest => opening byte fun begun => lossy begun rest
  | some b, byte :: rest =>
    if b.low ≤ byte.toNat ∧ byte.toNat ≤ b.high then
      let bits := b.bits * 64 + (byte.toNat - 0x80)
      if b.owed = 1 then Char.ofNat bits :: lossy none rest
      else lossy (some ⟨b.owed - 1, 0x80, 0xBF, bits⟩) rest
    else replacement :: opening byte fun begun => lossy begun rest

/-- `String::from_utf8_lossy`. -/
def decodeLossy (bytes : List UInt8) : List Char :=
  lossy none bytes

theorem lossy_cons (byte : UInt8) (rest : List UInt8) :
    lossy none (byte :: rest) = opening byte fun begun => lossy begun rest := by
  rw [lossy.eq_def]

theorem lossy_of_whole {byte : UInt8} {c : Char} (hlead : lead byte = .whole c)
    (rest : List UInt8) : lossy none (byte :: rest) = c :: lossy none rest := by
  rw [lossy_cons, opening, hlead]

theorem lossy_of_begun {byte : UInt8} {b : Begun} (hlead : lead byte = .begun b)
    (rest : List UInt8) : lossy none (byte :: rest) = lossy (some b) rest := by
  rw [lossy_cons, opening, hlead]

/-- A byte that may follow brings six bits. -/
theorem lossy_of_follows {owed low high bits n : ℕ} (hlow : low ≤ n + 0x80)
    (hhigh : n + 0x80 ≤ high) (hn : n < 64) (rest : List UInt8) :
    lossy (some ⟨owed, low, high, bits⟩) (UInt8.ofNat (n + 0x80) :: rest) =
      if owed = 1 then Char.ofNat (bits * 64 + n) :: lossy none rest
      else lossy (some ⟨owed - 1, 0x80, 0xBF, bits * 64 + n⟩) rest := by
  have hbyte : (UInt8.ofNat (n + 0x80)).toNat = n + 0x80 := by
    rw [UInt8.toNat_ofNat', Nat.mod_eq_of_lt (by omega)]
  rw [lossy.eq_def]
  simp only [hbyte, hlow, hhigh, and_self, if_true, Nat.add_sub_cancel]

theorem lead_one {v : ℕ} (hv : v ≤ 0x7F) : lead (UInt8.ofNat v) = .whole (Char.ofNat v) := by
  have hbyte : (UInt8.ofNat v).toNat = v := by
    rw [UInt8.toNat_ofNat', Nat.mod_eq_of_lt (by omega)]
  rw [lead, hbyte, if_pos (by omega)]

theorem lead_two {v : ℕ} (hlow : 0x7F < v) (hv : v ≤ 0x7FF) :
    lead (UInt8.ofNat (v / 64 % 0x20 + 0xC0)) = .begun ⟨1, 0x80, 0xBF, v / 64⟩ := by
  have hbyte : (UInt8.ofNat (v / 64 % 0x20 + 0xC0)).toNat = v / 64 + 0xC0 := by
    rw [UInt8.toNat_ofNat', Nat.mod_eq_of_lt (by omega)]
    omega
  rw [lead, hbyte]
  simp only [Nat.add_sub_cancel]
  rw [if_neg (by omega), if_pos (by omega)]

/-- The second byte is held to what keeps shorter characters and surrogates out. -/
theorem lead_three {v : ℕ} (hlow : 0x7FF < v) (hv : v ≤ 0xFFFF)
    (hscalar : v < 0xD800 ∨ 0xDFFF < v) :
    ∃ low high, lead (UInt8.ofNat (v / 4096 % 0x10 + 0xE0)) = .begun ⟨2, low, high, v / 4096⟩ ∧
      low ≤ v / 64 % 0x40 + 0x80 ∧ v / 64 % 0x40 + 0x80 ≤ high := by
  have hbyte : (UInt8.ofNat (v / 4096 % 0x10 + 0xE0)).toNat = v / 4096 + 0xE0 := by
    rw [UInt8.toNat_ofNat', Nat.mod_eq_of_lt (by omega)]
    omega
  rw [lead, hbyte]
  simp only [Nat.add_sub_cancel]
  rw [if_neg (by omega), if_neg (by omega)]
  split
  · exact ⟨_, _, rfl, by omega, by omega⟩
  split
  · exact ⟨_, _, rfl, by omega, by omega⟩
  rw [if_pos (by omega)]
  exact ⟨_, _, rfl, by omega, by omega⟩

theorem lead_four {v : ℕ} (hlow : 0xFFFF < v) (hv : v < 0x110000) :
    ∃ low high, lead (UInt8.ofNat (v / 262144 % 0x08 + 0xF0)) =
      .begun ⟨3, low, high, v / 262144⟩ ∧
        low ≤ v / 4096 % 0x40 + 0x80 ∧ v / 4096 % 0x40 + 0x80 ≤ high := by
  have hbyte : (UInt8.ofNat (v / 262144 % 0x08 + 0xF0)).toNat = v / 262144 + 0xF0 := by
    rw [UInt8.toNat_ofNat', Nat.mod_eq_of_lt (by omega)]
    omega
  rw [lead, hbyte]
  simp only [Nat.add_sub_cancel]
  rw [if_neg (by omega), if_neg (by omega), if_neg (by omega), if_neg (by omega),
    if_neg (by omega)]
  split
  · exact ⟨_, _, rfl, by omega, by omega⟩
  split
  · exact ⟨_, _, rfl, by omega, by omega⟩
  rw [if_pos (by omega)]
  exact ⟨_, _, rfl, by omega, by omega⟩

/-- The bits of a character are collected byte by byte. -/
theorem lossy_utf8EncodeChar (c : Char) (bytes : List UInt8) :
    lossy none (String.utf8EncodeChar c ++ bytes) = c :: lossy none bytes := by
  have hval : c.val.toNat = c.toNat := rfl
  have hscalar : c.toNat < 0xD800 ∨ 0xDFFF < c.toNat ∧ c.toNat < 0x110000 := c.valid
  rw [String.utf8EncodeChar]
  simp only [hval]
  split
  · next hone =>
    rw [List.cons_append, lossy_of_whole (lead_one hone), Char.ofNat_toNat, List.nil_append]
  split
  · next hone htwo =>
    have hbits : c.toNat / 64 * 64 + c.toNat % 0x40 = c.toNat := by omega
    rw [List.cons_append, lossy_of_begun (lead_two (by omega) htwo), List.cons_append,
      lossy_of_follows (by omega) (by omega) (by omega), if_pos rfl, hbits, Char.ofNat_toNat,
      List.nil_append]
  split
  · next hone htwo hthree =>
    obtain ⟨low, high, hlead, hlow, hhigh⟩ := lead_three (v := c.toNat) (by omega) hthree
      (hscalar.imp_right And.left)
    have hbits : (c.toNat / 4096 * 64 + c.toNat / 64 % 0x40) * 64 + c.toNat % 0x40 =
        c.toNat := by omega
    rw [List.cons_append, lossy_of_begun hlead, List.cons_append,
      lossy_of_follows hlow hhigh (by omega), if_neg (by decide), List.cons_append,
      lossy_of_follows (by omega) (by omega) (by omega), if_pos rfl, hbits, Char.ofNat_toNat,
      List.nil_append]
  · next hone htwo hthree =>
    obtain ⟨low, high, hlead, hlow, hhigh⟩ := lead_four (v := c.toNat) (by omega) (by omega)
    have hbits : ((c.toNat / 262144 * 64 + c.toNat / 4096 % 0x40) * 64 +
        c.toNat / 64 % 0x40) * 64 + c.toNat % 0x40 = c.toNat := by omega
    rw [List.cons_append, lossy_of_begun hlead, List.cons_append,
      lossy_of_follows hlow hhigh (by omega), if_neg (by decide), List.cons_append,
      lossy_of_follows (by omega) (by omega) (by omega), if_neg (by decide), List.cons_append,
      lossy_of_follows (by omega) (by omega) (by omega), if_pos rfl, hbits, Char.ofNat_toNat,
      List.nil_append]

/-- A text in front is read back. -/
theorem decodeLossy_encode_append (cs : List Char) (bytes : List UInt8) :
    decodeLossy (encode cs ++ bytes) = cs ++ decodeLossy bytes := by
  induction cs with
  | nil => rfl
  | cons c cs ih =>
      rw [encode_cons, List.append_assoc, decodeLossy, lossy_utf8EncodeChar, List.cons_append,
        ← ih, decodeLossy]

/-- A text is read back from its encoding. -/
theorem decodeLossy_encode (cs : List Char) : decodeLossy (encode cs) = cs := by
  have hnil : decodeLossy [] = [] := rfl
  have happend := decodeLossy_encode_append cs []
  rwa [hnil, List.append_nil, List.append_nil] at happend

end Text
