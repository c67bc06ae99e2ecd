/-
# Hexadecimal text

The two lower-case digits of each byte, and the bytes that digits of either case
stand for.
-/

import Mathlib.Data.List.Basic

namespace Hex

/-- The value of a digit, in either case. -/
def value (c : Char) : Option ℕ :=
  if '0' ≤ c ∧ c ≤ '9' then some (c.toNat - 48)
  else if 'a' ≤ c ∧ c ≤ 'f' then some (c.toNat - 87)
  else if 'A' ≤ c ∧ c ≤ 'F' then some (c.toNat - 55)
  else none

/-- The digits of a byte. -/
def digits (b : UInt8) : List Char :=
  [Nat.digitChar (b.toNat / 16), Nat.digitChar (b.toNat % 16)]

/-- The digits of some bytes. -/
def text (bytes : List UInt8) : List Char :=
  bytes.flatMap digits

/-- The byte of two digits. -/
def byte (high low : Char) : Option UInt8 := do
  let h ← value high
  let l ← value low
  return UInt8.ofNat (16 * h + l)

/-- The bytes that pairs of digits stand for. -/
def read : List Char → Option (List UInt8)
  | [] => some []
  | [_] => none
  | high :: low :: rest => do
    let b ← byte high low
    let bs ← read rest
    return b :: bs

theorem value_digitChar {n : ℕ} (hn : n < 16) : value (Nat.digitChar n) = some n := by
  have hall : ∀ m : Fin 16, value (Nat.digitChar m) = some m.val := by decide
  exact hall ⟨n, hn⟩

theorem digitChar_lt {n : ℕ} (hn : n < 16) : (Nat.digitChar n).toNat < 128 := by
  have hall : ∀ m : Fin 16, (Nat.digitChar m).toNat < 128 := by decide
  exact hall ⟨n, hn⟩

theorem byte_digits (b : UInt8) :
    byte (Nat.digitChar (b.toNat / 16)) (Nat.digitChar (b.toNat % 16)) = some b := by
  have hb : b.toNat < 256 := b.toNat_lt
  have hsum : 16 * (b.toNat / 16) + b.toNat % 16 = b.toNat := Nat.div_add_mod _ _
  rw [byte, value_digitChar (show b.toNat / 16 < 16 by omega),
    value_digitChar (Nat.mod_lt _ (by decide))]
  simp only [Option.bind_eq_bind, Option.bind_some, hsum, UInt8.ofNat_toNat, Option.pure_def]

/-- Bytes are read back from their digits. -/
theorem read_text (bytes : List UInt8) : read (text bytes) = some bytes := by
  induction bytes with
  | nil => rfl
  | cons b rest ih =>
      have hcons : text (b :: rest) =
          Nat.digitChar (b.toNat / 16) :: Nat.digitChar (b.toNat % 16) :: text rest := rfl
      rw [hcons, read, byte_digits, ih]
      rfl

theorem toNat_lt_of_value {c : Char} {n : ℕ} (h : value c = some n) : c.toNat < 128 := by
  have hle : ∀ d : Char, d.toNat < 128 → c ≤ d → c.toNat < 128 :=
    fun d hd hcd => Nat.lt_of_le_of_lt (UInt32.le_iff_toNat_le.mp hcd) hd
  rw [value] at h
  split at h
  · next hc => exact hle '9' (by decide) hc.2
  · split at h
    · next hc => exact hle 'f' (by decide) hc.2
    · split at h
      · next hc => exact hle 'F' (by decide) hc.2
      · simp at h

/-- A digit is printed back in lower case. -/
theorem digitChar_of_value {c : Char} {n : ℕ} (h : value c = some n) :
    n < 16 ∧ Nat.digitChar n = c.toLower := by
  have hall : ∀ m : Fin 128, (value (Char.ofNat m)).all
      (fun n => n < 16 ∧ Nat.digitChar n = (Char.ofNat m).toLower) = true := by decide
  have hc := hall ⟨c.toNat, toNat_lt_of_value h⟩
  rw [Char.ofNat_toNat, h] at hc
  simpa using hc

/-- The digits of a byte that was read are the two that it was read from, in lower case. -/
theorem digits_of_byte {high low : Char} {b : UInt8} (h : byte high low = some b) :
    digits b = [high.toLower, low.toLower] := by
  simp only [byte, Option.bind_eq_bind, Option.bind_eq_some_iff] at h
  obtain ⟨m, hm, n, hn, heq⟩ := h
  obtain rfl := Option.some.inj heq
  obtain ⟨hm', hhigh⟩ := digitChar_of_value hm
  obtain ⟨hn', hlow⟩ := digitChar_of_value hn
  have hnat : (UInt8.ofNat (16 * m + n)).toNat = 16 * m + n := by
    rw [UInt8.toNat_ofNat', Nat.mod_eq_of_lt (by omega)]
  have hdiv : (16 * m + n) / 16 = m := by omega
  have hmod : (16 * m + n) % 16 = n := by omega
  rw [digits, hnat, hdiv, hmod, hhigh, hlow]

end Hex
