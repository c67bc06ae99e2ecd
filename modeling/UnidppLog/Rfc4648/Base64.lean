/-
# Base 64

What text encodes some bytes: three bytes are cut into four sextets, each written as one
of 64 symbols, and of one or two bytes at the end the last sextet is filled up with zero
bits and the group with pads. The length of the text and its pads are determined by the
number of bytes.
-/

import Mathlib.Data.List.Basic
import Mathlib.Algebra.Order.Group.Nat

namespace Rfc4648

/-- The symbols of the sextets, in order. -/
def alphabet : List Char :=
  ['A', 'B', 'C', 'D', 'E', 'F', 'G', 'H', 'I', 'J', 'K', 'L', 'M',
    'N', 'O', 'P', 'Q', 'R', 'S', 'T', 'U', 'V', 'W', 'X', 'Y', 'Z',
    'a', 'b', 'c', 'd', 'e', 'f', 'g', 'h', 'i', 'j', 'k', 'l', 'm',
    'n', 'o', 'p', 'q', 'r', 's', 't', 'u', 'v', 'w', 'x', 'y', 'z',
    '0', '1', '2', '3', '4', '5', '6', '7', '8', '9', '+', '/']

/-- The pad. -/
abbrev pad : Char :=
  '='

/-- The symbol of a sextet. -/
def symbol (n : ℕ) : Char :=
  alphabet.getD n pad

/-- The text of some bytes. -/
inductive Encodes : List UInt8 → List Char → Prop
  | nil : Encodes [] []
  | one (a : UInt8) :
      Encodes [a] [symbol (a.toNat / 4), symbol (a.toNat % 4 * 16), pad, pad]
  | two (a b : UInt8) :
      Encodes [a, b] [symbol (a.toNat / 4), symbol (a.toNat % 4 * 16 + b.toNat / 16),
        symbol (b.toNat % 16 * 4), pad]
  | three (a b c : UInt8) {bytes : List UInt8} {text : List Char} (hrest : Encodes bytes text) :
      Encodes (a :: b :: c :: bytes)
        (symbol (a.toNat / 4) :: symbol (a.toNat % 4 * 16 + b.toNat / 16) ::
          symbol (b.toNat % 16 * 4 + c.toNat / 64) :: symbol (c.toNat % 64) :: text)

/-- The pads behind so many bytes. -/
def pads (n : ℕ) : ℕ :=
  match n % 3 with
  | 1 => 2
  | 2 => 1
  | _ => 0

theorem symbol_mem {n : ℕ} (hn : n < 64) : symbol n ∈ alphabet := by
  revert n
  decide

theorem pad_not_mem : pad ∉ alphabet := by
  decide

namespace Encodes

variable {bytes : List UInt8} {text : List Char}

/-- Four characters for every three bytes, the last group counted as a whole. -/
theorem length_eq (h : Encodes bytes text) : text.length = 4 * ((bytes.length + 2) / 3) := by
  induction h with
  | nil => rfl
  | one a => simp
  | two a b => simp
  | three a b c _ ih =>
      simp only [List.length_cons, ih]
      omega

/-- The text is symbols, and the pads behind them. -/
theorem exists_symbols (h : Encodes bytes text) :
    ∃ symbols, text = symbols ++ List.replicate (pads bytes.length) pad ∧
      ∀ c ∈ symbols, c ∈ alphabet := by
  induction h with
  | nil => exact ⟨[], rfl, by simp⟩
  | one a =>
      have ha := a.toNat_lt
      refine ⟨[_, _], rfl, ?_⟩
      simp only [List.mem_cons, List.not_mem_nil, or_false]
      rintro c (rfl | rfl)
      · exact symbol_mem (by omega)
      · exact symbol_mem (by omega)
  | two a b =>
      have ha := a.toNat_lt
      have hb := b.toNat_lt
      refine ⟨[_, _, _], rfl, ?_⟩
      simp only [List.mem_cons, List.not_mem_nil, or_false]
      rintro c (rfl | rfl | rfl)
      · exact symbol_mem (by omega)
      · exact symbol_mem (by omega)
      · exact symbol_mem (by omega)
  | @three a b c bytes text _ ih =>
      obtain ⟨symbols, rfl, hsymbols⟩ := ih
      have ha := a.toNat_lt
      have hb := b.toNat_lt
      have hc := c.toNat_lt
      have hpads : pads (a :: b :: c :: bytes).length = pads bytes.length := by
        simp [pads, Nat.add_assoc]
      refine ⟨_ :: _ :: _ :: _ :: symbols, by rw [hpads]; rfl, ?_⟩
      simp only [List.mem_cons]
      rintro d (rfl | rfl | rfl | rfl | hd)
      · exact symbol_mem (by omega)
      · exact symbol_mem (by omega)
      · exact symbol_mem (by omega)
      · exact symbol_mem (by omega)
      · exact hsymbols d hd

end Encodes

end Rfc4648
