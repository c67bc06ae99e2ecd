/-
# Peaks

A list of leaves has one largest complete subtree after the other, one for each bit of its
length. How many these are is what a root is folded from, and what a log saves up between
appends for the carries to come.
-/

import UnidppLog.Rfc6962.Length

namespace Rfc6962

/-- How many peaks there are over `n` leaves: the bits that are set in `n`. -/
def peaks (n : ℕ) : ℕ :=
  if n = 0 then 0 else n % 2 + peaks (n / 2)

@[simp]
theorem peaks_zero : peaks 0 = 0 := by
  simp [peaks]

theorem peaks_two_mul_add {n b : ℕ} (hb : b < 2) : peaks (2 * n + b) = peaks n + b := by
  rcases Nat.eq_zero_or_pos (2 * n + b) with hzero | hpos
  · obtain ⟨rfl, rfl⟩ : n = 0 ∧ b = 0 := by omega
    rfl
  · have hhalf : (2 * n + b) / 2 = n := by omega
    have hbit : (2 * n + b) % 2 = b := by omega
    rw [peaks, if_neg (by omega), hhalf, hbit, Nat.add_comm]

@[simp]
theorem peaks_one : peaks 1 = 1 := by
  simpa using peaks_two_mul_add (n := 0) (show 1 < 2 by omega)

/-- The peaks of a number are those above some bit and those below it. -/
theorem peaks_two_pow_mul_add {e q r : ℕ} (hr : r < 2 ^ e) :
    peaks (2 ^ e * q + r) = peaks q + peaks r := by
  induction e generalizing r with
  | zero =>
      obtain rfl : r = 0 := by simpa using hr
      simp
  | succ e ih =>
      have hhalf : r / 2 < 2 ^ e := by
        rw [pow_succ] at hr
        omega
      have hsum : 2 ^ (e + 1) * q + r = 2 * (2 ^ e * q + r / 2) + r % 2 := by
        rw [pow_succ, Nat.mul_comm (2 ^ e) 2, Nat.mul_assoc]
        omega
      have hbits : peaks r = peaks (r / 2) + r % 2 := by
        have hr' : r = 2 * (r / 2) + r % 2 := by omega
        conv_lhs => rw [hr']
        exact peaks_two_mul_add (Nat.mod_lt _ (by omega))
      rw [hsum, peaks_two_mul_add (Nat.mod_lt _ (by omega)), ih hhalf, hbits]
      omega

@[simp]
theorem peaks_two_pow (e : ℕ) : peaks (2 ^ e) = 1 := by
  simpa using peaks_two_pow_mul_add (e := e) (q := 1) (Nat.two_pow_pos e)

/-- Below a power of two, there is a peak for each smaller one at most. -/
theorem peaks_le {e n : ℕ} (hn : n < 2 ^ e) : peaks n ≤ e := by
  induction e generalizing n with
  | zero =>
      obtain rfl : n = 0 := by simpa using hn
      simp
  | succ e ih =>
      rw [pow_succ] at hn
      have hhalf := ih (n := n / 2) (by omega)
      rw [peaks]
      split <;> omega

theorem peaks_le_of_le {e n : ℕ} (hn : n ≤ 2 ^ e) : peaks n ≤ max e 1 := by
  rcases Nat.lt_or_eq_of_le hn with hlt | rfl
  · exact (peaks_le hlt).trans (Nat.le_max_left _ _)
  · rw [peaks_two_pow]
    exact Nat.le_max_right _ _

/-- The first peak is split off, where there are others. -/
theorem peaks_split {n : ℕ} (htwo : 2 ≤ n) (hpow : ¬ n.isPowerOfTwo) :
    peaks n = 1 + peaks (n - split n) := by
  obtain ⟨e, heq, hlow, hhigh⟩ := exists_split htwo
  have hne : n ≠ 2 ^ (e + 1) := fun h => hpow ⟨e + 1, h⟩
  have hrest : n - 2 ^ e < 2 ^ e := by
    rw [pow_succ] at hhigh hne
    omega
  have hpeaks := peaks_two_pow_mul_add (q := 1) hrest
  rw [Nat.mul_one, Nat.add_sub_cancel' hlow.le, peaks_one] at hpeaks
  rw [heq, hpeaks]

/-- An append completes as many subtrees as it leaves fewer peaks behind than there would
be. -/
theorem peaks_succ {n f t : ℕ} (hn : n + 1 = (f + 1) * 2 ^ t) (heven : f % 2 = 0) :
    t + peaks (n + 1) = peaks n + 1 := by
  have hbelow : peaks (2 ^ t - 1) = t := by
    clear hn heven
    induction t with
    | zero => simp
    | succ t ih =>
        have hpos := Nat.two_pow_pos t
        have hdouble : 2 ^ (t + 1) - 1 = 2 * (2 ^ t - 1) + 1 := by
          rw [pow_succ]
          omega
        rw [hdouble, peaks_two_mul_add (by omega), ih]
  have hlast : n = 2 ^ t * f + (2 ^ t - 1) := by
    have hpos := Nat.two_pow_pos t
    rw [Nat.add_mul, Nat.one_mul, Nat.mul_comm] at hn
    omega
  have hodd : peaks (f + 1) = peaks f + 1 := by
    have hhalf : f = 2 * (f / 2) := by omega
    have hzero := peaks_two_mul_add (n := f / 2) (b := 0) (by omega)
    have hone := peaks_two_mul_add (n := f / 2) (b := 1) (by omega)
    rw [Nat.add_zero, ← hhalf] at hzero
    rw [← hhalf] at hone
    omega
  have hafter : peaks (n + 1) = peaks (f + 1) := by
    rw [hn, Nat.mul_comm]
    simpa using peaks_two_pow_mul_add (q := f + 1) (Nat.two_pow_pos t)
  have hbefore : peaks n = peaks f + t := by
    rw [hlast, peaks_two_pow_mul_add (by have := Nat.two_pow_pos t; omega), hbelow]
  omega

end Rfc6962
