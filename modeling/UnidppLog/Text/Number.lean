/-
# Numbers in a radix

The number that digits stand for, in any radix up to sixteen and in either case. The
digits of a number are read back as that number, zeros in front of them or not.
-/

import UnidppLog.Hex

namespace Text

/-- `char::to_digit`. -/
def digit (radix : ℕ) (c : Char) : Option ℕ :=
  (Hex.value c).filter (· < radix)

/-- The number of some digits behind `acc`, if all of them are digits. -/
def numberFrom (radix : ℕ) (acc : ℕ) : List Char → Option ℕ
  | [] => some acc
  | c :: rest => do
    let d ← digit radix c
    numberFrom radix (acc * radix + d) rest

variable {radix : ℕ}

theorem toLower_of_not_isUpper {c : Char} (h : ¬ c.isUpper) : c.toLower = c := by
  have hrange : ¬ (c.val ≥ 'A'.val ∧ c.val ≤ 'Z'.val) := fun hrange => h (decide_eq_true hrange)
  exact dif_neg hrange

theorem digit_toLower (c : Char) : digit radix c.toLower = digit radix c := by
  by_cases hupper : c.isUpper
  · have hlt : c.toNat < 128 := by
      have hrange : c.val ≥ 'A'.val ∧ c.val ≤ 'Z'.val := of_decide_eq_true hupper
      have hle : c.val.toNat ≤ 90 := UInt32.le_iff_toNat_le.mp hrange.2
      exact Nat.lt_of_le_of_lt hle (by decide)
    have hall : ∀ m : Fin 128, Hex.value (Char.ofNat m).toLower = Hex.value (Char.ofNat m) := by
      decide
    have hvalue := hall ⟨c.toNat, hlt⟩
    rw [Char.ofNat_toNat] at hvalue
    rw [digit, digit, hvalue]
  · rw [toLower_of_not_isUpper hupper]

theorem digit_digitChar {d : ℕ} (hd : d < radix) (hradix : radix ≤ 16) :
    digit radix (Nat.digitChar d) = some d := by
  rw [digit, Hex.value_digitChar (by omega)]
  simp [hd]

theorem numberFrom_append (acc : ℕ) (cs ds : List Char) :
    numberFrom radix acc (cs ++ ds) =
      (numberFrom radix acc cs).bind fun acc => numberFrom radix acc ds := by
  induction cs generalizing acc with
  | nil => rfl
  | cons c cs ih =>
      rw [List.cons_append, numberFrom, numberFrom]
      cases digit radix c with
      | none => rfl
      | some d => exact ih _

theorem numberFrom_map_toLower (acc : ℕ) (cs : List Char) :
    numberFrom radix acc (cs.map Char.toLower) = numberFrom radix acc cs := by
  induction cs generalizing acc with
  | nil => rfl
  | cons c cs ih =>
      rw [List.map_cons, numberFrom, numberFrom, digit_toLower]
      simp only [ih]

theorem numberFrom_zeros (hpos : 0 < radix) (hradix : radix ≤ 16) (zeros : ℕ) (cs : List Char) :
    numberFrom radix 0 (List.replicate zeros '0' ++ cs) = numberFrom radix 0 cs := by
  have hzero : digit radix '0' = some 0 := digit_digitChar (d := 0) hpos hradix
  induction zeros with
  | zero => rfl
  | succ zeros ih =>
      rw [List.replicate_succ, List.cons_append, numberFrom, hzero]
      simpa using ih

/-- A number is read back from its digits. -/
theorem numberFrom_toDigits (hone : 1 < radix) (hradix : radix ≤ 16) (n : ℕ) :
    numberFrom radix 0 (Nat.toDigits radix n) = some n := by
  induction n using Nat.strongRecOn with
  | ind n ih =>
      rcases Nat.lt_or_ge n radix with hlt | hge
      · rw [Nat.toDigits_of_lt_base hlt, numberFrom, digit_digitChar hlt hradix]
        simp [numberFrom]
      · have hdigit : digit radix (Nat.digitChar (n % radix)) = some (n % radix) :=
          digit_digitChar (Nat.mod_lt _ (by omega)) hradix
        have hsum : n / radix * radix + n % radix = n := Nat.div_add_mod' n radix
        rw [Nat.toDigits_of_base_le hone hge, numberFrom_append,
          ih _ (Nat.div_lt_self (by omega) hone), Option.bind_some, numberFrom, hdigit]
        simp [numberFrom, hsum]

theorem isSome_digit_of_numberFrom {acc n : ℕ} {cs : List Char}
    (h : numberFrom radix acc cs = some n) : ∀ c ∈ cs, (digit radix c).isSome := by
  induction cs generalizing acc with
  | nil => simp
  | cons c cs ih =>
      rw [numberFrom] at h
      obtain ⟨d, hd, hrest⟩ := Option.bind_eq_some_iff.mp h
      simp only [List.mem_cons, forall_eq_or_imp]
      exact ⟨by simp [hd], ih hrest⟩

/-- What holds of the ASCII characters that are digits holds of all digits. -/
theorem of_isSome_digit {p : Char → Prop} {c : Char} (hc : (digit radix c).isSome)
    (hall : ∀ m : Fin 128, (Hex.value (Char.ofNat m)).isSome → p (Char.ofNat m)) : p c := by
  obtain ⟨d, hd⟩ := Option.isSome_iff_exists.mp hc
  obtain ⟨hvalue, -⟩ := Option.filter_eq_some_iff.mp hd
  have hp := hall ⟨c.toNat, Hex.toNat_lt_of_value hvalue⟩
  rw [Char.ofNat_toNat] at hp
  exact hp (by simp [hvalue])

end Text
