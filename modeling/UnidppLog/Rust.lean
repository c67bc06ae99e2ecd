/-
# Checked machine arithmetic

A computation that may panic returns an `Option`, and `none` is the panic: an
arithmetic overflow or underflow, a failed debug assertion, or an index out of
range (`xs[i]?`). A `u64` or `usize` is a natural number below `2 ^ 64`, and the
operations that can leave that range are checked here, one by one.
-/

import Mathlib.Data.List.Basic
import Mathlib.Data.Nat.Prime.Basic
import Mathlib.Tactic.Ring

namespace UnidppLog

/-- `debug_assert!`. -/
def debugAssert (condition : Bool) : Option Unit :=
  if condition then some () else none

@[simp]
theorem debugAssert_eq_some_iff {condition : Bool} {u : Unit} :
    debugAssert condition = some u ↔ condition = true := by
  simp [debugAssert]

/-- `Option::ok_or`. -/
def okOr {α ε : Type} (value : Option α) (error : ε) : Except ε α :=
  match value with
  | some a => .ok a
  | none => .error error

@[simp]
theorem okOr_some {α ε : Type} (a : α) (error : ε) : okOr (some a) error = .ok a :=
  rfl

@[simp]
theorem okOr_none {α ε : Type} (error : ε) : okOr (none : Option α) error = .error error :=
  rfl

@[simp]
theorem ok_bind {α β ε : Type} (a : α) (f : α → Except ε β) : (Except.ok a >>= f) = f a :=
  rfl

@[simp]
theorem error_bind {α β ε : Type} (e : ε) (f : α → Except ε β) :
    (Except.error e >>= f) = .error e :=
  rfl

/-- An error or a result is bound to the rest. -/
theorem bind_eq_ok_iff {α β ε : Type} {result : Except ε α} {f : α → Except ε β} {b : β} :
    result >>= f = .ok b ↔ ∃ a, result = .ok a ∧ f a = .ok b := by
  cases result with
  | error e => simp
  | ok a => simp

theorem okOr_eq_ok_iff {α ε : Type} {value : Option α} {error : ε} {a : α} :
    okOr value error = .ok a ↔ value = some a := by
  cases value <;> simp

namespace U64

/-- `a + b` on `u64`, which panics on overflow. -/
def add (a b : ℕ) : Option ℕ :=
  if a + b < 2 ^ 64 then some (a + b) else none

/-- `a - b` on `u64`, which panics on underflow. -/
def sub (a b : ℕ) : Option ℕ :=
  if b ≤ a then some (a - b) else none

/-- `a / b` on `u64`, which panics on a zero divisor. -/
def div (a b : ℕ) : Option ℕ :=
  if b = 0 then none else some (a / b)

/-- `a << b` on `u64`, which panics on a shift by the width or more. -/
def shl (a b : ℕ) : Option ℕ :=
  if b < 64 then some ((a <<< b) % 2 ^ 64) else none

/-- `a >> b` on `u64`, which panics on a shift by the width or more. -/
def shr (a b : ℕ) : Option ℕ :=
  if b < 64 then some (a >>> b) else none

/-- `u64::ilog2`, which panics on zero. -/
def ilog2 (n : ℕ) : Option ℕ :=
  if n = 0 then none else some n.log2

/-- `u64::trailing_zeros`: the first set bit, or `64` when there is none. -/
def trailingZeros (n : ℕ) : ℕ :=
  ((List.range 64).find? fun k => n.testBit k).getD 64

theorem add_of_lt {a b : ℕ} (hsum : a + b < 2 ^ 64) : add a b = some (a + b) :=
  if_pos hsum

theorem sub_of_le {a b : ℕ} (hle : b ≤ a) : sub a b = some (a - b) :=
  if_pos hle

theorem add_cases (a b : ℕ) : add a b = none ∨ add a b = some (a + b) := by
  rw [add]
  split <;> simp

theorem sub_cases (a b : ℕ) : sub a b = none ∨ sub a b = some (a - b) := by
  rw [sub]
  split <;> simp

theorem div_of_pos {a b : ℕ} (hpos : 0 < b) : div a b = some (a / b) :=
  if_neg hpos.ne'

theorem one_shl {b : ℕ} (hb : b < 64) : shl 1 b = some (1 <<< b) := by
  rw [shl, if_pos hb, Nat.one_shiftLeft,
    Nat.mod_eq_of_lt (Nat.pow_lt_pow_right (by decide) hb)]

theorem shr_of_lt {a b : ℕ} (hb : b < 64) : shr a b = some (a >>> b) :=
  if_pos hb

theorem ilog2_of_pos {n : ℕ} (hpos : 0 < n) : ilog2 n = some n.log2 :=
  if_neg hpos.ne'

/-- A cast to `u64` loses nothing of what fits. -/
theorem ofNat_inj {m n : ℕ} (hm : m < 2 ^ 64) (hn : n < 2 ^ 64)
    (heq : UInt64.ofNat m = UInt64.ofNat n) : m = n := by
  have hnat := congrArg UInt64.toNat heq
  rwa [UInt64.toNat_ofNat', UInt64.toNat_ofNat', Nat.mod_eq_of_lt hm, Nat.mod_eq_of_lt hn] at hnat

/-- An odd multiple of `2 ^ t` has exactly `t` trailing zeros. -/
theorem trailingZeros_eq {f t : ℕ} (heven : f % 2 = 0) (ht : t < 64) :
    trailingZeros ((f + 1) * 2 ^ t) = t := by
  have hbit : ∀ k, k ≤ t → ((f + 1) * 2 ^ t).testBit k = decide (k = t) := by
    intro k hk
    obtain ⟨j, rfl⟩ := Nat.exists_eq_add_of_le hk
    have hquot : (f + 1) * 2 ^ (k + j) / 2 ^ k = (f + 1) * 2 ^ j := by
      rw [pow_add, Nat.mul_left_comm, Nat.mul_div_cancel_left _ (Nat.two_pow_pos k)]
    rw [Nat.testBit_eq_decide_div_mod_eq, hquot]
    cases j with
    | zero => simp; omega
    | succ j => rw [pow_succ, ← Nat.mul_assoc]; simp
  have hfind : (List.range 64).find? (fun k => ((f + 1) * 2 ^ t).testBit k) = some t := by
    rw [List.find?_range_eq_some]
    refine ⟨by simp [hbit t le_rfl], by simpa using ht, fun k hk => ?_⟩
    simp [hbit k hk.le, hk.ne]
  rw [trailingZeros, hfind]
  rfl

end U64

/-- `a + b` on `i64`, which panics on overflow. -/
def I64.add (a b : ℤ) : Option ℤ :=
  if -2 ^ 63 ≤ a + b ∧ a + b < 2 ^ 63 then some (a + b) else none

/-- `&bytes[lo..hi]`, which panics out of range. -/
def subslice {α : Type} (bytes : List α) (lo hi : ℕ) : Option (List α) :=
  if lo ≤ hi ∧ hi ≤ bytes.length then some ((bytes.drop lo).take (hi - lo)) else none

theorem subslice_of_le {α : Type} (bytes : List α) {lo hi : ℕ} (hlo : lo ≤ hi)
    (hhi : hi ≤ bytes.length) : subslice bytes lo hi = some ((bytes.drop lo).take (hi - lo)) :=
  if_pos ⟨hlo, hhi⟩

/-- A slice behind some elements is one of the rest. -/
theorem subslice_append {α : Type} (front back : List α) (lo hi : ℕ) :
    subslice (front ++ back) (front.length + lo) (front.length + hi) = subslice back lo hi := by
  have hroom : front.length + lo ≤ front.length + hi ∧ front.length + hi ≤ (front ++ back).length ↔
      lo ≤ hi ∧ hi ≤ back.length := by
    rw [List.length_append]
    omega
  simp only [subslice, hroom, ← List.drop_drop, List.drop_left, Nat.add_sub_add_left]

theorem subslice_take {α : Type} {bytes : List α} {n : ℕ} (hn : n ≤ bytes.length) :
    subslice bytes 0 n = some (bytes.take n) := by
  rw [subslice_of_le _ (Nat.zero_le _) hn]
  rfl

theorem subslice_drop {α : Type} {bytes : List α} {n : ℕ} (hn : n ≤ bytes.length) :
    subslice bytes n bytes.length = some (bytes.drop n) := by
  rw [subslice_of_le _ hn le_rfl, List.take_of_length_le (by rw [List.length_drop])]

end UnidppLog
