/-
# Counted computations

A computation that may fail, with what it has spent. Erasing the count gives back a plain
computation, step by step, so a counted program is one that computes what the plain one
computes, and says what that costs. Loops are charged by a potential: what a round spends
more than its share, the state has saved before.
-/

import Mathlib.Algebra.Group.Nat.Even
import Mathlib.Data.List.Basic

namespace Cost

/-- A computation that may fail, with what it has spent. -/
def Counted (W α : Type) : Type :=
  Option (α × W)

namespace Counted

variable {W α β σ : Type}

/-- A step that may fail, and what it costs if it does not. -/
def charge (w : W) (x : Option α) : Counted W α :=
  x.map fun a => (a, w)

/-- What is computed. -/
def erase (x : Counted W α) : Option α :=
  Option.map Prod.fst x

@[simp]
theorem erase_charge (w : W) (x : Option α) : erase (charge w x) = x := by
  cases x <;> rfl

theorem charge_eq_some_iff {w w' : W} {x : Option α} {a : α} :
    charge w x = some (a, w') ↔ x = some a ∧ w' = w := by
  constructor
  · intro h
    obtain ⟨_, hx, heq⟩ := Option.map_eq_some_iff.mp h
    obtain ⟨rfl, rfl⟩ := Prod.mk.inj heq
    exact ⟨hx, rfl⟩
  · rintro ⟨rfl, rfl⟩
    rfl

/-- What is computed is computed at some cost. -/
theorem exists_of_erase {x : Counted W α} {a : α} (h : erase x = some a) :
    ∃ w, x = some (a, w) := by
  obtain ⟨⟨a', w⟩, hx, rfl⟩ := Option.map_eq_some_iff.mp h
  exact ⟨w, hx⟩

theorem erase_of_eq_some {x : Counted W α} {a : α} {w : W} (h : x = some (a, w)) :
    erase x = some a := by
  rw [h]
  rfl

section

variable [AddMonoid W]

instance : Monad (Counted W) where
  pure a := some (a, 0)
  bind x f := Option.bind x fun out => Option.map (fun out' => (out'.1, out.2 + out'.2)) (f out.1)

@[simp]
theorem erase_pure (a : α) : erase (pure a : Counted W α) = some a :=
  rfl

@[simp]
theorem erase_bind (x : Counted W α) (f : α → Counted W β) :
    erase (x >>= f) = (erase x).bind fun a => erase (f a) := by
  cases x with
  | none => rfl
  | some out =>
      obtain ⟨a, w⟩ := out
      show Option.map Prod.fst (Option.map _ (f a)) = Option.map Prod.fst (f a)
      cases f a <;> rfl

theorem pure_eq_some_iff {a b : α} {w : W} :
    (pure a : Counted W α) = some (b, w) ↔ a = b ∧ w = 0 := by
  show some (a, 0) = some (b, w) ↔ _
  simp [eq_comm]

/-- What two steps spend, they spend one after the other. -/
theorem bind_eq_some_iff {x : Counted W α} {f : α → Counted W β} {b : β} {w : W} :
    x >>= f = some (b, w) ↔
      ∃ a w₁ w₂, x = some (a, w₁) ∧ f a = some (b, w₂) ∧ w = w₁ + w₂ := by
  constructor
  · intro h
    obtain ⟨⟨a, w₁⟩, hx, hrest⟩ := Option.bind_eq_some_iff.mp h
    obtain ⟨⟨b', w₂⟩, hf, heq⟩ := Option.map_eq_some_iff.mp hrest
    obtain ⟨rfl, rfl⟩ := Prod.mk.inj heq
    exact ⟨a, w₁, w₂, hx, hf, rfl⟩
  · rintro ⟨a, w₁, w₂, rfl, hf, rfl⟩
    exact Option.map_eq_some_iff.mpr ⟨(b, w₂), hf, rfl⟩

instance : LawfulMonad (Counted W) := by
  refine LawfulMonad.mk' _ (fun x => ?_) (fun a f => ?_) (fun x f g => ?_)
  · cases x with
    | none => rfl
    | some out =>
        show some (out.1, out.2 + 0) = some out
        rw [add_zero]
  · show Option.map (fun out => (out.1, 0 + out.2)) (f a) = f a
    simp only [zero_add]
    exact congrFun Option.map_id (f a)
  · cases x with
    | none => rfl
    | some out =>
        show Option.bind (Option.map _ (f out.1)) _ = Option.map _ (Option.bind (f out.1) _)
        cases f out.1 with
        | none => rfl
        | some out' =>
            show Option.map _ (g out'.1) = Option.map _ (Option.map _ (g out'.1))
            cases g out'.1 with
            | none => rfl
            | some out'' =>
                show some (out''.1, out.2 + out'.2 + out''.2) =
                  some (out''.1, out.2 + (out'.2 + out''.2))
                rw [add_assoc]

/-- What costs nothing leaves the rest as it is. -/
theorem charge_zero_bind (x : Option α) (f : α → Counted W β) :
    charge 0 x >>= f = Option.bind x f := by
  cases x with
  | none => rfl
  | some a => exact pure_bind a f

/-- Counting a loop counts its rounds. -/
theorem erase_foldlM {f : σ → β → Counted W σ} {g : σ → β → Option σ}
    (h : ∀ s x, erase (f s x) = g s x) (s : σ) (xs : List β) :
    erase (xs.foldlM f s) = xs.foldlM g s := by
  induction xs generalizing s with
  | nil => rfl
  | cons x xs ih =>
      rw [List.foldlM_cons, List.foldlM_cons, erase_bind, h]
      exact congrArg _ (funext fun t => ih t)

end

section

variable [AddCommMonoid W]

/-- Where every round spends the same share, but for what the state saves for later rounds or
has saved before, so do all rounds. -/
theorem foldlM_spends {f : σ → β → Counted W σ} {I : σ → Prop} {saved : σ → W} {share : W}
    (hstep : ∀ s x t w, I s → f s x = some (t, w) → I t ∧ w + saved t = saved s + share)
    {s t : σ} {w : W} {xs : List β} (hI : I s) (h : xs.foldlM f s = some (t, w)) :
    I t ∧ w + saved t = saved s + xs.length • share := by
  induction xs generalizing s w with
  | nil =>
      rw [List.foldlM_nil, pure_eq_some_iff] at h
      obtain ⟨rfl, rfl⟩ := h
      exact ⟨hI, by simp⟩
  | cons x xs ih =>
      rw [List.foldlM_cons, bind_eq_some_iff] at h
      obtain ⟨mid, w₁, w₂, hfirst, hrest, rfl⟩ := h
      obtain ⟨hmid, hspent⟩ := hstep _ _ _ _ hI hfirst
      obtain ⟨hlast, hspent'⟩ := ih hmid hrest
      refine ⟨hlast, ?_⟩
      calc w₁ + w₂ + saved t
          = w₁ + (saved mid + xs.length • share) := by rw [add_assoc, hspent']
        _ = saved s + share + xs.length • share := by rw [← add_assoc, hspent]
        _ = saved s + (x :: xs).length • share := by
            rw [List.length_cons, succ_nsmul, add_assoc, add_comm share]

end

end Counted

end Cost
