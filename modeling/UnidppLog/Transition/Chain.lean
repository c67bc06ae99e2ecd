/-
# Chains of labelled steps

A specification that says what one labelled step may do to a state, and the states
that a list of labels leads through. An implementation whose labels come to be in the
order of their steps refines it by a chain that it extends at the end; what a label
shows may be filled in later, as long as its step stays one.
-/

import Mathlib.Data.List.Basic

namespace Transition

universe u v

variable {State : Type u} {Label : Type v}

/-- The steps that these labels stand for, one after the other. -/
inductive Chain (R : State → Label → State → Prop) : State → List Label → State → Prop
  | nil (s : State) : Chain R s [] s
  | cons {s mid t : State} {label : Label} {rest : List Label} (hstep : R s label mid)
      (hrest : Chain R mid rest t) : Chain R s (label :: rest) t

namespace Chain

variable {R R' : State → Label → State → Prop} {s t : State} {labels : List Label}

theorem append {mid : State} {more : List Label} (h : Chain R s labels mid)
    (h' : Chain R mid more t) : Chain R s (labels ++ more) t := by
  induction h with
  | nil => exact h'
  | cons hstep _ ih => exact .cons hstep (ih h')

theorem snoc {mid : State} {label : Label} (h : Chain R s labels mid) (hstep : R mid label t) :
    Chain R s (labels ++ [label]) t :=
  h.append (.cons hstep (.nil t))

theorem mono (h : Chain R s labels t) (himp : ∀ s label t, R s label t → R' s label t) :
    Chain R' s labels t := by
  induction h with
  | nil => exact .nil _
  | cons hstep _ ih => exact .cons (himp _ _ _ hstep) ih

/-- The states around one of the labels. -/
theorem exists_step (h : Chain R s labels t) {i : ℕ} {label : Label}
    (hi : labels[i]? = some label) :
    ∃ before after, Chain R s (labels.take i) before ∧ R before label after ∧
      Chain R after (labels.drop (i + 1)) t := by
  induction h generalizing i with
  | nil => simp at hi
  | @cons s mid t first rest hstep hrest ih =>
      cases i with
      | zero =>
          obtain rfl : first = label := by simpa using hi
          exact ⟨s, mid, .nil s, hstep, hrest⟩
      | succ i =>
          obtain ⟨before, after, hbefore, hlabel, hafter⟩ := ih (by simpa using hi)
          exact ⟨before, after, .cons hstep hbefore, hlabel, hafter⟩

/-- A label may be replaced by one whose step is one wherever the old one's was. -/
theorem set (h : Chain R s labels t) {i : ℕ} {old new : Label} (hi : labels[i]? = some old)
    (himp : ∀ s t, R s old t → R s new t) : Chain R s (labels.set i new) t := by
  obtain ⟨before, after, hbefore, hstep, hafter⟩ := h.exists_step hi
  obtain ⟨hlt, -⟩ := List.getElem?_eq_some_iff.mp hi
  rw [List.set_eq_take_append_cons_drop, if_pos hlt]
  exact hbefore.append (.cons (himp _ _ hstep) hafter)

/-- What every step leads on to, a chain leads on to. -/
theorem le {r : State → State → Prop} (hrefl : ∀ s, r s s)
    (htrans : ∀ s mid t, r s mid → r mid t → r s t) (hstep : ∀ s label t, R s label t → r s t)
    (h : Chain R s labels t) : r s t := by
  induction h with
  | nil => exact hrefl _
  | cons hfirst _ ih => exact htrans _ _ _ (hstep _ _ _ hfirst) ih

/-- What holds of any two steps that a chain takes one before the other. -/
theorem pairwise {r : State → State → Prop} (hrefl : ∀ s, r s s)
    (htrans : ∀ s mid t, r s mid → r mid t → r s t) (hstep : ∀ s label t, R s label t → r s t)
    {P : Label → Label → Prop} (h : Chain R s labels t)
    (hP : ∀ s first s₁ s₂ second s₃, R s first s₁ → r s₁ s₂ → R s₂ second s₃ → r s₃ t →
      P first second) : labels.Pairwise P := by
  induction h with
  | nil => exact .nil
  | cons hfirst hrest ih =>
      refine .cons (fun second hsecond => ?_) (ih hP)
      obtain ⟨i, hi⟩ := List.mem_iff_getElem?.mp hsecond
      obtain ⟨before, after, hbefore, hlabel, hafter⟩ := hrest.exists_step hi
      exact hP _ _ _ _ _ _ hfirst (hbefore.le hrefl htrans hstep) hlabel
        (hafter.le hrefl htrans hstep)

/-- Two chains whose matching labels step alike end alike, and their labels match as their
steps say. -/
theorem lockstep {Label' : Type*} {R' : State → Label' → State → Prop} {t' : State}
    {labels' : List Label'} {A B : Label → Label' → Prop}
    (hstep : ∀ s label label' t t', A label label' → R s label t → R' s label' t' →
      t = t' ∧ B label label')
    (hA : List.Forall₂ A labels labels') (h : Chain R s labels t) (h' : Chain R' s labels' t') :
    t = t' ∧ List.Forall₂ B labels labels' := by
  induction hA generalizing s with
  | nil =>
      cases h
      cases h'
      exact ⟨rfl, .nil⟩
  | cons hlabel _ ih =>
      cases h with
      | cons hfirst hrest =>
          cases h' with
          | cons hfirst' hrest' =>
              obtain ⟨rfl, hB⟩ := hstep _ _ _ _ _ hlabel hfirst hfirst'
              obtain ⟨rfl, hBs⟩ := ih hrest hrest'
              exact ⟨rfl, .cons hB hBs⟩

end Chain

end Transition
