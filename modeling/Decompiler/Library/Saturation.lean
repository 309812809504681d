import Mathlib.Data.Set.Insert
import Mathlib.Data.List.Induction
import Mathlib.Order.Bounds.Basic

/-! # Saturation by single rules

Rules over sets of facts are applied one at a time, in some order and with
repetitions. Each of them adds its target once the facts present fire it. Nothing that is
added is unjustified, so that a history with a closed result has reached the least closed
set, whatever the order.
-/

namespace Saturation

/-- Rules with at most one target each, which fire on larger sets when they fire on smaller
ones. -/
structure Rules (ρ α : Type*) where
  target : ρ → Option α
  Fires : ρ → Set α → Prop
  mono : ∀ {r : ρ} {s t : Set α}, s ⊆ t → Fires r s → Fires r t

namespace Rules

variable {ρ α : Type*} (R : Rules ρ α) {rules : Set ρ} {h : List ρ} {r : ρ} {a : α} {s : Set α}

def Closed (rules : Set ρ) (s : Set α) : Prop :=
  ∀ r ∈ rules, R.Fires r s → ∀ a, R.target r = some a → a ∈ s

def adds (r : ρ) (s : Set α) : Set α := {a | R.Fires r s ∧ R.target r = some a}

def reached (h : List ρ) : Set α := h.foldl (fun s r => s ∪ R.adds r s) ∅

@[simp] theorem reached_nil : R.reached [] = ∅ := rfl

theorem reached_concat (h : List ρ) (r : ρ) :
    R.reached (h ++ [r]) = R.reached h ∪ R.adds r (R.reached h) := by
  simp [reached]

theorem mem_reached_concat : a ∈ R.reached (h ++ [r]) ↔
    a ∈ R.reached h ∨ R.Fires r (R.reached h) ∧ R.target r = some a := by
  rw [reached_concat]
  exact Iff.rfl

variable {R}

/-- A closed set contains everything that its rules reach. -/
theorem Closed.reached_subset (hs : R.Closed rules s) (hh : ∀ r ∈ h, r ∈ rules) :
    R.reached h ⊆ s := by
  induction h using List.reverseRecOn with
  | nil => exact Set.empty_subset s
  | append_singleton h r ih =>
    have hsub : R.reached h ⊆ s := ih fun q hq => hh q (List.mem_append_left _ hq)
    intro a ha
    rcases R.mem_reached_concat.mp ha with hold | ⟨hfires, htarget⟩
    · exact hsub hold
    · exact hs r (hh r (by simp)) (R.mono hsub hfires) a htarget

theorem isLeast_reached (hh : ∀ r ∈ h, r ∈ rules) (hclosed : R.Closed rules (R.reached h)) :
    IsLeast {s | R.Closed rules s} (R.reached h) :=
  ⟨hclosed, fun _ hs => Closed.reached_subset hs hh⟩

variable (R) in
/-- Applying `r` after the history adds `a`, which was not there. -/
structure Introduces (h : List ρ) (r : ρ) (a : α) : Prop where
  new : a ∉ R.reached h
  fires : R.Fires r (R.reached h)
  target : R.target r = some a

theorem Introduces.mem (hi : R.Introduces h r a) : a ∈ R.reached (h ++ [r]) :=
  R.mem_reached_concat.mpr (Or.inr ⟨hi.fires, hi.target⟩)

end Rules

end Saturation
