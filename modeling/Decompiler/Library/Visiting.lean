import Mathlib.Algebra.BigOperators.Group.Finset.Basic
import Mathlib.Algebra.Order.BigOperators.Group.Finset
import Mathlib.Data.List.ReduceOption
import Decompiler.Library.Fallible

/-! # Visiting everything at most once

A machine works off its pending tasks and keeps a set of the items it has visited. A
step that takes a new item may leave more tasks behind than there were, any other step
leaves fewer. A run then takes every item at most once, and its length is bounded.
-/

namespace Visiting

variable {S α ε β γ : Type*}

inductive Run (R : S → Option α → S → Prop) : S → List (Option α) → S → Prop
  | refl (s : S) : Run R s [] s
  | head {s t u : S} {item : Option α} {items : List (Option α)} (step : R s item t)
    (rest : Run R t items u) : Run R s (item :: items) u

variable {R : S → Option α → S → Prop} {s t u : S} {items items' : List (Option α)}

theorem Run.trans (h : Run R s items t) (h' : Run R t items' u) : Run R s (items ++ items') u := by
  induction h with
  | refl => exact h'
  | head hstep _ ih => exact .head hstep (ih h')

section Once

variable [DecidableEq α]

/-- Each step lowers what is pending, or it takes an item of a finite set, whose weight pays for
what it adds. Nothing that has been visited is taken. -/
structure TakesOnce (R : S → Option α → S → Prop) (visited : S → Finset α) (pending : S → ℕ)
    (U : Finset α) (weight : α → ℕ) : Prop where
  skip : ∀ s t, R s none t → visited t = visited s ∧ pending t < pending s
  take : ∀ s a t, R s (some a) t → a ∉ visited s ∧ visited t = insert a (visited s) ∧
    (pending t < pending s ∨ a ∈ U ∧ pending t < pending s + weight a)

structure Fresh (visited : Finset α) (order : List α) : Prop where
  nodup : order.Nodup
  not_visited : ∀ a ∈ order, a ∉ visited

/-- Every run from a state ends within a number of steps, and takes only new items, each of them
once. -/
structure RunsOut (R : S → Option α → S → Prop) (s : S) (bound : ℕ) (visited : Finset α) :
    Prop where
  length_le : ∀ items t, Run R s items t → items.length ≤ bound
  fresh : ∀ items t, Run R s items t → Fresh visited items.reduceOption

namespace TakesOnce

variable {visited : S → Finset α} {pending : S → ℕ} {U : Finset α} {weight : α → ℕ}
  (h : TakesOnce R visited pending U weight)

include h

theorem step_lt {item : Option α} (hstep : R s item t) :
    pending t + ∑ a ∈ U \ visited t, weight a < pending s + ∑ a ∈ U \ visited s, weight a := by
  cases item with
  | none =>
    obtain ⟨hvisited, hlt⟩ := h.skip s t hstep
    rw [hvisited]
    omega
  | some a =>
    obtain ⟨hnew, hvisited, hpending⟩ := h.take s a t hstep
    rw [hvisited, Finset.sdiff_insert]
    have hsum := Finset.sum_le_sum_of_subset (f := weight)
      (Finset.erase_subset a (U \ visited s))
    rcases hpending with hlt | ⟨hU, hlt⟩
    · omega
    · have hsplit := Finset.add_sum_erase (U \ visited s) weight (Finset.mem_sdiff.mpr ⟨hU, hnew⟩)
      omega

theorem length_le (hrun : Run R s items t) :
    items.length + (pending t + ∑ a ∈ U \ visited t, weight a) ≤
      pending s + ∑ a ∈ U \ visited s, weight a := by
  induction hrun with
  | refl => simp
  | head hstep _ ih =>
    have hlt := h.step_lt hstep
    rw [List.length_cons]
    omega

theorem mem_visited_iff (hrun : Run R s items t) {a : α} :
    a ∈ visited t ↔ a ∈ visited s ∨ a ∈ items.reduceOption := by
  induction hrun with
  | refl => simp
  | @head s t u item items hstep _ ih =>
    rw [ih]
    cases item with
    | none => rw [(h.skip s t hstep).1, List.reduceOption_cons_of_none]
    | some b =>
      rw [(h.take s b t hstep).2.1, List.reduceOption_cons_of_some, Finset.mem_insert,
        List.mem_cons, or_comm (a := a = b), or_assoc]

theorem fresh (hrun : Run R s items t) : Fresh (visited s) items.reduceOption := by
  induction hrun with
  | refl => exact ⟨List.nodup_nil, fun a ha => (List.not_mem_nil ha).elim⟩
  | @head s t u item items hstep _ ih =>
    cases item with
    | none => rwa [List.reduceOption_cons_of_none, ← (h.skip s t hstep).1]
    | some b =>
      obtain ⟨hnew, hvisited, -⟩ := h.take s b t hstep
      rw [hvisited] at ih
      rw [List.reduceOption_cons_of_some]
      constructor
      case nodup =>
        rw [List.nodup_cons]
        exact ⟨fun hb => ih.not_visited b hb (Finset.mem_insert_self b _), ih.nodup⟩
      case not_visited =>
        intro a ha
        rcases List.mem_cons.mp ha with rfl | ha
        · exact hnew
        · exact fun hmem => ih.not_visited a ha (Finset.mem_insert_of_mem hmem)

theorem runsOut (s : S) :
    RunsOut R s (pending s + ∑ a ∈ U \ visited s, weight a) (visited s) where
  length_le _ _ hrun := (Nat.le_add_right _ _).trans (h.length_le hrun)
  fresh _ _ hrun := h.fresh hrun

end TakesOnce

end Once

section Computations

/-- The machine carries a computation out: it comes to a state for what is returned, or to one
that raises the error. Running out of fuel is not an error of the machine. -/
def CarriedOut (R : S → Option α → S → Prop) (limit : ε) (raises : ε → S → Prop) (s : S)
    (x : Except ε β) (Q : β → List (Option α) → S → Prop) : Prop :=
  match x with
  | .ok b => ∃ items t, Run R s items t ∧ Q b items t
  | .error e => e = limit ∨ ∃ items t, Run R s items t ∧ raises e t

namespace CarriedOut

variable {limit : ε} {raises : ε → S → Prop}

theorem ok {b : β} {Q : β → List (Option α) → S → Prop} (h : Q b [] s) :
    CarriedOut R limit raises s (.ok b) Q := ⟨[], s, .refl s, h⟩

theorem limit_error {Q : β → List (Option α) → S → Prop} :
    CarriedOut R limit raises s (.error limit) Q := Or.inl rfl

theorem raised {e : ε} {Q : β → List (Option α) → S → Prop} (h : raises e s) :
    CarriedOut R limit raises s (.error e) Q := Or.inr ⟨[], s, .refl s, h⟩

/-- After a run the machine carries out what is left. -/
theorem of_run {x : Except ε β} {Q : β → List (Option α) → S → Prop} (hrun : Run R s items t)
    (h : CarriedOut R limit raises t x fun b items' u => Q b (items ++ items') u) :
    CarriedOut R limit raises s x Q := by
  cases x with
  | ok b =>
    obtain ⟨items', u, hrun', hQ⟩ := h
    exact ⟨items ++ items', u, hrun.trans hrun', hQ⟩
  | error e =>
    rcases h with hlimit | ⟨items', u, hrun', hraise⟩
    · exact Or.inl hlimit
    · exact Or.inr ⟨items ++ items', u, hrun.trans hrun', hraise⟩

theorem of_step {x : Except ε β} {Q : β → List (Option α) → S → Prop} {item : Option α}
    (hstep : R s item t)
    (h : CarriedOut R limit raises t x fun b items u => Q b (item :: items) u) :
    CarriedOut R limit raises s x Q :=
  of_run (.head hstep (.refl t)) h

end CarriedOut

end Computations

section Bind

variable {β γ : Type} {limit : ε} {raises : ε → S → Prop}

theorem CarriedOut.bind {x : Except ε β} {k : β → Except ε γ}
    {P : β → List (Option α) → S → Prop} {Q : γ → List (Option α) → S → Prop}
    (hx : CarriedOut R limit raises s x P)
    (hk : ∀ b items t, P b items t →
      CarriedOut R limit raises t (k b) fun c items' u => Q c (items ++ items') u) :
    CarriedOut R limit raises s (x >>= k) Q := by
  cases x with
  | ok b =>
    obtain ⟨items, t, hrun, hP⟩ := hx
    exact of_run hrun (hk b items t hP)
  | error e => exact hx

end Bind

end Visiting
