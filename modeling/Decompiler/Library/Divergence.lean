import Mathlib.Computability.StateTransition
import Decompiler.Library.Simulation

/-! # Runs without an end

A relation runs endlessly from a state unless some state behind it has no successor. A machine that
follows an endless run does not end. It need not take a step for each one of the other side, as
long as what is left to do without one becomes less.
-/

open Relation StateTransition Simulation

namespace Divergence

variable {α β : Type*} {R : α → α → Prop} {f : α → Option α} {g : β → Option β}

/-- There is a run from the state that never ends. -/
def Endless (R : α → α → Prop) (a : α) : Prop :=
  ∃ run : ℕ → α, run 0 = a ∧ ∀ n, R (run n) (run (n + 1))

theorem Endless.exists_step {a : α} (h : Endless R a) : ∃ b, R a b ∧ Endless R b := by
  obtain ⟨run, rfl, hrun⟩ := h
  exact ⟨run 1, hrun 0, fun n => run (n + 1), rfl, fun n => hrun (n + 1)⟩

/-- There is one from each state of a set that every state of it has a step into. -/
theorem endless_of_invariant (P : α → Prop) (hstep : ∀ b, P b → ∃ c, R b c ∧ P c) {a : α}
    (ha : P a) : Endless R a := by
  choose next hnext hP using fun b : {b // P b} => hstep b.1 b.2
  let run (n : ℕ) : {b // P b} := (fun b => ⟨next b, hP b⟩)^[n] ⟨a, ha⟩
  refine ⟨fun n => (run n).1, rfl, fun n => ?_⟩
  have hsucc : run (n + 1) = ⟨next (run n), hP (run n)⟩ := Function.iterate_succ_apply' _ n _
  show R (run n).1 (run (n + 1)).1
  rw [hsucc]
  exact hnext (run n)

theorem exists_stuck {a : α} (h : ¬ Endless R a) : ∃ b, ReflTransGen R a b ∧ ∀ c, ¬ R b c := by
  by_contra hnone
  push Not at hnone
  refine h (endless_of_invariant (ReflTransGen R a) (fun b hb => ?_) .refl)
  obtain ⟨c, hc⟩ := hnone b hb
  exact ⟨c, hc, hb.tail hc⟩

theorem dom_iff {b : β} : (eval g b).Dom ↔ ∃ c, Reaches g b c ∧ g c = none := by
  constructor
  · intro h
    exact ⟨_, mem_eval.mp (Part.get_mem h)⟩
  · rintro ⟨c, hc⟩
    exact Part.dom_iff_mem.mpr ⟨c, mem_eval.mpr hc⟩

theorem not_dom_iff {b : β} : ¬ (eval g b).Dom ↔ ∀ c, Reaches g b c → (g c).isSome := by
  rw [dom_iff]
  push Not
  exact forall₂_congr fun c _ => Option.isSome_iff_ne_none.symm

theorem dom_induction (P : β → Prop) {b : β} (hb : (eval g b).Dom)
    (h : ∀ b, (∀ c, Reaches₁ g b c → P c) → P b) : P b := by
  have hall : ∀ c, Reaches g b c → P c := by
    refine evalInduction (Part.get_mem hb) fun b _ ih => ?_
    have hbehind : ∀ c, Reaches₁ g b c → P c := by
      intro c hc
      obtain ⟨b', hb', hc⟩ := TransGen.head'_iff.mp hc
      exact ih b' hb' c hc
    intro c hc
    rcases reflTransGen_iff_eq_or_transGen.mp hc with rfl | hc
    · exact h _ hbehind
    · exact hbehind c hc
  exact hall b .refl

section Simulation

variable {rel : α → β → Prop}

theorem Endless.simulated {T : β → β → Prop} (hsim : Simulates R T rel) {a : α} {b : β}
    (hrel : rel a b) (h : Endless R a) : Endless T b := by
  refine endless_of_invariant (fun b => ∃ a, rel a b ∧ Endless R a) ?_ ⟨a, hrel, h⟩
  rintro b ⟨a, hrel, h⟩
  obtain ⟨a', ha, h'⟩ := h.exists_step
  obtain ⟨b', hb, hrel'⟩ := hsim hrel ha
  exact ⟨b', hb, a', hrel', h'⟩

theorem Endless.not_dom (hsim : Simulates R (Reaches₁ g) rel) {a : α} {b : β} (hrel : rel a b)
    (h : Endless R a) : ¬ (eval g b).Dom := by
  intro hdom
  refine dom_induction (fun b => ∀ a, rel a b → ¬ Endless R a) hdom ?_ a hrel h
  intro b ih a hrel h
  obtain ⟨a', ha, h'⟩ := h.exists_step
  obtain ⟨b', hb, hrel'⟩ := hsim hrel ha
  exact ih b' hb a' hrel' h'

/-- A machine ends if each of its steps is followed by steps of one that ends, or by none and
brings it closer to such a step. -/
theorem dom_of_follows (weight : α → ℕ)
    (hstep : ∀ a a' b, rel a b → f a = some a' → ∃ b', rel a' b' ∧
      (Reaches₁ g b b' ∨ Reaches g b b' ∧ weight a' < weight a)) {a : α} {b : β}
    (hrel : rel a b) (h : (eval g b).Dom) : (eval f a).Dom := by
  refine dom_induction (fun b => ∀ a, rel a b → (eval f a).Dom) h ?_ a hrel
  intro b ih a hrel
  -- behind the same state of the second machine the weight decreases
  induction hw : weight a using Nat.strongRecOn generalizing a with
  | ind n ihw =>
    cases ha : f a with
    | none => exact dom_iff.mpr ⟨a, .refl, ha⟩
    | some a' =>
      rw [reaches_eval (.single ha : Reaches f a a')]
      obtain ⟨b', hrel', hb | ⟨hb, hlt⟩⟩ := hstep a a' b hrel ha
      · exact ih b' hb a' hrel'
      rcases reflTransGen_iff_eq_or_transGen.mp hb with rfl | hb
      · exact ihw _ (hw ▸ hlt) a' hrel' rfl
      · exact ih b' hb a' hrel'

end Simulation

end Divergence
