import Mathlib.Data.Nat.Notation
import Mathlib.Tactic.Common

/-! # Fallible computations

Rules for `Except`: inversion of a bind, and the maps and folds over lists whose
steps all succeed.
-/

universe u

namespace Fallible

variable {ε : Type*} {α β σ : Type u}

@[simp] theorem ok_bind (a : α) (f : α → Except ε β) : (Except.ok a >>= f) = f a := rfl

@[simp] theorem error_bind (e : ε) (f : α → Except ε β) :
    (Except.error e >>= f : Except ε β) = .error e := rfl

@[simp] theorem pure_eq_ok (a : α) : (pure a : Except ε α) = .ok a := rfl

theorem bind_eq_ok {x : Except ε α} {f : α → Except ε β} {b : β} :
    x >>= f = .ok b ↔ ∃ a, x = .ok a ∧ f a = .ok b := by
  cases x <;> simp

theorem exists_bind_eq_ok_iff {x : Except ε α} {f : α → Except ε β} (hf : ∀ a, ∃ b, f a = .ok b) :
    (∃ b, x >>= f = .ok b) ↔ ∃ a, x = .ok a := by
  constructor
  · rintro ⟨b, hb⟩
    obtain ⟨a, ha, -⟩ := bind_eq_ok.mp hb
    exact ⟨a, ha⟩
  · rintro ⟨a, rfl⟩
    exact hf a

theorem mapM_eq_ok {f : α → Except ε β} {g : α → β} {l : List α}
    (h : ∀ x ∈ l, f x = .ok (g x)) : l.mapM f = .ok (l.map g) := by
  induction l with
  | nil => rfl
  | cons x l ih =>
    rw [List.mapM_cons, h x List.mem_cons_self, ok_bind,
      ih fun y hy => h y (List.mem_cons_of_mem _ hy)]
    rfl

theorem exists_mapM_eq_ok {f : α → Except ε β} {l : List α}
    (h : ∀ x ∈ l, ∃ y, f x = .ok y) : ∃ ys, l.mapM f = .ok ys := by
  induction l with
  | nil => exact ⟨[], rfl⟩
  | cons x l ih =>
    obtain ⟨y, hy⟩ := h x List.mem_cons_self
    obtain ⟨ys, hys⟩ := ih fun z hz => h z (List.mem_cons_of_mem _ hz)
    exact ⟨y :: ys, by rw [List.mapM_cons, hy, ok_bind, hys]; rfl⟩

/-- A fold succeeds, and keeps an invariant on the part of the list already
consumed, when each step from the invariant does. -/
theorem foldlM_prefix_invariant {f : σ → α → Except ε σ} (I : List α → σ → Prop) {l : List α}
    {s₀ : σ} (init : I [] s₀)
    (step : ∀ p x s, p ++ [x] <+: l → I p s → ∃ s', f s x = .ok s' ∧ I (p ++ [x]) s') :
    ∃ s, l.foldlM f s₀ = .ok s ∧ I l s := by
  suffices H : ∀ q p s, p ++ q = l → I p s → ∃ s', q.foldlM f s = .ok s' ∧ I (p ++ q) s' by
    simpa using H l [] s₀ rfl init
  intro q
  induction q with
  | nil => exact fun p s _ hp => ⟨s, rfl, by simpa using hp⟩
  | cons x q ih =>
    intro p s hq hp
    obtain ⟨s', hs', hp'⟩ := step p x s ⟨q, by simpa using hq⟩ hp
    obtain ⟨t, ht, hpt⟩ := ih (p ++ [x]) s' (by simpa using hq) hp'
    exact ⟨t, by rw [List.foldlM_cons, hs', ok_bind, ht], by simpa using hpt⟩

theorem foldlM_invariant {f : σ → α → Except ε σ} (I : List α → σ → Prop) {l : List α} {s₀ : σ}
    (init : I [] s₀)
    (step : ∀ p x s, x ∈ l → I p s → ∃ s', f s x = .ok s' ∧ I (p ++ [x]) s') :
    ∃ s, l.foldlM f s₀ = .ok s ∧ I l s :=
  foldlM_prefix_invariant I init fun p x s hx => step p x s (hx.subset (by simp))

@[simp] theorem map_ok (a : α) (f : α → β) : (Except.ok a : Except ε α).map f = .ok (f a) := rfl

theorem map_bind {x : Except ε α} {f : α → Except ε β} {g : β → σ} :
    (x >>= f).map g = x >>= fun a => (f a).map g := by
  cases x <;> rfl

theorem bind_map {x : Except ε α} {g : α → β} {f : β → Except ε σ} :
    x.map g >>= f = x >>= fun a => f (g a) := by
  cases x <;> rfl

theorem foldlM_map {τ : Type u} {f : σ → α → Except ε σ} {f' : τ → β → Except ε τ} {g : σ → τ}
    {h : α → β} (step : ∀ s x, f' (g s) (h x) = (f s x).map g) (l : List α) (s : σ) :
    (l.map h).foldlM f' (g s) = (l.foldlM f s).map g := by
  induction l generalizing s with
  | nil => rfl
  | cons x l ih =>
    rw [List.map_cons, List.foldlM_cons, List.foldlM_cons, step, bind_map, map_bind]
    exact congrArg _ (funext ih)

/-- The computation fails with the given error, if it fails. -/
def FailsOnly {α : Type*} (e : ε) (x : Except ε α) : Prop := ∀ e', x = .error e' → e' = e

namespace FailsOnly

variable {e : ε}

theorem ok {α : Type*} (a : α) : FailsOnly e (Except.ok a) := nofun

theorem error {α : Type*} : FailsOnly e (Except.error e : Except ε α) :=
  fun _ h => (Except.error.inj h).symm

theorem bind {x : Except ε α} {f : α → Except ε β} (hx : FailsOnly e x)
    (hf : ∀ a, x = .ok a → FailsOnly e (f a)) : FailsOnly e (x >>= f) := by
  intro e' h
  cases x with
  | ok a => exact hf a rfl e' h
  | error e₀ =>
    obtain rfl := Except.error.inj h
    exact hx e₀ rfl

theorem eq_error_or_ok {α : Type*} {x : Except ε α} (hx : FailsOnly e x) :
    x = .error e ∨ ∃ a, x = .ok a := by
  cases x with
  | ok a => exact Or.inr ⟨a, rfl⟩
  | error e' => exact Or.inl (by rw [hx e' rfl])

end FailsOnly

/-- Whether a computation returns a value with a decidable property. -/
instance decidableReturns {ε α : Type*} (x : Except ε α) (P : α → Prop) [DecidablePred P] :
    Decidable (∃ a, x = .ok a ∧ P a) :=
  match x with
  | .ok a => decidable_of_iff (P a) ⟨fun h => ⟨a, rfl, h⟩, fun ⟨_, ha, h⟩ => Except.ok.inj ha ▸ h⟩
  | .error _ => isFalse fun ⟨_, ha, _⟩ => nomatch ha

end Fallible
