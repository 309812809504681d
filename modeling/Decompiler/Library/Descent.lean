import Mathlib.Order.Monotone.Basic
import Mathlib.Order.Basic

/-! # Descending iteration

A family of monotone equations is solved from above by recomputing one component
at a time. Recomputing keeps an assignment above its own equations and above every
solution, and it descends whenever it changes something.
-/

namespace Descent

variable {N S : Type*} [DecidableEq N] [PartialOrder S] {F : N → (N → S) → S} {x y : N → S}

/-- No equation raises its component. -/
def PostFixed (F : N → (N → S) → S) (x : N → S) : Prop := ∀ n, F n x ≤ x n

def recompute (F : N → (N → S) → S) (x : N → S) (n : N) : N → S := Function.update x n (F n x)

theorem PostFixed.recompute_le (h : PostFixed F x) (n : N) : recompute F x n ≤ x :=
  update_le_self_iff.mpr (h n)

theorem PostFixed.recompute_lt (h : PostFixed F x) {n : N} (hne : F n x ≠ x n) :
    recompute F x n < x :=
  update_lt_self_iff.mpr (lt_of_le_of_ne (h n) hne)

structure Greatest (F : N → (N → S) → S) (x : N → S) : Prop where
  le_self : ∀ n, x n ≤ F n x
  greatest : ∀ y : N → S, (∀ n, y n ≤ F n y) → y ≤ x

omit [DecidableEq N] in
/-- Two systems have the same greatest solution when the one of the first solves the second, and
above it the second system lies below the first. -/
theorem Greatest.eq {G : N → (N → S) → S} (hx : Greatest F x) (hy : Greatest G y)
    (hG : ∀ n, x n ≤ G n x) (hF : ∀ z, x ≤ z → ∀ n, G n z ≤ F n z) : x = y := by
  have hxy : x ≤ y := hy.greatest x hG
  apply le_antisymm hxy
  apply hx.greatest
  exact fun n => (hy.le_self n).trans (hF y hxy n)

variable (hF : ∀ n, Monotone (F n))

include hF

theorem PostFixed.recompute (h : PostFixed F x) (n : N) : PostFixed F (recompute F x n) := by
  intro m
  have hle : F m (Descent.recompute F x n) ≤ F m x := hF m (h.recompute_le n)
  by_cases hm : m = n
  · subst hm
    simpa [Descent.recompute] using hle
  · simpa [Descent.recompute, hm] using hle.trans (h m)

theorem le_recompute (hy : ∀ n, y n ≤ F n y) (h : y ≤ x) (n : N) : y ≤ recompute F x n := by
  intro m
  by_cases hm : m = n
  · subst hm
    simpa [Descent.recompute] using (hy m).trans (hF m h)
  · simpa [Descent.recompute, hm] using h m

end Descent
