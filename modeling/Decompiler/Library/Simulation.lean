import Mathlib.Data.Nat.Notation
import Mathlib.Logic.Function.Iterate
import Mathlib.Tactic.Common

/-! # Runs and simulations

A run of a step relation has a number of steps. A relation that every step of one
system carries over to a step of another carries over whole runs.
-/

namespace Simulation

variable {S U : Type*}

inductive Steps (R : S → S → Prop) : ℕ → S → S → Prop
  | refl (s : S) : Steps R 0 s s
  | tail {n : ℕ} {s t u : S} (run : Steps R n s t) (step : R t u) : Steps R (n + 1) s u

/-- Every step of the first system is matched by a step of the second. -/
def Simulates (R : S → S → Prop) (T : U → U → Prop) (rel : S → U → Prop) : Prop :=
  ∀ ⦃s s' u⦄, rel s u → R s s' → ∃ u', T u u' ∧ rel s' u'

variable {R : S → S → Prop} {T : U → U → Prop} {rel : S → U → Prop}

theorem Steps.exists_last {n : ℕ} {s u : S} (h : Steps R (n + 1) s u) :
    ∃ t, Steps R n s t ∧ R t u := by
  cases h with
  | tail hrun hstep => exact ⟨_, hrun, hstep⟩

theorem Steps.unique {n : ℕ} {s t u : S} (ht : Steps R n s t) (hu : Steps R n s u)
    (hR : ∀ x y z, R x y → R x z → y = z) : t = u := by
  induction ht generalizing u with
  | refl =>
    cases hu
    rfl
  | tail _ hstep ih =>
    obtain ⟨v, hv, hstep'⟩ := hu.exists_last
    obtain rfl := ih hv
    exact hR _ _ _ hstep hstep'

theorem Simulates.steps (h : Simulates R T rel) {n : ℕ} {s s' : S} {u : U} (hrel : rel s u)
    (hrun : Steps R n s s') : ∃ u', Steps T n u u' ∧ rel s' u' := by
  induction hrun with
  | refl => exact ⟨u, .refl u, hrel⟩
  | tail _ hstep ih =>
    obtain ⟨v, hv, hrel⟩ := ih hrel
    obtain ⟨u', hstep', hrel'⟩ := h hrel hstep
    exact ⟨u', .tail hv hstep', hrel'⟩

section Machines

variable {f : S → S} {g : U → U}

def Reaches (g : U → U) (u v : U) : Prop := ∃ n, g^[n] u = v

def ReachesPlus (g : U → U) (u v : U) : Prop := ∃ n, 0 < n ∧ g^[n] u = v

theorem Reaches.refl (u : U) : Reaches g u u := ⟨0, rfl⟩

theorem ReachesPlus.single {u v : U} (h : g u = v) : ReachesPlus g u v := ⟨1, Nat.one_pos, h⟩

theorem ReachesPlus.reaches {u v : U} (h : ReachesPlus g u v) : Reaches g u v :=
  h.imp fun _ hn => hn.2

theorem Reaches.trans_plus {u v w : U} (h : Reaches g u v) (h' : ReachesPlus g v w) :
    ReachesPlus g u w := by
  obtain ⟨n, rfl⟩ := h
  obtain ⟨m, hm, rfl⟩ := h'
  exact ⟨m + n, by omega, Function.iterate_add_apply g m n u⟩

theorem Reaches.exists_plus {u v : U} {P : U → Prop} (h : Reaches g u v)
    (h' : ∃ w, ReachesPlus g v w ∧ P w) : ∃ w, ReachesPlus g u w ∧ P w :=
  h'.imp fun _ hw => ⟨h.trans_plus hw.1, hw.2⟩

/-- A simulation in which every step takes at least one step: a run of the first machine
whose states before each step meet the condition is matched by a run that is as long. -/
theorem exists_iterate {ok : S → Prop}
    (hstep : ∀ ⦃s u⦄, rel s u → ok s → ∃ v, ReachesPlus g u v ∧ rel (f s) v) {s : S} {u : U}
    (hrel : rel s u) (n : ℕ) (hok : ∀ i < n, ok (f^[i] s)) :
    ∃ m, n ≤ m ∧ rel (f^[n] s) (g^[m] u) := by
  induction n with
  | zero => exact ⟨0, Nat.le_refl 0, hrel⟩
  | succ n ih =>
    obtain ⟨m, hm, hrel⟩ := ih fun i hi => hok i (Nat.lt_succ_of_lt hi)
    obtain ⟨_, ⟨k, hk, rfl⟩, hrel⟩ := hstep hrel (hok n (Nat.lt_succ_self n))
    refine ⟨k + m, by omega, ?_⟩
    rwa [Function.iterate_succ_apply', Function.iterate_add_apply]

end Machines

end Simulation
