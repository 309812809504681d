import Decompiler.Library.Fallible

/-! # Computations on fuel

A recursion that is cut off at a given depth. It settles when all depths above a bound
lead to one result, and this result is not the cut.
-/

universe u

namespace Fuel

variable {ε : Type*} {α β σ : Type u}

/-- From the bound on, the result does not depend on the fuel, and is not that the fuel has run
out. What is returned has the property. -/
def Settles (limit : ε) (bound : ℕ) (x : ℕ → Except ε α) (P : α → Prop) : Prop :=
  ∃ r, r ≠ .error limit ∧ (∀ a, r = .ok a → P a) ∧ ∀ fuel, bound ≤ fuel → x fuel = r

namespace Settles

variable {limit : ε} {m n : ℕ} {x : ℕ → Except ε α} {P : α → Prop}

theorem ok {a : α} (h : P a) : Settles limit n (fun _ => .ok a) P := by
  refine ⟨.ok a, fun heq => (by cases heq), fun b hb => ?_, fun _ _ => rfl⟩
  exact Except.ok.inj hb ▸ h

theorem error {e : ε} (h : e ≠ limit) : Settles limit n (fun _ => .error e) P := by
  refine ⟨.error e, fun heq => h (Except.error.inj heq), fun b hb => ?_, fun _ _ => rfl⟩
  cases hb

theorem mono (h : Settles limit m x P) (hle : m ≤ n) : Settles limit n x P := by
  obtain ⟨r, hlimit, hP, hr⟩ := h
  exact ⟨r, hlimit, hP, fun fuel hfuel => hr fuel (Nat.le_trans hle hfuel)⟩

theorem imp {Q : α → Prop} (h : Settles limit n x P) (hPQ : ∀ a, P a → Q a) :
    Settles limit n x Q := by
  obtain ⟨r, hlimit, hP, hr⟩ := h
  exact ⟨r, hlimit, fun a ha => hPQ a (hP a ha), hr⟩

/-- A recursion settles one step above its body. -/
theorem of_succ {y : ℕ → Except ε α} (heq : ∀ fuel, x (fuel + 1) = y fuel)
    (h : Settles limit n y P) : Settles limit (n + 1) x P := by
  obtain ⟨r, hlimit, hP, hr⟩ := h
  refine ⟨r, hlimit, hP, fun fuel hfuel => ?_⟩
  cases fuel with
  | zero => exact absurd hfuel (Nat.not_succ_le_zero n)
  | succ fuel => exact (heq fuel).trans (hr fuel (Nat.le_of_succ_le_succ hfuel))

theorem bind {k : ℕ → α → Except ε β} {Q : β → Prop} (hx : Settles limit n x P)
    (hk : ∀ a, P a → Settles limit n (fun fuel => k fuel a) Q) :
    Settles limit n (fun fuel => x fuel >>= k fuel) Q := by
  obtain ⟨r, hlimit, hP, hr⟩ := hx
  cases r with
  | error e =>
    refine ⟨.error e, fun heq => hlimit (congrArg Except.error (Except.error.inj heq)),
      fun b hb => (by cases hb), fun fuel hfuel => ?_⟩
    exact congrArg (· >>= k fuel) (hr fuel hfuel)
  | ok a =>
    obtain ⟨r', hlimit', hQ, hr'⟩ := hk a (hP a rfl)
    refine ⟨r', hlimit', hQ, fun fuel hfuel => ?_⟩
    exact (congrArg (· >>= k fuel) (hr fuel hfuel)).trans (hr' fuel hfuel)

theorem foldlM {f : ℕ → σ → α → Except ε σ} {I : σ → Prop} {l : List α}
    (hstep : ∀ s a, I s → a ∈ l → Settles limit n (fun fuel => f fuel s a) I) {s : σ} (hs : I s) :
    Settles limit n (fun fuel => l.foldlM (f fuel) s) I := by
  induction l generalizing s with
  | nil => exact ok hs
  | cons a l ih =>
    have hrest : ∀ s b, I s → b ∈ l → Settles limit n (fun fuel => f fuel s b) I :=
      fun s b hs hb => hstep s b hs (List.mem_cons_of_mem a hb)
    exact (hstep s a hs List.mem_cons_self).bind fun s' hs' => ih hrest hs'

theorem ne_limit (h : Settles limit n x P) {fuel : ℕ} (hfuel : n ≤ fuel) :
    x fuel ≠ .error limit := by
  obtain ⟨r, hlimit, -, hr⟩ := h
  rwa [hr fuel hfuel]

end Settles

end Fuel
