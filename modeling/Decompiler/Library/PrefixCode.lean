import Mathlib.Data.Nat.Notation
import Mathlib.Tactic.Common

/-! # Decoders that read as much as they need

A decoder of byte strings reports missing input by an error of its own. If any other
result stays when the input is extended, and a decoded prefix decodes to itself, then the
inputs that are consumed form a prefix code.
-/

namespace PrefixCode

universe u

variable {ε : Type*} {eof : ε} {β : Type*} {α γ : Type u}

/-- The second result is the first one, unless that was a request for more input. -/
def Settled (eof : ε) (x x' : Except ε α) : Prop := x ≠ .error eof → x' = x

theorem Settled.refl (x : Except ε α) : Settled eof x x := fun _ => rfl

theorem Settled.bind {x x' : Except ε α} {f f' : α → Except ε γ} (hx : Settled eof x x')
    (hf : ∀ a, Settled eof (f a) (f' a)) : Settled eof (x >>= f) (x' >>= f') := by
  intro h
  cases x with
  | error e =>
    have hne : (Except.error e : Except ε α) ≠ .error eof := by
      rintro heq
      obtain rfl := Except.error.inj heq
      exact h rfl
    rw [hx hne]
    rfl
  | ok a =>
    rw [hx nofun]
    exact hf a h

theorem bind_ne_eof {x : Except ε α} {f : α → Except ε γ} (hx : x ≠ .error eof)
    (hf : ∀ a, f a ≠ .error eof) : x >>= f ≠ .error eof := by
  cases x with
  | error e =>
    intro h
    exact hx (congrArg Except.error (Except.error.inj h))
  | ok a => exact hf a

/-- The laws of a decoder with a stable result: what it decodes it decodes at the front of every
extension, and from the bytes it consumes but from no fewer; other errors than `eof` do not
depend on what follows; `window` bytes are enough to decide. -/
structure IsPrefixCode (eof : ε) (window : ℕ) (decode : List β → Except ε (α × ℕ)) : Prop where
  length : ∀ b i n, decode b = .ok (i, n) → 1 ≤ n ∧ n ≤ b.length
  extended : ∀ b x i n, decode b = .ok (i, n) → decode (b ++ x) = .ok (i, n)
  consumed : ∀ b i n, decode b = .ok (i, n) → decode (b.take n) = .ok (i, n)
  truncated : ∀ b i n, decode b = .ok (i, n) → ∀ k < n, decode (b.take k) = .error eof
  error : ∀ b x e, decode b = .error e → e ≠ eof → decode (b ++ x) = .error e
  decided : ∀ b, window ≤ b.length → decode b ≠ .error eof

/-- A settled decoder cannot decode fewer bytes than it consumes. -/
theorem IsPrefixCode.of_settled {window : ℕ} {decode : List β → Except ε (α × ℕ)}
    (settled : ∀ b x, Settled eof (decode b) (decode (b ++ x)))
    (length : ∀ b i n, decode b = .ok (i, n) → 1 ≤ n ∧ n ≤ b.length)
    (consumed : ∀ b i n, decode b = .ok (i, n) → decode (b.take n) = .ok (i, n))
    (decided : ∀ b, window ≤ b.length → decode b ≠ .error eof) :
    IsPrefixCode eof window decode where
  length := length
  consumed := consumed
  decided := decided
  extended b x i n h := by
    rw [settled b x (by simp [h]), h]
  error b x e h he := by
    rw [settled b x (by simpa [h] using he), h]
  truncated b i n h k hk := by
    by_contra hne
    have hsame : decode b = decode (b.take k) := by
      simpa using settled (b.take k) (b.drop k) hne
    have hlen := (length _ i n (hsame.symm.trans h)).2
    rw [List.length_take] at hlen
    omega

end PrefixCode
