import Mathlib.Data.Nat.Notation

/-! # Faults

The ways in which the source can panic, and the exhaustion of the fuel that a
loop of the source is given here. A modelled function that can fault returns
`Except Fault`.
-/

namespace Decompiler

inductive Fault where
  /-- an addition on addresses or branch targets leaves its type -/
  | addressOverflow
  /-- the counter of a temporary allocator leaves its type -/
  | counterOverflow
  /-- an index or a slice out of bounds -/
  | outOfBounds
  /-- `unwrap` on `None` -/
  | unwrapNone
  /-- `unreachable!` -/
  | unreachable
  /-- the model's fuel ran out; the source would go on -/
  | outOfFuel
  deriving DecidableEq, Repr

/-- `slice[i]` -/
def index {α : Type*} (xs : List α) (i : ℕ) : Except Fault α :=
  match xs[i]? with
  | some x => .ok x
  | none => .error .outOfBounds

/-- `option.unwrap()` -/
def unwrap {α : Type*} : Option α → Except Fault α
  | some x => .ok x
  | none => .error .unwrapNone

theorem index_eq_ok {α : Type*} {xs : List α} {i : ℕ} (h : i < xs.length) :
    index xs i = .ok xs[i] := by
  simp [index, h]

@[simp] theorem unwrap_some {α : Type*} (x : α) : unwrap (some x) = .ok x := rfl

end Decompiler
