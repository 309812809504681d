import Mathlib.Data.Finmap
import Decompiler.Dataflow.Solver

/-! # The constant lattice

A state maps locations to the three-level values. A location without an entry
counts as `top`, and a varnode of the constant space always has its own value.
-/

namespace Decompiler.ConstProp

inductive ConstValue where
  | top
  | const (value : UInt64)
  | notConstant
  deriving DecidableEq, Repr

def ConstValue.merge : ConstValue → ConstValue → ConstValue
  | .top, x | x, .top => x
  | .notConstant, _ | _, .notConstant => .notConstant
  | .const a, .const b => if a = b then .const a else .notConstant

structure ConstState where
  values : Finmap fun _ : Location => ConstValue
  deriving DecidableEq

namespace ConstState

def get (s : ConstState) (vn : Location) : ConstValue :=
  if vn.space = .constant then .const vn.offset else (s.values.lookup vn).getD .top

def set (s : ConstState) (vn : Location) (value : ConstValue) : ConstState :=
  ⟨s.values.insert vn value⟩

/-- The entry of a key of either state in the merged map: `top` is left out. -/
def mergeEntry (a b : ConstState) (key : Location) : Option ConstValue :=
  if key ∈ a.values.keys ∪ b.values.keys then
    let m := (a.get key).merge (b.get key)
    if m ≠ .top then some m else none
  else none

theorem mergeEntry_isSome (a b : ConstState) (key : Location) :
    (mergeEntry a b key).isSome ↔
      key ∈ {k ∈ a.values.keys ∪ b.values.keys | (mergeEntry a b k).isSome} := by
  simp only [Finset.mem_filter, iff_and_self]
  intro h
  by_contra hk
  simp [mergeEntry, hk] at h

def merge (a b : ConstState) : ConstState :=
  ⟨Finmap.keysLookupEquiv.symm
    ⟨({k ∈ a.values.keys ∪ b.values.keys | (mergeEntry a b k).isSome}, mergeEntry a b),
      mergeEntry_isSome a b⟩⟩

instance : Dataflow.Lattice ConstState := ⟨⟨∅⟩, merge⟩

end ConstState

end Decompiler.ConstProp
