import Decompiler.Core.Types

/-! # Decoding errors and architecture back ends

An architecture supplies a decoder and a lifter over its own type of decoded
instructions. Addresses are 64-bit words, and their sums are checked as the
development build checks them.
-/

namespace Decompiler

inductive DecodeError where
  | unexpectedEnd
  | invalidOrUnsupported (opcodeByte : UInt8)
  | unsupportedAddressingMode (modrm : UInt8)
  deriving DecidableEq, Repr

structure DisassemblyResult (I : Type) where
  instruction : I
  length : ℕ
  address : Address

/-- One `Disassembler` together with its `Lifter`. -/
structure Backend (I : Type) where
  disassembleOne : List UInt8 → Address → Except DecodeError (DisassemblyResult I)
  lift : I → Address → ℕ → TempAllocator → Except Fault (List Instruction × TempAllocator)

def TempAllocator.fresh (temps : TempAllocator) (size : UInt8) :
    Except Fault (Varnode × TempAllocator) :=
  if temps.next.toNat + 1 < 2 ^ 64 then
    .ok (.new .unique temps.next size, ⟨temps.next + 1⟩)
  else .error .counterOverflow

/-- `a + b` on `i64` -/
def addI64 (a b : Int64) : Except Fault Int64 :=
  if -2 ^ 63 ≤ a.toInt + b.toInt ∧ a.toInt + b.toInt < 2 ^ 63 then .ok (a + b)
  else .error .addressOverflow

/-- `base + offset as u64` -/
def addU64 (base : Address) (offset : ℕ) : Except Fault Address :=
  if base.toNat + offset < 2 ^ 64 then .ok (base + .ofNat offset)
  else .error .addressOverflow

theorem addI64_eq_ok {a b c : Int64} (h : addI64 a b = .ok c) : c = a + b := by
  unfold addI64 at h
  split at h
  · exact (Except.ok.inj h).symm
  · cases h

theorem toInt_toInt64 (x : UInt64) :
    x.toInt64.toInt = if x.toNat < 2 ^ 63 then (x.toNat : ℤ) else x.toNat - 2 ^ 64 := by
  change x.toBitVec.toInt = _
  rw [BitVec.toInt_eq_toNat_cond, UInt64.toNat_toBitVec]
  have := x.toNat_lt
  split <;> split <;> omega

theorem exists_addI64 {a b : Int64} (hlow : -2 ^ 63 ≤ a.toInt + b.toInt)
    (hhigh : a.toInt + b.toInt < 2 ^ 63) :
    ∃ c, addI64 a b = .ok c ∧ c.toInt = a.toInt + b.toInt := by
  refine ⟨a + b, if_pos ⟨hlow, hhigh⟩, ?_⟩
  rw [Int64.toInt_add, Int.bmod_eq_of_le (by omega) (by omega)]

theorem exists_addI64_rel {a : Int64} (rel : Int32) (hlow : 0 ≤ a.toInt)
    (hhigh : a.toInt + 2 ^ 31 ≤ 2 ^ 63) : ∃ c, addI64 a rel.toInt64 = .ok c := by
  have hle := rel.le_toInt
  have hlt := rel.toInt_lt
  rw [← Int32.toInt_toInt64] at hle hlt
  obtain ⟨c, hc, -⟩ := @exists_addI64 a rel.toInt64 (by omega) (by omega)
  exact ⟨c, hc⟩

theorem addU64_eq_ok_iff {a b : Address} {n : ℕ} :
    addU64 a n = .ok b ↔ b.toNat = a.toNat + n := by
  have hadd : a.toNat + n < 2 ^ 64 → (a + .ofNat n).toNat = a.toNat + n := fun hlt => by
    rw [UInt64.toNat_add, UInt64.toNat_ofNat', Nat.mod_eq_of_lt (by omega : n < 2 ^ 64),
      Nat.mod_eq_of_lt hlt]
  unfold addU64
  constructor
  · intro h
    split at h
    case isTrue hlt => rw [← Except.ok.inj h, hadd hlt]
    case isFalse => cases h
  · intro h
    have hlt : a.toNat + n < 2 ^ 64 := h ▸ b.toNat_lt
    rw [if_pos hlt, ← UInt64.toNat_inj.mp (h.trans (hadd hlt).symm)]

/-- `u32::from_le_bytes` -/
def fromLeBytes (b₀ b₁ b₂ b₃ : UInt8) : UInt32 :=
  .ofNat (b₀.toNat + b₁.toNat * 2 ^ 8 + b₂.toNat * 2 ^ 16 + b₃.toNat * 2 ^ 24)

end Decompiler
