import Mathlib.Data.Nat.Bitwise
import Decompiler.Core.Traits
import Decompiler.ConstProp.Pass
import Decompiler.Ir.Semantics

/-! # The words of the analysis

Masking is reduction modulo the size, and sign extension is the two's complement
reading, for the sizes of one to eight bytes that a word has room for.
-/

namespace Decompiler.ConstProp

theorem one_shiftLeft_toNat {n : ℕ} (hn : n < 64) :
    ((1 : UInt64) <<< UInt64.ofNat n).toNat = 2 ^ n := by
  have hpow : 2 ^ n < 2 ^ 64 := Nat.pow_lt_pow_right (by decide) hn
  rw [UInt64.toNat_shiftLeft, UInt64.toNat_ofNat_of_lt' (hn.trans (by decide)),
    Nat.mod_eq_of_lt hn, Nat.shiftLeft_eq, UInt64.toNat_one, one_mul, Nat.mod_eq_of_lt hpow]

theorem lowMask_toNat {n : ℕ} (hn : n < 64) :
    ((1 : UInt64) <<< UInt64.ofNat n - 1).toNat = 2 ^ n - 1 := by
  have hle : 1 ≤ (1 : UInt64) <<< UInt64.ofNat n := by
    rw [UInt64.le_iff_toNat_le, one_shiftLeft_toNat hn]
    exact Nat.one_le_two_pow
  rw [UInt64.toNat_sub_of_le _ _ hle, one_shiftLeft_toNat hn]
  rfl

theorem and_two_pow_ne_zero_iff {x n : ℕ} (hx : x < 2 ^ (n + 1)) :
    x &&& 2 ^ n ≠ 0 ↔ 2 ^ n ≤ x := by
  rw [Nat.and_two_pow]
  constructor
  · intro h
    refine Nat.ge_two_pow_of_testBit ?_
    by_contra hb
    simp [hb] at h
  · intro h
    have hb : x.testBit n = true := by
      by_contra hb
      refine absurd h (Nat.not_le.mpr (Nat.lt_pow_two_of_testBit x fun i hi => ?_))
      rcases hi.eq_or_lt with rfl | hi
      · simpa using hb
      · exact Nat.testBit_lt_two_pow (hx.trans_le (Nat.pow_le_pow_right (by decide) hi))
    simp [hb]

theorem toInt_one_shiftLeft {n : ℕ} (hn : n < 57) :
    ((1 : Int64) <<< Int64.ofNat n).toInt = (2 ^ n : ℕ) := by
  have h : ∀ n : Fin 57, ((1 : Int64) <<< Int64.ofNat n).toInt = (2 ^ n.val : ℕ) := by decide
  exact h ⟨n, hn⟩

theorem toSigned_eq (v : ℕ) {size : UInt8} (h1 : 1 ≤ size.toNat) :
    toSigned v size =
      if v % modulus size < 2 ^ (8 * size.toNat - 1) then ((v % modulus size : ℕ) : ℤ)
      else (v % modulus size : ℕ) - (modulus size : ℕ) := by
  have hpow : 2 ^ (8 * size.toNat) = 2 * 2 ^ (8 * size.toNat - 1) := by
    rw [← Nat.pow_succ']
    congr 1
    omega
  unfold toSigned modulus
  rw [BitVec.toInt_eq_toNat_cond, BitVec.toNat_ofNat]
  split <;> split <;> omega

variable {size : UInt8} (h1 : 1 ≤ size.toNat) (h8 : size.toNat ≤ 8)

include h1 h8

theorem mask_toNat (x : UInt64) : (mask x size).toNat = x.toNat % modulus size := by
  unfold mask bits modulus
  rw [Nat.mul_comm 8]
  split
  case isTrue h =>
    have h64 : size.toNat * 8 = 64 := by omega
    rw [h64, Nat.mod_eq_of_lt x.toNat_lt]
  case isFalse h =>
    rw [UInt64.toNat_and, lowMask_toNat (by omega), Nat.and_two_pow_sub_one_eq_mod]

theorem mask_toNat_lt (x : UInt64) : (mask x size).toNat < modulus size := by
  rw [mask_toNat h1 h8]
  exact Nat.mod_lt _ (modulus_pos size)

theorem signed_toInt (x : UInt64) : (signed x size).toInt = toSigned x.toNat size := by
  rw [toSigned_eq _ h1]
  by_cases h : size.toNat = 8
  · have hmod : x.toNat % modulus size = x.toNat := by
      rw [modulus, h]
      exact Nat.mod_eq_of_lt x.toNat_lt
    rw [signed, if_pos (by unfold bits; omega), toInt_toInt64, hmod, modulus, h]
    rfl
  · obtain ⟨n, hn⟩ : ∃ n, bits size = n + 1 := ⟨bits size - 1, by unfold bits; omega⟩
    have hsize : 8 * size.toNat = n + 1 := by
      rw [← hn, bits, Nat.mul_comm]
    have hlow : (x &&& ((1 : UInt64) <<< UInt64.ofNat (n + 1) - 1)).toNat =
        x.toNat % 2 ^ (n + 1) := by
      rw [UInt64.toNat_and, lowMask_toNat (by omega), Nat.and_two_pow_sub_one_eq_mod]
    set low := x &&& ((1 : UInt64) <<< UInt64.ofNat (n + 1) - 1) with hlow'
    have hlt : low.toNat < 2 ^ (n + 1) := by
      rw [hlow]
      exact Nat.mod_lt _ (Nat.two_pow_pos _)
    have hpow : 2 ^ (n + 1) ≤ 2 ^ 56 := Nat.pow_le_pow_right (by decide) (by omega)
    have hlowInt : low.toInt64.toInt = low.toNat := by
      rw [toInt_toInt64, if_pos (by omega)]
    have hsign : low &&& (1 : UInt64) <<< UInt64.ofNat n ≠ 0 ↔ 2 ^ n ≤ low.toNat := by
      rw [← and_two_pow_ne_zero_iff hlt, Ne, ← UInt64.toNat_inj, UInt64.toNat_and,
        one_shiftLeft_toNat (by omega)]
      rfl
    have hmod : x.toNat % modulus size = low.toNat := by rw [hlow, modulus, hsize]
    rw [signed, if_neg (by unfold bits; omega), hmod, modulus, hsize, hn]
    simp only [Nat.add_sub_cancel, ← hlow', hsign]
    split
    case isTrue hs =>
      rw [if_neg (by omega), Int64.toInt_sub, hlowInt, toInt_one_shiftLeft (by omega),
        Int.bmod_eq_of_le (by omega) (by omega)]
    case isFalse hs => rw [if_pos (by omega), hlowInt]

end Decompiler.ConstProp
