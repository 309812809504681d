import Mathlib.Data.Nat.Bitwise
import Decompiler.Arm.Decoder
import Decompiler.Library.Fallible

/-! # Encodings of the mock ARM architecture

The words of the encoding table, one form for each opcode in the top byte. The decoder
yields exactly the instruction that a word encodes.
-/

namespace Decompiler.Arm

/-- The bits of a word from a position on. -/
def field (word : UInt32) (lo width : ℕ) : ℕ := word.toNat / 2 ^ lo % 2 ^ width

def regField (word : UInt32) (lo : ℕ) : Reg64 := ⟨⟨field word lo 5, Nat.mod_lt _ (by decide)⟩⟩

/-- The signed displacement in the lower 24 bits. -/
def rel24 (word : UInt32) : Int32 := .ofInt (BitVec.ofNat 24 (field word 0 24)).toInt

inductive Encodes (word : UInt32) : ArmInstruction → Prop
  | mov (opcode : field word 24 8 = 0x10) :
    Encodes word (.movRegImm (regField word 0) (.ofNat (field word 5 16)))
  | add_reg (opcode : field word 24 8 = 0x11) :
    Encodes word (.addRegReg (regField word 0) (regField word 5) (regField word 10))
  | add_imm (opcode : field word 24 8 = 0x12) :
    Encodes word (.addRegImm (regField word 0) (regField word 5) (.ofNat (field word 10 14)))
  | cmp (opcode : field word 24 8 = 0x13) :
    Encodes word (.cmpRegReg (regField word 0) (regField word 5))
  | b (opcode : field word 24 8 = 0x14) : Encodes word (.b (rel24 word))
  | bl (opcode : field word 24 8 = 0x15) : Encodes word (.bl (rel24 word))
  | b_eq (opcode : field word 24 8 = 0x16) : Encodes word (.beq (rel24 word))
  | b_ne (opcode : field word 24 8 = 0x17) : Encodes word (.bne (rel24 word))
  | ret (opcode : field word 24 8 = 0x18) : Encodes word .ret

section Fields

theorem toNat_and_mask (word mask : UInt32) (width : ℕ) (hmask : mask.toNat = 2 ^ width - 1) :
    (word &&& mask).toNat = field word 0 width := by
  rw [UInt32.toNat_and, hmask, Nat.and_two_pow_sub_one_eq_mod, field, Nat.pow_zero, Nat.div_one]

theorem toNat_shiftRight_and_mask (word lo mask : UInt32) (width : ℕ) (hlo : lo.toNat < 32)
    (hmask : mask.toNat = 2 ^ width - 1) :
    ((word >>> lo) &&& mask).toNat = field word lo.toNat width := by
  rw [UInt32.toNat_and, UInt32.toNat_shiftRight, hmask, Nat.and_two_pow_sub_one_eq_mod,
    Nat.shiftRight_eq_div_pow, Nat.mod_eq_of_lt hlo, field]

theorem toNat_opcode (word : UInt32) : (word >>> 24).toUInt8.toNat = field word 24 8 := by
  rw [UInt32.toNat_toUInt8, UInt32.toNat_shiftRight, Nat.shiftRight_eq_div_pow]
  rfl

theorem eq_ofNat_field {bits word : UInt32} {lo width : ℕ} (h : bits.toNat = field word lo width) :
    bits = .ofNat (field word lo width) := by
  rw [← h, UInt32.ofNat_toNat]

theorem decodeReg_eq_ok {bits word : UInt32} {lo : ℕ} (h : bits.toNat = field word lo 5) :
    decodeReg bits.toUInt8 = .ok (regField word lo) := by
  have hlt : field word lo 5 < 32 := Nat.mod_lt _ (by decide)
  have hbits : bits.toUInt8.toNat = field word lo 5 := by
    rw [UInt32.toNat_toUInt8, h]
    exact Nat.mod_eq_of_lt (by omega)
  have hfrom : Reg64.fromBits bits.toUInt8 = .ok (regField word lo) := by
    unfold Reg64.fromBits
    rw [dif_pos (by omega)]
    simp only [hbits]
    rfl
  rw [decodeReg, hfrom]

theorem and_sign_ne_zero {n : ℕ} (hn : n < 2 ^ 24) : n &&& 0x800000 ≠ 0 ↔ 2 ^ 23 ≤ n := by
  rw [show (0x800000 : ℕ) = 2 ^ 23 from rfl, Nat.and_two_pow, Nat.testBit_eq_decide_div_mod_eq]
  have hbit : n / 8388608 % 2 = 1 ↔ 8388608 ≤ n := by omega
  simpa using hbit

theorem or_sign {n : ℕ} (hn : n < 2 ^ 24) : n ||| 0xFF000000 = 0xFF000000 + n := by
  have h := Nat.shiftLeft_add_eq_or_of_lt hn 255
  rw [Nat.or_comm]
  exact h.symm

theorem signExtend24_eq (word : UInt32) : signExtend24 word = rel24 word := by
  have hfield := toNat_and_mask word 0xFFFFFF 24 rfl
  have hlt : field word 0 24 < 2 ^ 24 := Nat.mod_lt _ (by decide)
  have hsign : (word &&& 0xFFFFFF) &&& 0x800000 ≠ 0 ↔ 2 ^ 23 ≤ field word 0 24 := by
    rw [← and_sign_ne_zero hlt, ← hfield]
    simp [← UInt32.toNat_inj]
  apply Int32.toBitVec_inj.mp
  apply BitVec.eq_of_toNat_eq
  rw [rel24, BitVec.toInt_eq_toNat_cond, BitVec.toNat_ofNat, Nat.mod_eq_of_lt hlt, signExtend24]
  split
  case isTrue h =>
    have hle := hsign.mp h
    rw [if_neg (by omega), UInt32.toBitVec_toInt32, Int32.toBitVec_ofInt, UInt32.toNat_toBitVec,
      UInt32.toNat_or, hfield, BitVec.toNat_ofInt]
    have hor : field word 0 24 ||| (0xFF000000 : UInt32).toNat = _ := or_sign hlt
    rw [hor]
    omega
  case isFalse h =>
    have hle := mt hsign.mpr h
    rw [if_pos (by omega), UInt32.toBitVec_toInt32, Int32.toBitVec_ofInt, UInt32.toNat_toBitVec,
      hfield, BitVec.toNat_ofInt]
    omega

end Fields

/-- The decoder yields the instruction that a word encodes. -/
theorem decodeWord_eq_ok_iff {word : UInt32} {i : ArmInstruction} {n : ℕ} :
    decodeWord word = .ok (i, n) ↔ Encodes word i ∧ n = 4 := by
  have hdst := decodeReg_eq_ok (toNat_and_mask word 0x1F 5 rfl)
  have hsrc := decodeReg_eq_ok (toNat_shiftRight_and_mask word 5 0x1F 5 (by decide) rfl)
  have hsrc' := decodeReg_eq_ok (toNat_shiftRight_and_mask word 10 0x1F 5 (by decide) rfl)
  have himm := eq_ofNat_field (toNat_shiftRight_and_mask word 5 0xFFFF 16 (by decide) rfl)
  have himm' := eq_ofNat_field (toNat_shiftRight_and_mask word 10 0x3FFF 14 (by decide) rfl)
  rw [decodeWord, toNat_opcode]
  dsimp only
  rw [hdst, hsrc, hsrc', himm, himm', signExtend24_eq]
  constructor
  · intro h
    split at h
    case h_1 ho => cases h; exact ⟨.mov ho, rfl⟩
    case h_2 ho => cases h; exact ⟨.add_reg ho, rfl⟩
    case h_3 ho => cases h; exact ⟨.add_imm ho, rfl⟩
    case h_4 ho => cases h; exact ⟨.cmp ho, rfl⟩
    case h_5 ho => cases h; exact ⟨.b ho, rfl⟩
    case h_6 ho => cases h; exact ⟨.bl ho, rfl⟩
    case h_7 ho => cases h; exact ⟨.b_eq ho, rfl⟩
    case h_8 ho => cases h; exact ⟨.b_ne ho, rfl⟩
    case h_9 ho => cases h; exact ⟨.ret ho, rfl⟩
    case h_10 => cases h
  · rintro ⟨h, rfl⟩
    cases h with
    | mov ho | add_reg ho | add_imm ho | cmp ho | b ho | bl ho | b_eq ho | b_ne ho | ret ho =>
      rw [ho]
      rfl

theorem decodeOne_length {bytes : List UInt8} {i : ArmInstruction} {n : ℕ}
    (h : decodeOne bytes = .ok (i, n)) : n = 4 ∧ 4 ≤ bytes.length := by
  unfold decodeOne at h
  split at h
  case isTrue => cases h
  case isFalse hlen => exact ⟨(decodeWord_eq_ok_iff.mp h).2, by omega⟩

theorem Encodes.unique {word : UInt32} {i j : ArmInstruction} (hi : Encodes word i)
    (hj : Encodes word j) : i = j := by
  have hdi := decodeWord_eq_ok_iff.mpr ⟨hi, rfl⟩
  have hdj := decodeWord_eq_ok_iff.mpr ⟨hj, rfl⟩
  exact (Prod.mk.inj (Except.ok.inj (hdi.symm.trans hdj))).1

end Decompiler.Arm
