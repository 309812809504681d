import Decompiler.Library.Fallible
import Decompiler.X86.Decoder

/-! # Encodings

The byte forms of the supported subset, one for each opcode, and the correctness of
the decoder against them.
-/

namespace Decompiler.X86

def Reg32.code : Reg32 → UInt8
  | eax => 0
  | ecx => 1
  | edx => 2
  | ebx => 3
  | esp => 4
  | ebp => 5
  | esi => 6
  | edi => 7

/-- A register-direct ModRM byte with a register or an opcode digit in its `reg` field. -/
def modrm (reg : UInt8) (rm : Reg32) : UInt8 := 0xC0 + 8 * reg + rm.code

def imm32 (v : Int32) : List UInt8 :=
  [v.toUInt32.toUInt8, (v.toUInt32 >>> 8).toUInt8, (v.toUInt32 >>> 16).toUInt8,
    (v.toUInt32 >>> 24).toUInt8]

def signExtend (b : UInt8) : Int32 := b.toInt8.toInt32

inductive Encodes : List UInt8 → X86Instruction → Prop
  | mov_r32_imm32 (dst : Reg32) (imm : Int32) :
    Encodes ((0xB8 + dst.code) :: imm32 imm) (.movRegImm dst imm)
  | mov_rm32_r32 (dst src : Reg32) :
    Encodes [0x89, modrm src.code dst] (.movRegReg dst src)
  | mov_r32_rm32 (dst src : Reg32) :
    Encodes [0x8B, modrm dst.code src] (.movRegReg dst src)
  | add_rm32_r32 (dst src : Reg32) :
    Encodes [0x01, modrm src.code dst] (.addRegReg dst src)
  | add_eax_imm32 (imm : Int32) : Encodes (0x05 :: imm32 imm) (.addRegImm .eax imm)
  | cmp_rm32_r32 (lhs rhs : Reg32) :
    Encodes [0x39, modrm rhs.code lhs] (.cmpRegReg lhs rhs)
  | cmp_eax_imm32 (imm : Int32) : Encodes (0x3D :: imm32 imm) (.cmpRegImm .eax imm)
  | add_rm32_imm32 (dst : Reg32) (imm : Int32) :
    Encodes (0x81 :: modrm 0 dst :: imm32 imm) (.addRegImm dst imm)
  | cmp_rm32_imm32 (lhs : Reg32) (imm : Int32) :
    Encodes (0x81 :: modrm 7 lhs :: imm32 imm) (.cmpRegImm lhs imm)
  | add_rm32_imm8 (dst : Reg32) (imm : UInt8) :
    Encodes [0x83, modrm 0 dst, imm] (.addRegImm dst (signExtend imm))
  | cmp_rm32_imm8 (lhs : Reg32) (imm : UInt8) :
    Encodes [0x83, modrm 7 lhs, imm] (.cmpRegImm lhs (signExtend imm))
  | jmp_rel8 (rel : UInt8) : Encodes [0xEB, rel] (.jmp (signExtend rel))
  | jmp_rel32 (rel : Int32) : Encodes (0xE9 :: imm32 rel) (.jmp rel)
  | je_rel8 (rel : UInt8) : Encodes [0x74, rel] (.je (signExtend rel))
  | jne_rel8 (rel : UInt8) : Encodes [0x75, rel] (.jne (signExtend rel))
  | call_rel32 (rel : Int32) : Encodes (0xE8 :: imm32 rel) (.call rel)
  | ret : Encodes [0xC3] .ret

theorem Encodes.length_pos {bytes : List UInt8} {i : X86Instruction} (h : Encodes bytes i) :
    0 < bytes.length := by
  cases h <;> simp

theorem imm32_fromLeBytes (b₀ b₁ b₂ b₃ : UInt8) :
    imm32 (fromLeBytes b₀ b₁ b₂ b₃).toInt32 = [b₀, b₁, b₂, b₃] := by
  have h₀ := b₀.toNat_lt
  have h₁ := b₁.toNat_lt
  have h₂ := b₂.toNat_lt
  have h₃ := b₃.toNat_lt
  have hx : (fromLeBytes b₀ b₁ b₂ b₃).toNat =
      b₀.toNat + b₁.toNat * 2 ^ 8 + b₂.toNat * 2 ^ 16 + b₃.toNat * 2 ^ 24 := by
    rw [fromLeBytes, UInt32.toNat_ofNat']
    omega
  simp only [imm32, UInt32.toUInt32_toInt32, List.cons.injEq, and_true, ← UInt8.toNat_inj,
    UInt32.toNat_toUInt8, UInt32.toNat_shiftRight, hx, Nat.shiftRight_eq_div_pow]
  refine ⟨?_, ?_, ?_, ?_⟩ <;> simp <;> omega

theorem readU8_eq_ok {bytes : List UInt8} {i : ℕ} {b : UInt8} (h : readU8 bytes i = .ok b) :
    bytes[i]? = some b := by
  unfold readU8 at h
  split at h
  case h_1 hb => rw [hb, Except.ok.inj h]
  case h_2 => cases h

theorem readI32_eq_ok {bytes : List UInt8} {i : ℕ} {v : Int32} (h : readI32 bytes i = .ok v) :
    i + 4 ≤ bytes.length ∧ (bytes.drop i).take 4 = imm32 v := by
  unfold readI32 at h
  split at h
  case isTrue => cases h
  case isFalse hlen =>
    rw [← Except.ok.inj h, imm32_fromLeBytes]
    refine ⟨by omega, ?_⟩
    rw [List.drop_eq_getElem_cons (by omega), List.drop_eq_getElem_cons (by omega),
      List.drop_eq_getElem_cons (by omega), List.drop_eq_getElem_cons (by omega)]
    rfl

theorem forall_byte {P : UInt8 → Prop} (h : ∀ n : Fin 256, P (.ofNat n)) (b : UInt8) : P b := by
  have hb := h ⟨b.toNat, b.toNat_lt⟩
  rwa [UInt8.ofNat_toNat] at hb

theorem parseModrm_eq_some {b : UInt8} {m : ModRm} (h : parseModrm b = some m) :
    b = modrm m.reg.code m.rm ∧ (b >>> 3) &&& 0b111 = m.reg.code := by
  have key : ∀ b, ∀ m ∈ parseModrm b, b = modrm m.reg.code m.rm ∧
      (b >>> 3) &&& 0b111 = m.reg.code :=
    forall_byte (by decide +kernel)
  exact key b m h

theorem readModrm_eq_ok {bytes : List UInt8} {b : UInt8} {m : ModRm}
    (h : readModrm bytes = .ok (b, m)) : bytes[1]? = some (modrm m.reg.code m.rm) ∧
      (b >>> 3) &&& 0b111 = m.reg.code := by
  obtain ⟨b', hb, h⟩ := Fallible.bind_eq_ok.mp h
  split at h
  case h_1 m' hm =>
    obtain ⟨rfl, rfl⟩ := Prod.mk.inj (Except.ok.inj h)
    obtain ⟨hmod, hreg⟩ := parseModrm_eq_some hm
    exact ⟨hmod ▸ readU8_eq_ok hb, hreg⟩
  case h_2 => cases h

theorem fromBits_opcode {opcode : UInt8} (h : 0xB8 ≤ opcode ∧ opcode ≤ 0xBF) :
    opcode = 0xB8 + (Reg32.fromBits (opcode - 0xB8)).code := by
  have key : ∀ opcode : UInt8, 0xB8 ≤ opcode ∧ opcode ≤ 0xBF →
      opcode = 0xB8 + (Reg32.fromBits (opcode - 0xB8)).code :=
    forall_byte (by decide +kernel)
  exact key opcode h

theorem take_two {bytes : List UInt8} {a b : UInt8} (ha : bytes[0]? = some a)
    (hb : bytes[1]? = some b) : 2 ≤ bytes.length ∧ bytes.take 2 = [a, b] := by
  match bytes with
  | [] => simp at ha
  | [x] => simp at hb
  | x :: y :: l => simp_all

theorem take_three {bytes : List UInt8} {a b c : UInt8} (ha : bytes[0]? = some a)
    (hb : bytes[1]? = some b) (hc : bytes[2]? = some c) :
    3 ≤ bytes.length ∧ bytes.take 3 = [a, b, c] := by
  match bytes with
  | [] => simp at ha
  | [x] => simp at hb
  | [x, y] => simp at hc
  | x :: y :: z :: l => simp_all

theorem take_five {bytes : List UInt8} {a : UInt8} {v : Int32} (ha : bytes[0]? = some a)
    (hv : 1 + 4 ≤ bytes.length ∧ (bytes.drop 1).take 4 = imm32 v) :
    5 ≤ bytes.length ∧ bytes.take 5 = a :: imm32 v := by
  match bytes with
  | [] => simp at ha
  | x :: l => simp_all

theorem take_six {bytes : List UInt8} {a b : UInt8} {v : Int32} (ha : bytes[0]? = some a)
    (hb : bytes[1]? = some b) (hv : 2 + 4 ≤ bytes.length ∧ (bytes.drop 2).take 4 = imm32 v) :
    6 ≤ bytes.length ∧ bytes.take 6 = a :: b :: imm32 v := by
  match bytes with
  | [] => simp at ha
  | [x] => simp at hb
  | x :: y :: l => simp_all

theorem readI8_eq_ok {bytes : List UInt8} {i : ℕ} {v : Int32} (h : readI8 bytes i = .ok v) :
    ∃ b, bytes[i]? = some b ∧ v = signExtend b := by
  obtain ⟨b, hb, h⟩ := Fallible.bind_eq_ok.mp h
  exact ⟨b, readU8_eq_ok hb, (Except.ok.inj h).symm⟩

theorem byte_eq {b : UInt8} {n : ℕ} (h : b.toNat = n) : b = .ofNat n := by
  rw [← h, UInt8.ofNat_toNat]

section Forms

variable {bytes : List UInt8} {opcode : UInt8} (hop : bytes[0]? = some opcode) {c : ℕ}
  (hc : opcode.toNat = c) {i : X86Instruction} {n : ℕ}

include hop hc

theorem encodes_modrm (f : ModRm → X86Instruction)
    (henc : ∀ m, Encodes [.ofNat c, modrm m.reg.code m.rm] (f m))
    (h : (readModrm bytes >>= fun x => .ok (f x.2, 2)) = .ok (i, n)) :
    n ≤ bytes.length ∧ Encodes (bytes.take n) i := by
  obtain ⟨⟨b, m⟩, hm, h⟩ := Fallible.bind_eq_ok.mp h
  obtain ⟨rfl, rfl⟩ := Prod.mk.inj (Except.ok.inj h)
  obtain ⟨hlen, htake⟩ := take_two hop (readModrm_eq_ok hm).1
  rw [htake, byte_eq hc]
  exact ⟨hlen, henc m⟩

theorem encodes_rel8 (f : Int32 → X86Instruction)
    (henc : ∀ b, Encodes [.ofNat c, b] (f (signExtend b)))
    (h : (readI8 bytes 1 >>= fun v => .ok (f v, 2)) = .ok (i, n)) :
    n ≤ bytes.length ∧ Encodes (bytes.take n) i := by
  obtain ⟨v, hv, h⟩ := Fallible.bind_eq_ok.mp h
  obtain ⟨b, hb, rfl⟩ := readI8_eq_ok hv
  obtain ⟨rfl, rfl⟩ := Prod.mk.inj (Except.ok.inj h)
  obtain ⟨hlen, htake⟩ := take_two hop hb
  rw [htake, byte_eq hc]
  exact ⟨hlen, henc b⟩

theorem encodes_imm32 (f : Int32 → X86Instruction)
    (henc : ∀ v, Encodes (.ofNat c :: imm32 v) (f v))
    (h : (readI32 bytes 1 >>= fun v => .ok (f v, 5)) = .ok (i, n)) :
    n ≤ bytes.length ∧ Encodes (bytes.take n) i := by
  obtain ⟨v, hv, h⟩ := Fallible.bind_eq_ok.mp h
  obtain ⟨rfl, rfl⟩ := Prod.mk.inj (Except.ok.inj h)
  obtain ⟨hlen, htake⟩ := take_five hop (readI32_eq_ok hv)
  rw [htake, byte_eq hc]
  exact ⟨hlen, henc v⟩

end Forms

/-- What the decoder returns is encoded by the bytes it consumes. -/
theorem decodeOne_encodes {bytes : List UInt8} {i : X86Instruction} {n : ℕ}
    (h : decodeOne bytes = .ok (i, n)) : n ≤ bytes.length ∧ Encodes (bytes.take n) i := by
  obtain ⟨opcode, hop, h⟩ := Fallible.bind_eq_ok.mp h
  have hop := readU8_eq_ok hop
  split at h
  case isTrue hrange =>
    refine encodes_imm32 hop rfl (.movRegImm (Reg32.fromBits (opcode - 0xB8))) ?_ h
    intro imm
    have henc := Encodes.mov_r32_imm32 (Reg32.fromBits (opcode - 0xB8)) imm
    rw [← fromBits_opcode hrange] at henc
    rwa [UInt8.ofNat_toNat]
  case isFalse =>
    split at h
    case h_1 hc =>
      exact encodes_modrm hop hc (fun m => .movRegReg m.rm m.reg)
        (fun m => .mov_rm32_r32 m.rm m.reg) h
    case h_2 hc =>
      exact encodes_modrm hop hc (fun m => .movRegReg m.reg m.rm)
        (fun m => .mov_r32_rm32 m.reg m.rm) h
    case h_3 hc =>
      exact encodes_modrm hop hc (fun m => .addRegReg m.rm m.reg)
        (fun m => .add_rm32_r32 m.rm m.reg) h
    case h_4 hc => exact encodes_imm32 hop hc (.addRegImm .eax) .add_eax_imm32 h
    case h_5 hc =>
      exact encodes_modrm hop hc (fun m => .cmpRegReg m.rm m.reg)
        (fun m => .cmp_rm32_r32 m.rm m.reg) h
    case h_6 hc => exact encodes_imm32 hop hc (.cmpRegImm .eax) .cmp_eax_imm32 h
    case h_7 hc =>
      obtain ⟨⟨b, m⟩, hm, h⟩ := Fallible.bind_eq_ok.mp h
      obtain ⟨hmod, hreg⟩ := readModrm_eq_ok hm
      obtain ⟨imm, himm, h⟩ := Fallible.bind_eq_ok.mp h
      obtain ⟨hlen, htake⟩ := take_six hop hmod (readI32_eq_ok himm)
      -- the `reg` field of the ModRM byte selects the operation
      split at h
      case h_1 hdigit =>
        obtain ⟨rfl, rfl⟩ := Prod.mk.inj (Except.ok.inj h)
        rw [htake, byte_eq hc, ← hreg, byte_eq hdigit]
        exact ⟨hlen, .add_rm32_imm32 m.rm imm⟩
      case h_2 hdigit =>
        obtain ⟨rfl, rfl⟩ := Prod.mk.inj (Except.ok.inj h)
        rw [htake, byte_eq hc, ← hreg, byte_eq hdigit]
        exact ⟨hlen, .cmp_rm32_imm32 m.rm imm⟩
      case h_3 => cases h
    case h_8 hc =>
      obtain ⟨⟨b, m⟩, hm, h⟩ := Fallible.bind_eq_ok.mp h
      obtain ⟨hmod, hreg⟩ := readModrm_eq_ok hm
      obtain ⟨imm, himm, h⟩ := Fallible.bind_eq_ok.mp h
      obtain ⟨b', hb', rfl⟩ := readI8_eq_ok himm
      obtain ⟨hlen, htake⟩ := take_three hop hmod hb'
      split at h
      case h_1 hdigit =>
        obtain ⟨rfl, rfl⟩ := Prod.mk.inj (Except.ok.inj h)
        rw [htake, byte_eq hc, ← hreg, byte_eq hdigit]
        exact ⟨hlen, .add_rm32_imm8 m.rm b'⟩
      case h_2 hdigit =>
        obtain ⟨rfl, rfl⟩ := Prod.mk.inj (Except.ok.inj h)
        rw [htake, byte_eq hc, ← hreg, byte_eq hdigit]
        exact ⟨hlen, .cmp_rm32_imm8 m.rm b'⟩
      case h_3 => cases h
    case h_9 hc => exact encodes_rel8 hop hc .jmp .jmp_rel8 h
    case h_10 hc => exact encodes_imm32 hop hc .jmp .jmp_rel32 h
    case h_11 hc => exact encodes_rel8 hop hc .je .je_rel8 h
    case h_12 hc => exact encodes_rel8 hop hc .jne .jne_rel8 h
    case h_13 hc => exact encodes_imm32 hop hc .call .call_rel32 h
    case h_14 hc =>
      obtain ⟨rfl, rfl⟩ := Prod.mk.inj (Except.ok.inj h)
      cases bytes with
      | nil => cases hop
      | cons x l =>
        obtain rfl := Option.some.inj hop
        rw [byte_eq hc]
        exact ⟨by simp, .ret⟩
    case h_15 => cases h

section Complete

theorem readI32_imm32 {p l : List UInt8} (v : Int32) :
    readI32 (p ++ (imm32 v ++ l)) p.length = .ok v := by
  have hbytes : fromLeBytes v.toUInt32.toUInt8 (v.toUInt32 >>> 8).toUInt8
      (v.toUInt32 >>> 16).toUInt8 (v.toUInt32 >>> 24).toUInt8 = v.toUInt32 := by
    have hlt := v.toUInt32.toNat_lt
    rw [← UInt32.toNat_inj, fromLeBytes, UInt32.toNat_ofNat']
    simp only [UInt32.toNat_toUInt8, UInt32.toNat_shiftRight, Nat.shiftRight_eq_div_pow]
    simp
    omega
  have hlen : ¬ (p ++ (imm32 v ++ l)).length < p.length + 4 := by simp [imm32]
  rw [readI32, dif_neg hlen]
  simp only [imm32, List.cons_append, List.nil_append, List.getElem_append_right, Nat.le_refl,
    Nat.sub_self, Nat.le_add_right, Nat.add_sub_cancel_left, List.getElem_cons_zero,
    List.getElem_cons_succ, hbytes]
  rfl

theorem readModrm_modrm (opcode : UInt8) (reg rm : Reg32) (l : List UInt8) :
    readModrm (opcode :: modrm reg.code rm :: l) = .ok (modrm reg.code rm, ⟨reg, rm⟩) := by
  have hparse : parseModrm (modrm reg.code rm) = some ⟨reg, rm⟩ := by
    cases reg <;> cases rm <;> decide
  rw [readModrm]
  simp only [readU8, List.getElem?_cons_succ, List.getElem?_cons_zero, Fallible.ok_bind, hparse]
  rfl

/-- The decoder accepts every encoding, whatever bytes come after it. -/
theorem decodeOne_of_encodes {p : List UInt8} {i : X86Instruction} (h : Encodes p i)
    (l : List UInt8) : decodeOne (p ++ l) = .ok (i, p.length) := by
  have himm : ∀ (a : UInt8) (v : Int32), readI32 (a :: (imm32 v ++ l)) 1 = .ok v := fun a v =>
    readI32_imm32 (p := [a]) v
  have himm' : ∀ (a b : UInt8) (v : Int32), readI32 (a :: b :: (imm32 v ++ l)) 2 = .ok v :=
    fun a b v => readI32_imm32 (p := [a, b]) v
  have hmodrm := fun (a : UInt8) (reg rm : Reg32) (l : List UInt8) => readModrm_modrm a reg rm l
  have hadd := fun (a : UInt8) (rm : Reg32) (l : List UInt8) => readModrm_modrm a .eax rm l
  have hcmp := fun (a : UInt8) (rm : Reg32) (l : List UInt8) => readModrm_modrm a .edi rm l
  have hdigit : ∀ rm, (modrm 0 rm).toNat >>> 3 &&& 7 = 0 := by
    intro rm
    cases rm <;> decide
  have hdigit' : ∀ rm, (modrm 7 rm).toNat >>> 3 &&& 7 = 7 := by
    intro rm
    cases rm <;> decide
  simp only [Reg32.code] at hadd hcmp
  cases h with
  | mov_r32_imm32 dst imm =>
    have hrange : 0xB8 ≤ 0xB8 + dst.code ∧ 0xB8 + dst.code ≤ 0xBF := by cases dst <;> decide
    have hdst : Reg32.fromBits (0xB8 + dst.code - 0xB8) = dst := by cases dst <;> decide
    generalize 0xB8 + dst.code = opcode at hrange hdst
    simp [decodeOne, readU8, hrange, hdst, himm]
    rfl
  | mov_rm32_r32 dst src => simp [decodeOne, readU8, hmodrm]
  | mov_r32_rm32 dst src => simp [decodeOne, readU8, hmodrm]
  | add_rm32_r32 dst src => simp [decodeOne, readU8, hmodrm]
  | add_eax_imm32 imm => simp [decodeOne, readU8, himm]; rfl
  | cmp_rm32_r32 lhs rhs => simp [decodeOne, readU8, hmodrm]
  | cmp_eax_imm32 imm => simp [decodeOne, readU8, himm]; rfl
  | add_rm32_imm32 dst imm => simp [decodeOne, readU8, hadd, himm', hdigit]; rfl
  | cmp_rm32_imm32 lhs imm => simp [decodeOne, readU8, hcmp, himm', hdigit']; rfl
  | add_rm32_imm8 dst imm => simp [decodeOne, readU8, readI8, hadd, hdigit]; rfl
  | cmp_rm32_imm8 lhs imm => simp [decodeOne, readU8, readI8, hcmp, hdigit']; rfl
  | jmp_rel8 rel => simp [decodeOne, readU8, readI8]; rfl
  | jmp_rel32 rel => simp [decodeOne, readU8, himm]; rfl
  | je_rel8 rel => simp [decodeOne, readU8, readI8]; rfl
  | jne_rel8 rel => simp [decodeOne, readU8, readI8]; rfl
  | call_rel32 rel => simp [decodeOne, readU8, himm]; rfl
  | ret => simp [decodeOne, readU8]

end Complete

end Decompiler.X86
