import Decompiler.Cli.Decoded
import Decompiler.X86.Encoding
import Decompiler.Arm.Encoding

/-! # The two architectures keep their promises -/

namespace Decompiler

open Fallible (FailsOnly)

theorem UInt32.toUInt64_lt_modulus {v : UInt32} {size : UInt8} (h : 4 ≤ size.toNat) :
    v.toUInt64.toNat < modulus size := by
  have hpow : 2 ^ 32 ≤ modulus size := Nat.pow_le_pow_right (by decide) (by omega)
  rw [UInt32.toNat_toUInt64]
  exact v.toNat_lt.trans_le hpow

theorem shaped_of_forall {ops : List Instruction} (hw : ∀ op ∈ ops, op.WellFormed)
    (hops : (ops.dropLast.all fun op => !op.isTerminator) && ops.all Instruction.isAbsolute) :
    Shaped ops where
  wellFormed := hw
  terminator_last op hop := by
    simpa using List.all_eq_true.mp (Bool.and_eq_true_iff.mp hops).1 op hop
  absolute := List.all_eq_true.mp (Bool.and_eq_true_iff.mp hops).2

theorem shaped_singleton {op : Instruction} (h : op.WellFormed) (ha : op.isAbsolute) :
    Shaped [op] :=
  shaped_of_forall (by simpa using h) (by simpa using ha)

section Lifts

variable {P : List Instruction → Prop} {ops : List Instruction} {temps temps' : TempAllocator}

theorem holds_of_return {ops₀ : List Instruction}
    (h : (.ok (ops₀, temps) : Except Fault _) = .ok (ops, temps')) (hs : P ops₀) : P ops := by
  obtain ⟨rfl, -⟩ := Prod.mk.inj (Except.ok.inj h)
  exact hs

theorem holds_of_target {f : Address → List Instruction} {x : Except Fault Address}
    (h : (x >>= fun target => .ok (f target, temps)) = .ok (ops, temps'))
    (hs : ∀ target, P (f target)) : P ops := by
  obtain ⟨target, -, h⟩ := Fallible.bind_eq_ok.mp h
  exact holds_of_return h (hs target)

end Lifts

theorem fresh_eq_ok {temps temps' : TempAllocator} {size : UInt8} {v : Varnode}
    (h : temps.fresh size = .ok (v, temps')) :
    v = .new .unique temps.next size ∧ temps' = ⟨temps.next + 1⟩ ∧
      temps.next.toNat + 1 < 2 ^ 64 := by
  unfold TempAllocator.fresh at h
  split at h
  case isTrue hlt =>
    obtain ⟨rfl, rfl⟩ := Prod.mk.inj (Except.ok.inj h)
    exact ⟨rfl, rfl, hlt⟩
  case isFalse => cases h

theorem fresh_next {temps temps' : TempAllocator} {size : UInt8} {v : Varnode}
    (h : temps.fresh size = .ok (v, temps')) : temps'.next.toNat = temps.next.toNat + 1 := by
  obtain ⟨-, rfl, hlt⟩ := fresh_eq_ok h
  rw [UInt64.toNat_add]
  exact Nat.mod_eq_of_lt hlt

theorem exists_fresh {temps : TempAllocator} (h : temps.next.toNat + 1 < 2 ^ 64)
    (size : UInt8) : ∃ r, temps.fresh size = .ok r := ⟨_, if_pos h⟩

theorem failsOnly_fresh {temps : TempAllocator} (h : temps.next.toNat + 1 < 2 ^ 64)
    (size : UInt8) : FailsOnly .addressOverflow (temps.fresh size) := by
  rw [TempAllocator.fresh, if_pos h]
  exact .ok _

theorem failsOnly_addI64 (a b : Int64) : FailsOnly .addressOverflow (addI64 a b) := by
  unfold addI64
  split
  · exact .ok _
  · exact .error

theorem failsOnly_addU64 (base : Address) (offset : ℕ) :
    FailsOnly .addressOverflow (addU64 base offset) := by
  unfold addU64
  split
  · exact .ok _
  · exact .error

namespace X86

theorem sized_reg (r : Reg32) : (regVarnode r).Sized := by
  refine ⟨?_, ?_, ?_⟩ <;> simp [regVarnode, Varnode.register, Varnode.named, regSize]

theorem sized_imm (imm : Int32) : (immVarnode imm).Sized := by
  refine ⟨by simp [immVarnode, Varnode.constant, Varnode.new, regSize],
    by simp [immVarnode, Varnode.constant, Varnode.new, regSize], fun _ => ?_⟩
  exact @UInt32.toUInt64_lt_modulus _ regSize (by decide)

theorem sized_zf : zfVarnode.Sized := ⟨by decide, by decide, fun h => nomatch h⟩

theorem shaped_liftAdd (dst : Reg32) {rhs : Varnode} (hrhs : rhs.Sized) (hsize : rhs.size = regSize) :
    Shaped (liftAdd dst rhs) :=
  shaped_singleton ⟨nofun, sized_reg dst, hrhs, hsize, rfl⟩ rfl

theorem shaped_liftCmp {lhs : Reg32} {rhs : Varnode} {temps temps' : TempAllocator}
    {ops : List Instruction} (hrhs : rhs.Sized) (hsize : rhs.size = regSize)
    (h : liftCmp lhs rhs temps = .ok (ops, temps')) : Shaped ops := by
  obtain ⟨⟨diff, t⟩, hfresh, h⟩ := Fallible.bind_eq_ok.mp h
  obtain ⟨rfl, rfl, -⟩ := fresh_eq_ok hfresh
  obtain ⟨rfl, -⟩ := Prod.mk.inj (Except.ok.inj h)
  refine shaped_of_forall ?_ rfl
  simp only [List.mem_cons, List.not_mem_nil, or_false, forall_eq_or_imp, forall_eq]
  exact ⟨⟨nofun, sized_reg lhs, hrhs, hsize, rfl⟩, nofun, sized_zf,
    ⟨by simp [Varnode.new, regSize], by simp [Varnode.new, regSize], nofun⟩,
    ⟨by decide, by decide, fun _ => by decide⟩, rfl⟩

theorem shaped_liftJne {target : Address} {temps temps' : TempAllocator}
    {ops : List Instruction} (h : liftJne target temps = .ok (ops, temps')) : Shaped ops := by
  obtain ⟨⟨notZf, t⟩, hfresh, h⟩ := Fallible.bind_eq_ok.mp h
  obtain ⟨rfl, rfl, -⟩ := fresh_eq_ok hfresh
  refine holds_of_return h (shaped_of_forall ?_ rfl)
  have hnotZf : (Varnode.new .unique temps.next 1).Sized :=
    ⟨by simp [Varnode.new], by simp [Varnode.new], nofun⟩
  simp only [List.mem_cons, List.not_mem_nil, or_false, forall_eq_or_imp, forall_eq]
  exact ⟨⟨nofun, hnotZf, sized_zf, ⟨by decide, by decide, fun _ => by decide⟩, rfl⟩, hnotZf⟩

theorem shaped_lift {i : X86Instruction} {address : Address} {length : ℕ}
    {temps temps' : TempAllocator} {ops : List Instruction}
    (h : lift i address length temps = .ok (ops, temps')) : Shaped ops := by
  cases i with
  | movRegReg dst src =>
    exact holds_of_return h (shaped_singleton ⟨nofun, sized_reg src, rfl⟩ rfl)
  | movRegImm dst imm =>
    exact holds_of_return h (shaped_singleton ⟨nofun, sized_imm imm, rfl⟩ rfl)
  | addRegReg dst src => exact holds_of_return h (shaped_liftAdd dst (sized_reg src) rfl)
  | addRegImm dst imm => exact holds_of_return h (shaped_liftAdd dst (sized_imm imm) rfl)
  | cmpRegReg lhs rhs => exact shaped_liftCmp (sized_reg rhs) rfl h
  | cmpRegImm lhs imm => exact shaped_liftCmp (sized_imm imm) rfl h
  | jmp rel => exact holds_of_target h fun _ => shaped_singleton trivial rfl
  | je rel => exact holds_of_target h fun _ => shaped_singleton sized_zf rfl
  | jne rel =>
    obtain ⟨target, -, h⟩ := Fallible.bind_eq_ok.mp h
    exact shaped_liftJne h
  | call rel => exact holds_of_target h fun _ => shaped_singleton trivial rfl
  | ret => exact holds_of_return h (shaped_singleton trivial rfl)

theorem disassembleOne_encodes {bytes : List UInt8} {address : Address}
    {result : DisassemblyResult X86Instruction} (h : disassembleOne bytes address = .ok result) :
    result.length ≤ bytes.length ∧ Encodes (bytes.take result.length) result.instruction := by
  obtain ⟨⟨i, n⟩, hdec, h⟩ := Fallible.bind_eq_ok.mp h
  obtain rfl := Except.ok.inj h
  exact decodeOne_encodes hdec

theorem failsOnly_resolveRel (address : Address) (length : ℕ) (rel : Int32) :
    FailsOnly .addressOverflow (resolveRel address length rel) :=
  (failsOnly_addI64 _ _).bind fun _ _ => (failsOnly_addI64 _ _).bind fun _ _ => .ok _

theorem failsOnly_liftCmp (lhs : Reg32) (rhs : Varnode) {temps : TempAllocator}
    (htemps : temps.next.toNat + 1 < 2 ^ 64) :
    FailsOnly .addressOverflow (liftCmp lhs rhs temps) :=
  (failsOnly_fresh htemps regSize).bind fun _ _ => .ok _

theorem failsOnly_lift (i : X86Instruction) (address : Address) (length : ℕ)
    {temps : TempAllocator} (htemps : temps.next.toNat + 1 < 2 ^ 64) :
    FailsOnly .addressOverflow (lift i address length temps) := by
  cases i with
  | movRegReg | movRegImm | addRegReg | addRegImm | ret => exact .ok _
  | cmpRegReg lhs rhs => exact failsOnly_liftCmp lhs _ htemps
  | cmpRegImm lhs imm => exact failsOnly_liftCmp lhs _ htemps
  | jmp rel | je rel | call rel =>
    exact (failsOnly_resolveRel address length rel).bind fun _ _ => .ok _
  | jne rel =>
    apply (failsOnly_resolveRel address length rel).bind
    intro target _
    exact (failsOnly_fresh htemps 1).bind fun _ _ => .ok _

theorem exists_resolveRel {address : Address} {length : ℕ} (rel : Int32)
    (h : address.toNat + length + 2 ^ 31 ≤ 2 ^ 63) :
    ∃ target, resolveRel address length rel = .ok target := by
  have haddr : address.toInt64.toInt = address.toNat := by
    rw [toInt_toInt64, if_pos (by omega)]
  have hlen : (Int64.ofNat length).toInt = length := Int64.toInt_ofNat_of_lt (by omega)
  obtain ⟨next, hnext, hint⟩ := @exists_addI64 address.toInt64 (.ofNat length)
    (by omega) (by omega)
  obtain ⟨target, htarget⟩ := @exists_addI64_rel next rel (by omega) (by omega)
  exact ⟨target.toUInt64, by rw [resolveRel, hnext, Fallible.ok_bind, htarget]; rfl⟩

theorem exists_lift (i : X86Instruction) {address : Address} {length : ℕ}
    {temps : TempAllocator} (htemps : temps.next.toNat + 1 < 2 ^ 64)
    (haddr : address.toNat + length + 2 ^ 31 ≤ 2 ^ 63) :
    ∃ r, lift i address length temps = .ok r := by
  cases i with
  | movRegReg | movRegImm | addRegReg | addRegImm | ret => exact ⟨_, rfl⟩
  | cmpRegReg lhs rhs | cmpRegImm lhs imm =>
    obtain ⟨⟨diff, t⟩, hfresh⟩ := exists_fresh htemps regSize
    exact ⟨_, by rw [lift, liftCmp, hfresh]; rfl⟩
  | jmp rel | je rel | call rel =>
    obtain ⟨target, htarget⟩ := exists_resolveRel rel haddr
    exact ⟨_, by rw [lift, htarget]; rfl⟩
  | jne rel =>
    obtain ⟨target, htarget⟩ := exists_resolveRel rel haddr
    obtain ⟨⟨notZf, t⟩, hfresh⟩ := exists_fresh htemps 1
    exact ⟨_, by rw [lift, htarget, Fallible.ok_bind, liftJne, hfresh]; rfl⟩

def usesTemp : X86Instruction → Bool
  | .cmpRegReg _ _ | .cmpRegImm _ _ | .jne _ => true
  | _ => false

theorem Encodes.two_le_length {bytes : List UInt8} {i : X86Instruction} (h : Encodes bytes i)
    (hi : usesTemp i = true) : 2 ≤ bytes.length := by
  cases h <;> simp_all [usesTemp, imm32]

theorem lift_temps {i : X86Instruction} {address : Address} {length : ℕ}
    {temps temps' : TempAllocator} {ops : List Instruction}
    (h : lift i address length temps = .ok (ops, temps')) :
    temps' = temps ∨ usesTemp i = true ∧ temps'.next.toNat = temps.next.toNat + 1 := by
  have hcmp : ∀ {lhs rhs}, liftCmp lhs rhs temps = .ok (ops, temps') →
      temps'.next.toNat = temps.next.toNat + 1 := by
    intro lhs rhs h
    obtain ⟨⟨diff, t⟩, hfresh, h⟩ := Fallible.bind_eq_ok.mp h
    obtain ⟨-, rfl⟩ := Prod.mk.inj (Except.ok.inj h)
    exact fresh_next hfresh
  cases i with
  | movRegReg | movRegImm | addRegReg | addRegImm | ret =>
    obtain ⟨-, rfl⟩ := Prod.mk.inj (Except.ok.inj h)
    exact Or.inl rfl
  | cmpRegReg | cmpRegImm => exact Or.inr ⟨rfl, hcmp h⟩
  | jmp | je | call =>
    obtain ⟨target, -, h⟩ := Fallible.bind_eq_ok.mp h
    obtain ⟨-, rfl⟩ := Prod.mk.inj (Except.ok.inj h)
    exact Or.inl rfl
  | jne =>
    obtain ⟨target, -, h⟩ := Fallible.bind_eq_ok.mp h
    obtain ⟨⟨notZf, t⟩, hfresh, h⟩ := Fallible.bind_eq_ok.mp h
    obtain ⟨-, rfl⟩ := Prod.mk.inj (Except.ok.inj h)
    exact Or.inr ⟨rfl, fresh_next hfresh⟩

theorem lawful : backend.Lawful where
  length_pos h := by
    have hlen := (disassembleOne_encodes h).2.length_pos
    rw [List.length_take] at hlen
    omega
  length_le h := (disassembleOne_encodes h).1
  shaped h := shaped_lift h
  temps_le h hlift := by
    obtain ⟨hle, henc⟩ := disassembleOne_encodes h
    rcases lift_temps hlift with rfl | ⟨hi, hnext⟩
    · omega
    · have hlen := henc.two_le_length hi
      rw [List.length_take] at hlen
      omega
  failsOnly htemps := failsOnly_lift _ _ _ htemps

end X86

namespace Arm

theorem sized_reg (r : Reg64) : (reg r).Sized := by
  refine ⟨?_, ?_, ?_⟩ <;> simp [reg, Varnode.named]

theorem sized_imm (val : UInt32) : (imm val).Sized := by
  refine ⟨by simp [imm, Varnode.constant, Varnode.new],
    by simp [imm, Varnode.constant, Varnode.new], fun _ => ?_⟩
  exact @UInt32.toUInt64_lt_modulus _ 8 (by decide)

theorem sized_flags : flags.Sized := ⟨by decide, by decide, fun h => nomatch h⟩

theorem shaped_lift {i : ArmInstruction} {address : Address} {length : ℕ}
    {temps temps' : TempAllocator} {ops : List Instruction}
    (h : lift i address length temps = .ok (ops, temps')) : Shaped ops := by
  cases i with
  | movRegImm dst val =>
    exact holds_of_return h (shaped_singleton ⟨nofun, sized_imm val, rfl⟩ rfl)
  | addRegReg dst src1 src2 =>
    exact holds_of_return h
      (shaped_singleton ⟨nofun, sized_reg src1, sized_reg src2, rfl, rfl⟩ rfl)
  | addRegImm dst src val =>
    exact holds_of_return h
      (shaped_singleton ⟨nofun, sized_reg src, sized_imm val, rfl, rfl⟩ rfl)
  | cmpRegReg lhs rhs =>
    exact holds_of_return h
      (shaped_singleton ⟨nofun, sized_flags, sized_reg lhs, sized_reg rhs, rfl⟩ rfl)
  | cmpRegImm lhs val =>
    exact holds_of_return h
      (shaped_singleton ⟨nofun, sized_flags, sized_reg lhs, sized_imm val, rfl⟩ rfl)
  | b rel | bl rel => exact holds_of_target h fun _ => shaped_singleton trivial rfl
  | beq rel | bne rel => exact holds_of_target h fun _ => shaped_singleton sized_flags rfl
  | ret => exact holds_of_return h (shaped_singleton trivial rfl)

theorem lift_temps {i : ArmInstruction} {address : Address} {length : ℕ}
    {temps temps' : TempAllocator} {ops : List Instruction}
    (h : lift i address length temps = .ok (ops, temps')) : temps' = temps := by
  cases i with
  | movRegImm | addRegReg | addRegImm | cmpRegReg | cmpRegImm | ret =>
    exact (Prod.mk.inj (Except.ok.inj h)).2.symm
  | b | bl | beq | bne =>
    obtain ⟨target, -, h⟩ := Fallible.bind_eq_ok.mp h
    exact (Prod.mk.inj (Except.ok.inj h)).2.symm

theorem failsOnly_branchAddress (address : Address) (rel : Int32) :
    FailsOnly .addressOverflow (branchAddress address rel) :=
  (failsOnly_addI64 _ _).bind fun _ _ => .ok _

theorem failsOnly_lift (i : ArmInstruction) (address : Address) (length : ℕ)
    (temps : TempAllocator) : FailsOnly .addressOverflow (lift i address length temps) := by
  cases i with
  | movRegImm | addRegReg | addRegImm | cmpRegReg | cmpRegImm | ret => exact .ok _
  | b rel | bl rel | beq rel | bne rel =>
    exact (failsOnly_branchAddress address rel).bind fun _ _ => .ok _

theorem exists_branchAddress {address : Address} (rel : Int32)
    (h : address.toNat + 2 ^ 31 ≤ 2 ^ 63) :
    ∃ target, branchAddress address rel = .ok target := by
  have haddr : address.toInt64.toInt = address.toNat := by
    rw [toInt_toInt64, if_pos (by omega)]
  obtain ⟨target, htarget⟩ := @exists_addI64_rel address.toInt64 rel (by omega) (by omega)
  exact ⟨target.toUInt64, by rw [branchAddress, htarget]; rfl⟩

theorem exists_lift (i : ArmInstruction) {address : Address} (length : ℕ)
    (temps : TempAllocator) (haddr : address.toNat + 2 ^ 31 ≤ 2 ^ 63) :
    ∃ r, lift i address length temps = .ok r := by
  cases i with
  | movRegImm | addRegReg | addRegImm | cmpRegReg | cmpRegImm | ret => exact ⟨_, rfl⟩
  | b rel | bl rel | beq rel | bne rel =>
    obtain ⟨target, htarget⟩ := exists_branchAddress rel haddr
    exact ⟨_, by rw [lift, htarget]; rfl⟩

theorem disassembleOne_length {bytes : List UInt8} {address : Address}
    {result : DisassemblyResult ArmInstruction} (h : disassembleOne bytes address = .ok result) :
    result.length = 4 ∧ 4 ≤ bytes.length := by
  obtain ⟨⟨i, n⟩, hdec, h⟩ := Fallible.bind_eq_ok.mp h
  obtain rfl := Except.ok.inj h
  exact decodeOne_length hdec

theorem lawful : backend.Lawful where
  length_pos h := by rw [(disassembleOne_length h).1]; decide
  length_le h := by
    obtain ⟨hn, hlen⟩ := disassembleOne_length h
    rwa [hn]
  shaped {_ _ length _ _ _} h := @shaped_lift _ _ length _ _ _ h
  temps_le {_ _ result _ _ _} _ hlift := by
    rw [@lift_temps _ _ result.length _ _ _ hlift]
    omega
  failsOnly {_ _ length _} _ := failsOnly_lift _ _ length _

end Arm

end Decompiler
