import Decompiler.Core.Traits
import Decompiler.Ir.Semantics
import Decompiler.X86.Encoding

/-! # The x86 subset machine

The meaning of the supported instructions on the eight registers and the zero flag.
Additions leave the flag alone. What a callee does to the registers is a parameter.
-/

namespace Decompiler.X86

structure Cpu where
  regs : Reg32 → UInt32
  zf : Bool

def Cpu.set (c : Cpu) (r : Reg32) (v : UInt32) : Cpu :=
  { c with regs := Function.update c.regs r v }

def relTarget (pc : Address) (length : ℕ) (rel : Int32) : Address :=
  pc + .ofNat length + rel.toInt64.toUInt64

/-- The effect of an instruction of some length at an address, and where it goes. -/
def X86Instruction.exec (callee : Address → Cpu → Cpu) (pc : Address) (length : ℕ) (c : Cpu) :
    X86Instruction → Cpu × Control
  | .movRegReg dst src => (c.set dst (c.regs src), .fall)
  | .movRegImm dst imm => (c.set dst imm.toUInt32, .fall)
  | .addRegReg dst src => (c.set dst (c.regs dst + c.regs src), .fall)
  | .addRegImm dst imm => (c.set dst (c.regs dst + imm.toUInt32), .fall)
  | .cmpRegReg lhs rhs => ({ c with zf := c.regs lhs = c.regs rhs }, .fall)
  | .cmpRegImm lhs imm => ({ c with zf := c.regs lhs = imm.toUInt32 }, .fall)
  | .jmp rel => (c, .jump (.absolute (relTarget pc length rel)))
  | .je rel => (c, if c.zf then .jump (.absolute (relTarget pc length rel)) else .fall)
  | .jne rel => (c, if c.zf then .fall else .jump (.absolute (relTarget pc length rel)))
  | .call rel => (callee (relTarget pc length rel) c, .fall)
  | .ret => (c, .stop)

/-- The bytes at an address encode an instruction of some length. -/
def Fetches (bytes : List UInt8) (base pc : Address) (i : X86Instruction) (length : ℕ) : Prop :=
  ∃ offset, addU64 base offset = .ok pc ∧ offset + length ≤ bytes.length ∧
    Encodes ((bytes.drop offset).take length) i

inductive CpuStep (callee : Address → Cpu → Cpu) (bytes : List UInt8) (base : Address) :
    Address × Cpu → Address × Cpu → Prop
  | fall {pc next : Address} {c c' : Cpu} {i : X86Instruction} {length : ℕ}
    (fetch : Fetches bytes base pc i length) (exec : i.exec callee pc length c = (c', .fall))
    (address : addU64 pc length = .ok next) : CpuStep callee bytes base (pc, c) (next, c')
  | jump {pc target : Address} {c c' : Cpu} {i : X86Instruction} {length : ℕ}
    (fetch : Fetches bytes base pc i length)
    (exec : i.exec callee pc length c = (c', .jump (.absolute target))) :
    CpuStep callee bytes base (pc, c) (target, c')

theorem Fetches.unique {bytes : List UInt8} {base pc : Address} {i j : X86Instruction} {m n : ℕ}
    (hi : Fetches bytes base pc i m) (hj : Fetches bytes base pc j n) : i = j ∧ m = n := by
  obtain ⟨o, ho, hm, hi⟩ := hi
  obtain ⟨o', ho', hn, hj⟩ := hj
  rw [addU64_eq_ok_iff] at ho ho'
  obtain rfl : o = o' := by omega
  have hdi := decodeOne_of_encodes hi ((bytes.drop o).drop m)
  have hdj := decodeOne_of_encodes hj ((bytes.drop o).drop n)
  rw [List.take_append_drop] at hdi hdj
  obtain ⟨rfl, hlen⟩ := Prod.mk.inj (Except.ok.inj (hdi.symm.trans hdj))
  rw [List.length_take, List.length_take, List.length_drop] at hlen
  exact ⟨rfl, by omega⟩

end Decompiler.X86
