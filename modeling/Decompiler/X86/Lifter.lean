import Decompiler.X86.Decoder

/-! # The x86 lifter

One function for each instruction shape. A comparison subtracts into a fresh
temporary and derives the zero flag from that; no other flag is kept.
-/

namespace Decompiler.X86

def regSize : UInt8 := 4

/-- The slot of the zero flag, outside the range of the register ids. -/
def zfRegId : UInt64 := 1000

def regVarnode (r : Reg32) : Varnode := .register r.id regSize r.name

def zfVarnode : Varnode := .named .register zfRegId 1 "ZF"

def immVarnode (imm : Int32) : Varnode := .constant imm.toUInt32.toUInt64 regSize

/-- Displacements count from the next instruction. -/
def resolveRel (address : Address) (length : ℕ) (rel : Int32) : Except Fault Address := do
  let next ← addI64 address.toInt64 (.ofNat length)
  let target ← addI64 next rel.toInt64
  return target.toUInt64

def liftMovRegReg (dst src : Reg32) : List Instruction :=
  [.copy (regVarnode dst) (regVarnode src)]

def liftMovRegImm (dst : Reg32) (imm : Int32) : List Instruction :=
  [.copy (regVarnode dst) (immVarnode imm)]

def liftAdd (dst : Reg32) (rhs : Varnode) : List Instruction :=
  [.intAdd (regVarnode dst) (regVarnode dst) rhs]

def liftCmp (lhs : Reg32) (rhs : Varnode) (temps : TempAllocator) :
    Except Fault (List Instruction × TempAllocator) := do
  let (diff, temps) ← temps.fresh regSize
  return ([.intSub diff (regVarnode lhs) rhs,
    .intEqual zfVarnode diff (.constant 0 regSize)], temps)

def liftJmp (target : Address) : List Instruction := [.branch (.absolute target)]

def liftJe (target : Address) : List Instruction := [.cbranch zfVarnode (.absolute target)]

def liftJne (target : Address) (temps : TempAllocator) :
    Except Fault (List Instruction × TempAllocator) := do
  let (notZf, temps) ← temps.fresh 1
  return ([.intEqual notZf zfVarnode (.constant 0 1), .cbranch notZf (.absolute target)], temps)

def liftCall (target : Address) : List Instruction := [.call (.absolute target)]

def liftRet : List Instruction := [.ret]

def lift (instruction : X86Instruction) (address : Address) (length : ℕ)
    (temps : TempAllocator) : Except Fault (List Instruction × TempAllocator) :=
  match instruction with
  | .movRegReg dst src => return (liftMovRegReg dst src, temps)
  | .movRegImm dst imm => return (liftMovRegImm dst imm, temps)
  | .addRegReg dst src => return (liftAdd dst (regVarnode src), temps)
  | .addRegImm dst imm => return (liftAdd dst (immVarnode imm), temps)
  | .cmpRegReg lhs rhs => liftCmp lhs (regVarnode rhs) temps
  | .cmpRegImm lhs imm => liftCmp lhs (immVarnode imm) temps
  | .jmp rel => return (liftJmp (← resolveRel address length rel), temps)
  | .je rel => return (liftJe (← resolveRel address length rel), temps)
  | .jne rel => do liftJne (← resolveRel address length rel) temps
  | .call rel => return (liftCall (← resolveRel address length rel), temps)
  | .ret => return (liftRet, temps)

def backend : Backend X86Instruction := ⟨disassembleOne, lift⟩

end Decompiler.X86
