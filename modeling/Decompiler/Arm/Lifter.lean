import Decompiler.Arm.Decoder

/-! # The mock ARM lifter

Branches count from the address of the branch itself. A comparison records
equality in a single flags register, which both conditional branches test.
-/

namespace Decompiler.Arm

def reg (r : Reg64) : Varnode := .named .register (.ofNat r.number) 8 r.display

def imm (val : UInt32) : Varnode := .constant val.toUInt64 8

def flags : Varnode := .named .register 1000 4 "NZCV"

/-- `(address as i64 + rel as i64) as u64` -/
def branchAddress (address : Address) (rel : Int32) : Except Fault Address := do
  let target ← addI64 address.toInt64 rel.toInt64
  return target.toUInt64

def lift (instruction : ArmInstruction) (address : Address) (_length : ℕ)
    (temps : TempAllocator) : Except Fault (List Instruction × TempAllocator) :=
  match instruction with
  | .movRegImm dst val => return ([.copy (reg dst) (imm val)], temps)
  | .addRegReg dst src1 src2 => return ([.intAdd (reg dst) (reg src1) (reg src2)], temps)
  | .addRegImm dst src val => return ([.intAdd (reg dst) (reg src) (imm val)], temps)
  | .cmpRegReg lhs rhs => return ([.intEqual flags (reg lhs) (reg rhs)], temps)
  | .cmpRegImm lhs val => return ([.intEqual flags (reg lhs) (imm val)], temps)
  | .b rel => return ([.branch (.absolute (← branchAddress address rel))], temps)
  | .bl rel => return ([.call (.absolute (← branchAddress address rel))], temps)
  | .beq rel => return ([.cbranch flags (.absolute (← branchAddress address rel))], temps)
  | .bne rel => return ([.cbranch flags (.absolute (← branchAddress address rel))], temps)
  | .ret => return ([.ret], temps)

def backend : Backend ArmInstruction := ⟨disassembleOne, lift⟩

end Decompiler.Arm
