import Decompiler.Arm.Registers

/-! # The mock ARM decoder

Every instruction is a little-endian word of four bytes with its opcode in the
top byte.
-/

namespace Decompiler.Arm

inductive ArmInstruction where
  | movRegImm (dst : Reg64) (imm : UInt32)
  | addRegReg (dst src1 src2 : Reg64)
  | addRegImm (dst src : Reg64) (imm : UInt32)
  | cmpRegReg (lhs rhs : Reg64)
  | cmpRegImm (lhs : Reg64) (imm : UInt32)
  | b (rel : Int32)
  | bl (rel : Int32)
  | beq (rel : Int32)
  | bne (rel : Int32)
  | ret
  deriving DecidableEq, Repr

def signExtend24 (word : UInt32) : Int32 :=
  let imm24 := word &&& 0xFFFFFF
  if imm24 &&& 0x800000 ≠ 0 then (imm24 ||| 0xFF000000).toInt32 else imm24.toInt32

def decodeReg (bits : UInt8) : Except DecodeError Reg64 :=
  match Reg64.fromBits bits with
  | .ok r => .ok r
  | .error _ => .error (.invalidOrUnsupported bits)

/-- The part of `decode_one` that follows the reading of the word. -/
def decodeWord (word : UInt32) : Except DecodeError (ArmInstruction × ℕ) := do
  let opcode := (word >>> 24).toUInt8
  match opcode.toNat with
  | 0x10 =>
    let dst ← decodeReg (word &&& 0x1F).toUInt8
    let imm := (word >>> 5) &&& 0xFFFF
    return (.movRegImm dst imm, 4)
  | 0x11 =>
    let dst ← decodeReg (word &&& 0x1F).toUInt8
    let src1 ← decodeReg ((word >>> 5) &&& 0x1F).toUInt8
    let src2 ← decodeReg ((word >>> 10) &&& 0x1F).toUInt8
    return (.addRegReg dst src1 src2, 4)
  | 0x12 =>
    let dst ← decodeReg (word &&& 0x1F).toUInt8
    let src ← decodeReg ((word >>> 5) &&& 0x1F).toUInt8
    let imm := (word >>> 10) &&& 0x3FFF
    return (.addRegImm dst src imm, 4)
  | 0x13 =>
    let lhs ← decodeReg (word &&& 0x1F).toUInt8
    let rhs ← decodeReg ((word >>> 5) &&& 0x1F).toUInt8
    return (.cmpRegReg lhs rhs, 4)
  | 0x14 => return (.b (signExtend24 word), 4)
  | 0x15 => return (.bl (signExtend24 word), 4)
  | 0x16 => return (.beq (signExtend24 word), 4)
  | 0x17 => return (.bne (signExtend24 word), 4)
  | 0x18 => return (.ret, 4)
  | _ => .error (.invalidOrUnsupported opcode)

def decodeOne (bytes : List UInt8) : Except DecodeError (ArmInstruction × ℕ) :=
  if _h : bytes.length < 4 then .error .unexpectedEnd
  else decodeWord (fromLeBytes bytes[0] bytes[1] bytes[2] bytes[3])

def disassembleOne (bytes : List UInt8) (address : Address) :
    Except DecodeError (DisassemblyResult ArmInstruction) := do
  let (instruction, length) ← decodeOne bytes
  return ⟨instruction, length, address⟩

end Decompiler.Arm
