import Decompiler.X86.Registers

/-! # The x86 decoder

Immediates and displacements keep their signed 32-bit value; the lifter turns a
displacement into an absolute address.
-/

namespace Decompiler.X86

inductive X86Instruction where
  | movRegReg (dst src : Reg32)
  | movRegImm (dst : Reg32) (imm : Int32)
  | addRegReg (dst src : Reg32)
  | addRegImm (dst : Reg32) (imm : Int32)
  | cmpRegReg (lhs rhs : Reg32)
  | cmpRegImm (lhs : Reg32) (imm : Int32)
  | jmp (rel : Int32)
  | je (rel : Int32)
  | jne (rel : Int32)
  | call (rel : Int32)
  | ret
  deriving DecidableEq, Repr

def readU8 (bytes : List UInt8) (i : ℕ) : Except DecodeError UInt8 :=
  match bytes[i]? with
  | some b => .ok b
  | none => .error .unexpectedEnd

def readI8 (bytes : List UInt8) (i : ℕ) : Except DecodeError Int32 := do
  return (← readU8 bytes i).toInt8.toInt32

def readI32 (bytes : List UInt8) (i : ℕ) : Except DecodeError Int32 :=
  if _h : bytes.length < i + 4 then .error .unexpectedEnd
  else .ok (fromLeBytes bytes[i] bytes[i + 1] bytes[i + 2] bytes[i + 3]).toInt32

def readModrm (bytes : List UInt8) : Except DecodeError (UInt8 × ModRm) := do
  let modrm ← readU8 bytes 1
  match parseModrm modrm with
  | some m => return (modrm, m)
  | none => .error (.unsupportedAddressingMode modrm)

def decodeOne (bytes : List UInt8) : Except DecodeError (X86Instruction × ℕ) := do
  let opcode ← readU8 bytes 0
  if 0xB8 ≤ opcode ∧ opcode ≤ 0xBF then
    let dst := Reg32.fromBits (opcode - 0xB8)
    let imm ← readI32 bytes 1
    return (.movRegImm dst imm, 5)
  else match opcode.toNat with
  | 0x89 =>
    let (_, m) ← readModrm bytes
    return (.movRegReg m.rm m.reg, 2)
  | 0x8B =>
    let (_, m) ← readModrm bytes
    return (.movRegReg m.reg m.rm, 2)
  | 0x01 =>
    let (_, m) ← readModrm bytes
    return (.addRegReg m.rm m.reg, 2)
  | 0x05 =>
    let imm ← readI32 bytes 1
    return (.addRegImm .eax imm, 5)
  | 0x39 =>
    let (_, m) ← readModrm bytes
    return (.cmpRegReg m.rm m.reg, 2)
  | 0x3D =>
    let imm ← readI32 bytes 1
    return (.cmpRegImm .eax imm, 5)
  | 0x81 =>
    let (modrm, m) ← readModrm bytes
    let regField := (modrm >>> 3) &&& 0b111
    let imm ← readI32 bytes 2
    match regField.toNat with
    | 0 => return (.addRegImm m.rm imm, 6)
    | 7 => return (.cmpRegImm m.rm imm, 6)
    | _ => .error (.invalidOrUnsupported opcode)
  | 0x83 =>
    let (modrm, m) ← readModrm bytes
    let regField := (modrm >>> 3) &&& 0b111
    let imm ← readI8 bytes 2
    match regField.toNat with
    | 0 => return (.addRegImm m.rm imm, 3)
    | 7 => return (.cmpRegImm m.rm imm, 3)
    | _ => .error (.invalidOrUnsupported opcode)
  | 0xEB =>
    let rel ← readI8 bytes 1
    return (.jmp rel, 2)
  | 0xE9 =>
    let rel ← readI32 bytes 1
    return (.jmp rel, 5)
  | 0x74 =>
    let rel ← readI8 bytes 1
    return (.je rel, 2)
  | 0x75 =>
    let rel ← readI8 bytes 1
    return (.jne rel, 2)
  | 0xE8 =>
    let rel ← readI32 bytes 1
    return (.call rel, 5)
  | 0xC3 => return (.ret, 1)
  | _ => .error (.invalidOrUnsupported opcode)

def disassembleOne (bytes : List UInt8) (address : Address) :
    Except DecodeError (DisassemblyResult X86Instruction) := do
  let (instruction, length) ← decodeOne bytes
  return ⟨instruction, length, address⟩

end Decompiler.X86
