import Decompiler.Arm.Lifter
import Decompiler.Output.C
import Decompiler.X86.Lifter

/-! # How instructions are displayed

The texts of decoded instructions, of operations and of decoding errors, as the listing of the
command line tool shows them.
-/

namespace Decompiler

open Output (hex)

/-- `{:0width$x}` -/
def hexPadded (width n : ℕ) : List Char := (Nat.toDigits 16 n).leftpad width '0'

/-- `{:+}` of a signed number -/
def signedText (n : Int32) : String :=
  if 0 ≤ n.toInt then "+" ++ toString n.toInt else toString n.toInt

namespace AddressSpace

def display : AddressSpace → String
  | .register => "register"
  | .memory => "ram"
  | .constant => "const"
  | .unique => "unique"

end AddressSpace

/-- A varnode with a name is displayed by it. -/
def Varnode.display (v : Varnode) : String :=
  match v.name, v.space with
  | some name, _ => name ++ ":" ++ toString v.size.toNat
  | none, .constant => "0x" ++ hex v.offset ++ ":" ++ toString v.size.toNat
  | none, space => space.display ++ "[0x" ++ hex v.offset ++ "]:" ++ toString v.size.toNat

def BranchTarget.display : BranchTarget → String
  | .absolute addr => "0x" ++ hex addr
  | .indirect => "<indirect>"

def binaryDisplay (dest : Varnode) (opcode : String) (lhs rhs : Varnode) : String :=
  dest.display ++ " = " ++ opcode ++ " " ++ lhs.display ++ ", " ++ rhs.display

def Instruction.display : Instruction → String
  | .copy dest src => dest.display ++ " = COPY " ++ src.display
  | .load dest addr => dest.display ++ " = LOAD [" ++ addr.display ++ "]"
  | .store addr src => "[" ++ addr.display ++ "] = STORE " ++ src.display
  | .intAdd dest lhs rhs => binaryDisplay dest "INT_ADD" lhs rhs
  | .intSub dest lhs rhs => binaryDisplay dest "INT_SUB" lhs rhs
  | .intEqual dest lhs rhs => binaryDisplay dest "INT_EQUAL" lhs rhs
  | .intNotEqual dest lhs rhs => binaryDisplay dest "INT_NOTEQUAL" lhs rhs
  | .intSless dest lhs rhs => binaryDisplay dest "INT_SLESS" lhs rhs
  | .intSlessEqual dest lhs rhs => binaryDisplay dest "INT_SLESSEQUAL" lhs rhs
  | .branch target => "BRANCH " ++ target.display
  | .cbranch condition target => "CBRANCH " ++ target.display ++ ", " ++ condition.display
  | .call target => "CALL " ++ target.display
  | .ret => "RETURN"
  | .nop => "NOP"
  | .phi dest srcs =>
    dest.display ++ " = PHI(" ++ ", ".intercalate (srcs.map Varnode.display) ++ ")"

def DecodeError.display : DecodeError → String
  | .unexpectedEnd => "unexpected end of input while decoding"
  | .invalidOrUnsupported byte =>
    "invalid or unsupported opcode byte 0x" ++ String.ofList (hexPadded 2 byte.toNat)
  | .unsupportedAddressingMode modrm =>
    "unsupported ModRM addressing mode (modrm=0x" ++ String.ofList (hexPadded 2 modrm.toNat) ++ ")"

def mnemonic (name first second : String) : String := name ++ " " ++ first ++ ", " ++ second

namespace X86

def X86Instruction.display : X86Instruction → String
  | .movRegReg dst src => mnemonic "mov" dst.name src.name
  | .movRegImm dst imm => mnemonic "mov" dst.name (toString imm.toInt)
  | .addRegReg dst src => mnemonic "add" dst.name src.name
  | .addRegImm dst imm => mnemonic "add" dst.name (toString imm.toInt)
  | .cmpRegReg lhs rhs => mnemonic "cmp" lhs.name rhs.name
  | .cmpRegImm lhs imm => mnemonic "cmp" lhs.name (toString imm.toInt)
  | .jmp rel => "jmp " ++ signedText rel
  | .je rel => "je " ++ signedText rel
  | .jne rel => "jne " ++ signedText rel
  | .call rel => "call " ++ signedText rel
  | .ret => "ret"

end X86

namespace Arm

def ArmInstruction.display : ArmInstruction → String
  | .movRegImm dst imm => mnemonic "MOV" dst.display ("#" ++ toString imm.toNat)
  | .addRegReg dst src1 src2 =>
    mnemonic "ADD" dst.display (src1.display ++ ", " ++ src2.display)
  | .addRegImm dst src imm =>
    mnemonic "ADD" dst.display (src.display ++ ", #" ++ toString imm.toNat)
  | .cmpRegReg lhs rhs => mnemonic "CMP" lhs.display rhs.display
  | .cmpRegImm lhs imm => mnemonic "CMP" lhs.display ("#" ++ toString imm.toNat)
  | .b rel => "B " ++ signedText rel
  | .bl rel => "BL " ++ signedText rel
  | .beq rel => "B.EQ " ++ signedText rel
  | .bne rel => "B.NE " ++ signedText rel
  | .ret => "RET"

end Arm

end Decompiler
