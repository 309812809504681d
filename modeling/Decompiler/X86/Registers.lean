import Decompiler.Core.Traits

/-! # The eight 32-bit registers and the ModRM byte -/

namespace Decompiler.X86

inductive Reg32 where
  | eax | ecx | edx | ebx | esp | ebp | esi | edi
  deriving DecidableEq, Repr

namespace Reg32

def fromBits (bits : UInt8) : Reg32 :=
  match (bits &&& 0b111).toNat with
  | 0 => eax
  | 1 => ecx
  | 2 => edx
  | 3 => ebx
  | 4 => esp
  | 5 => ebp
  | 6 => esi
  | _ => edi

def id : Reg32 → UInt64
  | eax => 0
  | ecx => 1
  | edx => 2
  | ebx => 3
  | esp => 4
  | ebp => 5
  | esi => 6
  | edi => 7

def name : Reg32 → String
  | eax => "EAX"
  | ecx => "ECX"
  | edx => "EDX"
  | ebx => "EBX"
  | esp => "ESP"
  | ebp => "EBP"
  | esi => "ESI"
  | edi => "EDI"

theorem id_injective : Function.Injective id := by
  intro r s h
  cases r <;> cases s <;> first | rfl | exact absurd h (by decide)

end Reg32

structure ModRm where
  reg : Reg32
  rm : Reg32
  deriving DecidableEq, Repr

/-- Only the register-direct mode is parsed. -/
def parseModrm (byte : UInt8) : Option ModRm :=
  let md := (byte >>> 6) &&& 0b11
  let reg := (byte >>> 3) &&& 0b111
  let rm := byte &&& 0b111
  if md ≠ 0b11 then none else some ⟨.fromBits reg, .fromBits rm⟩

end Decompiler.X86
