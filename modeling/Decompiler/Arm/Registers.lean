import Decompiler.Core.Traits

/-! # The registers of the mock ARM architecture

The source enumerates `X0` to `X31`; the enumeration is represented by its
discriminant.
-/

namespace Decompiler.Arm

structure Reg64 where
  number : Fin 32
  deriving DecidableEq, Repr

namespace Reg64

def fromBits (bits : UInt8) : Except UInt8 Reg64 :=
  if h : bits.toNat < 32 then .ok ⟨bits.toNat, h⟩ else .error bits

def display (r : Reg64) : String :=
  if r.number = 30 then "LR" else if r.number = 31 then "SP" else s!"X{r.number.val}"

end Reg64

end Decompiler.Arm
