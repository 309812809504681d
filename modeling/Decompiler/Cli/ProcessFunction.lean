import Decompiler.X86.Lifter
import Decompiler.Arm.Lifter

/-! # Decoding and lifting a byte string

The decode loop walks the bytes from the front, lifts each decoded instruction and
stops after a return, at a decode error or at the end of the bytes.
-/

namespace Decompiler

variable {I : Type}

/-- The loop of `process_function`; `fuel` bounds its number of iterations. -/
def decodeLoop (backend : Backend I) (bytes : List UInt8) (base : Address) :
    ℕ → ℕ → TempAllocator → BasicBlock → Except Fault BasicBlock
  | 0, _, _, _ => .error .outOfFuel
  | fuel + 1, offset, temps, block => do
    if bytes.length ≤ offset then return block
    let address ← addU64 base offset
    let remaining := bytes.drop offset
    match backend.disassembleOne remaining address with
    | .error _ => return block
    | .ok result =>
      -- the printed slice `remaining[..result.length]`
      if remaining.length < result.length then throw .outOfBounds
      let (ops, temps) ← backend.lift result.instruction address result.length temps
      let block := block.push address ops
      if .ret ∈ ops then return block
      decodeLoop backend bytes base fuel (offset + result.length) temps block

def processFunction (backend : Backend I) (name : String) (bytes : List UInt8)
    (base : Address) : Except Fault Function := do
  let block ← decodeLoop backend bytes base (bytes.length + 1) 0 .new (.new base)
  return { Function.new name base with blocks := [block] }

/-- The values of `--arch`; whatever is not `arm` is x86. -/
inductive Arch where
  | x86
  | arm
  deriving DecidableEq, Repr

def Arch.processFunction : Arch → String → List UInt8 → Address → Except Fault Function
  | .x86 => Decompiler.processFunction X86.backend
  | .arm => Decompiler.processFunction Arm.backend

end Decompiler
