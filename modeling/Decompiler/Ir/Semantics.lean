import Mathlib.Logic.Function.Basic
import Mathlib.Algebra.Group.Nat.Defs
import Mathlib.Data.Nat.Notation
import Mathlib.Tactic.Common
import Decompiler.Ir.Instruction

/-! # Meaning of the operations

Each space, offset and size is one cell that holds a value below two to the number
of its bits. Memory is a map from addresses to bytes, and the stores performed are
logged. What a callee does to the state is a parameter.
-/

namespace Decompiler

structure State where
  cells : Location → ℕ
  memory : ℕ → UInt8
  /-- address, value and size of the stores so far, the latest first -/
  stores : List (ℕ × ℕ × UInt8)

/-- `n` bytes from `addr` on, little-endian -/
def readMemory (memory : ℕ → UInt8) (addr : ℕ) : ℕ → ℕ
  | 0 => 0
  | n + 1 => (memory addr).toNat + 2 ^ 8 * readMemory memory (addr + 1) n

def writeMemory (memory : ℕ → UInt8) (addr value : ℕ) : ℕ → ℕ → UInt8
  | 0 => memory
  | n + 1 => Function.update (writeMemory memory (addr + 1) (value / 2 ^ 8) n) addr (.ofNat value)

def modulus (size : UInt8) : ℕ := 2 ^ (8 * size.toNat)

theorem modulus_pos (size : UInt8) : 0 < modulus size := Nat.pow_pos (by decide)

/-- The two's complement reading of a value of a size. -/
def toSigned (value : ℕ) (size : UInt8) : ℤ := (BitVec.ofNat (8 * size.toNat) value).toInt

namespace State

variable (σ : State)

def read (v : Varnode) : ℕ := if v.space = .constant then v.offset.toNat else σ.cells v.location

def write (dest : Varnode) (value : ℕ) : State :=
  { σ with cells := Function.update σ.cells dest.location (value % modulus dest.size) }

def store (addr value : ℕ) (size : UInt8) : State :=
  { σ with memory := writeMemory σ.memory addr value size.toNat
           stores := (addr, value, size) :: σ.stores }

end State

inductive Control where
  | fall
  | jump (target : BranchTarget)
  | stop
  deriving DecidableEq

namespace Instruction

def control (σ : State) : Instruction → Control
  | .branch target => .jump target
  | .cbranch condition target => if σ.read condition ≠ 0 then .jump target else .fall
  | .ret => .stop
  | _ => .fall

/-- The state after an operation. A φ-node has no meaning without the edge that its
block was entered by. -/
def exec (callee : BranchTarget → State → State) (op : Instruction) (σ : State) : Option State :=
  match op with
  | .copy dest src => some (σ.write dest (σ.read src))
  | .load dest addr => some (σ.write dest (readMemory σ.memory (σ.read addr) dest.size.toNat))
  | .store addr src => some (σ.store (σ.read addr) (σ.read src) src.size)
  | .intAdd dest lhs rhs => some (σ.write dest (σ.read lhs + σ.read rhs))
  | .intSub dest lhs rhs =>
    some (σ.write dest (σ.read lhs + modulus dest.size - σ.read rhs % modulus dest.size))
  | .intEqual dest lhs rhs => some (σ.write dest (if σ.read lhs = σ.read rhs then 1 else 0))
  | .intNotEqual dest lhs rhs => some (σ.write dest (if σ.read lhs ≠ σ.read rhs then 1 else 0))
  | .intSless dest lhs rhs =>
    some (σ.write dest
      (if toSigned (σ.read lhs) lhs.size < toSigned (σ.read rhs) lhs.size then 1 else 0))
  | .intSlessEqual dest lhs rhs =>
    some (σ.write dest
      (if toSigned (σ.read lhs) lhs.size ≤ toSigned (σ.read rhs) lhs.size then 1 else 0))
  | .call target => some (callee target σ)
  | .branch _ | .cbranch _ _ | .ret | .nop => some σ
  | .phi _ _ => none

def operands : Instruction → List Varnode
  | .copy _ src => [src]
  | .load _ addr => [addr]
  | .store addr src => [addr, src]
  | .intAdd _ lhs rhs | .intSub _ lhs rhs | .intEqual _ lhs rhs | .intNotEqual _ lhs rhs
  | .intSless _ lhs rhs | .intSlessEqual _ lhs rhs => [lhs, rhs]
  | .cbranch condition _ => [condition]
  | .phi _ srcs => srcs
  | .branch _ | .call _ | .ret | .nop => []

def isCall : Instruction → Bool
  | .call _ => true
  | _ => false

end Instruction

/-- A size of one to eight bytes, which a literal fits. -/
def Varnode.Sized (v : Varnode) : Prop :=
  1 ≤ v.size.toNat ∧ v.size.toNat ≤ 8 ∧ (v.space = .constant → v.offset.toNat < modulus v.size)

/-- Destinations are not literals, and the sizes of operands and results agree. -/
def Instruction.WellFormed : Instruction → Prop
  | .copy dest src => dest.space ≠ .constant ∧ src.Sized ∧ dest.size = src.size
  | .load dest addr => dest.space ≠ .constant ∧ dest.Sized ∧ addr.Sized
  | .store addr src => addr.Sized ∧ src.Sized
  | .intAdd dest lhs rhs | .intSub dest lhs rhs =>
    dest.space ≠ .constant ∧ lhs.Sized ∧ rhs.Sized ∧ rhs.size = lhs.size ∧ dest.size = lhs.size
  | .intEqual dest lhs rhs | .intNotEqual dest lhs rhs | .intSless dest lhs rhs
  | .intSlessEqual dest lhs rhs =>
    dest.space ≠ .constant ∧ dest.Sized ∧ lhs.Sized ∧ rhs.Sized ∧ rhs.size = lhs.size
  | .cbranch condition _ => condition.Sized
  | .phi _ _ => False
  | .branch _ | .call _ | .ret | .nop => True

def State.Bounded (σ : State) : Prop := ∀ l, σ.cells l < modulus l.size

def State.zero : State := ⟨fun _ => 0, fun _ => 0, []⟩

theorem State.bounded_zero : State.zero.Bounded := fun l => modulus_pos l.size

namespace State.Bounded

variable {σ : State} (h : σ.Bounded)

include h

theorem read_lt {v : Varnode} (hv : v.Sized) : σ.read v < modulus v.size := by
  unfold State.read
  split
  case isTrue hc => exact hv.2.2 hc
  case isFalse => exact h v.location

theorem write (dest : Varnode) (value : ℕ) : (σ.write dest value).Bounded := by
  intro l
  by_cases hl : l = dest.location
  · subst hl
    simpa [State.write] using Nat.mod_lt value (modulus_pos _)
  · simpa [State.write, hl] using h l

theorem exec {callee : BranchTarget → State → State} {op : Instruction}
    (hcallee : ∀ target, op = .call target → (callee target σ).Bounded) {σ' : State}
    (hs : op.exec callee σ = some σ') : σ'.Bounded := by
  cases op with
  | call target => exact Option.some.inj hs ▸ hcallee target rfl
  | phi dest srcs => cases hs
  | store addr src => exact Option.some.inj hs ▸ h
  | branch target => exact Option.some.inj hs ▸ h
  | cbranch condition target => exact Option.some.inj hs ▸ h
  | ret => exact Option.some.inj hs ▸ h
  | nop => exact Option.some.inj hs ▸ h
  | _ => exact Option.some.inj hs ▸ h.write _ _

end State.Bounded

namespace State

variable (σ : State)

theorem read_literal {v : Varnode} (hv : v.space = .constant) : σ.read v = v.offset.toNat := by
  rw [read, if_pos hv]

theorem read_write_self {dest : Varnode} (hd : dest.space ≠ .constant) (value : ℕ) :
    (σ.write dest value).read dest = value % modulus dest.size := by
  simp [read, write, hd]

theorem cells_write_of_ne {dest : Varnode} {l : Location} (hl : l ≠ dest.location) (value : ℕ) :
    (σ.write dest value).cells l = σ.cells l := by
  simp [write, hl]

theorem read_write_of_ne {v dest : Varnode} (h : v.location ≠ dest.location) (value : ℕ) :
    (σ.write dest value).read v = σ.read v := by
  rw [read, read, cells_write_of_ne σ h]

end State

namespace Instruction

variable {callee : BranchTarget → State → State} {op : Instruction} {σ σ' : State}

theorem WellFormed.dest_ne_constant (h : op.WellFormed) {dest : Varnode}
    (hdest : op.opDest = some dest) : dest.space ≠ .constant := by
  cases op with
  | phi d srcs => exact absurd h id
  | store | branch | cbranch | call | ret | nop => cases hdest
  | _ => exact Option.some.inj hdest ▸ h.1

theorem WellFormed.exists_exec (h : op.WellFormed) (callee : BranchTarget → State → State)
    (σ : State) : ∃ σ', op.exec callee σ = some σ' := by
  cases op with
  | phi dest srcs => exact absurd h id
  | _ => exact ⟨_, rfl⟩

theorem exec_eq_write {dest : Varnode} (hdest : op.opDest = some dest)
    (h : op.exec callee σ = some σ') : ∃ value, σ' = σ.write dest value := by
  cases op with
  | phi d srcs => cases h
  | store | branch | cbranch | call | ret | nop => cases hdest
  | _ =>
    obtain rfl := Option.some.inj hdest
    exact ⟨_, (Option.some.inj h).symm⟩

theorem cells_exec (hdest : op.opDest = none) (hcall : ∀ target, op ≠ .call target)
    (h : op.exec callee σ = some σ') : σ'.cells = σ.cells := by
  cases op with
  | call target => exact absurd rfl (hcall target)
  | store addr src => rw [← Option.some.inj h]; rfl
  | branch | cbranch | ret | nop => rw [← Option.some.inj h]
  | _ => cases hdest

end Instruction

/-- Executes operations in order up to the first that leaves them. -/
def execOps (callee : BranchTarget → State → State) :
    List Instruction → State → Option (State × Control)
  | [], σ => some (σ, .fall)
  | op :: ops, σ =>
    match op.control σ with
    | .fall => (op.exec callee σ).bind (execOps callee ops)
    | .jump target => some (σ, .jump target)
    | .stop => some (σ, .stop)

end Decompiler
