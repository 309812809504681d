import Decompiler.ConstProp.Lattice

/-! # Constant propagation

The transfer function of the analysis and the rewriting that uses its result:
operands known to be constant are replaced by literals, and an operation whose
operands are both known is folded to a copy.
-/

namespace Decompiler.ConstProp

open Dataflow

/-- `size as u32 * 8` -/
def bits (size : UInt8) : ℕ := size.toNat * 8

def mask (value : UInt64) (size : UInt8) : UInt64 :=
  if bits size = 0 ∨ 64 ≤ bits size then value
  else value &&& ((1 <<< UInt64.ofNat (bits size)) - 1)

def signed (value : UInt64) (size : UInt8) : Int64 :=
  if bits size = 0 ∨ 64 ≤ bits size then value.toInt64
  else
    let x := value &&& ((1 <<< UInt64.ofNat (bits size)) - 1)
    let signBit : UInt64 := 1 <<< UInt64.ofNat (bits size - 1)
    if x &&& signBit ≠ 0 then x.toInt64 - 1 <<< Int64.ofNat (bits size) else x.toInt64

def evalBinop (a b : ConstValue) (f : UInt64 → UInt64 → UInt64) : ConstValue :=
  match a, b with
  | .const x, .const y => .const (f x y)
  | .notConstant, _ | _, .notConstant => .notConstant
  | _, _ => .top

/-- `condition as u64` -/
def boolWord (condition : Bool) : UInt64 := if condition then 1 else 0

/-! The closure that each operation with two operands is evaluated by. -/

def addWord (dest : Varnode) (a b : UInt64) : UInt64 := mask (a + b) dest.size
def subWord (dest : Varnode) (a b : UInt64) : UInt64 := mask (a - b) dest.size
def equalWord (lhs : Varnode) (a b : UInt64) : UInt64 :=
  boolWord (mask a lhs.size == mask b lhs.size)
def notEqualWord (lhs : Varnode) (a b : UInt64) : UInt64 :=
  boolWord (mask a lhs.size != mask b lhs.size)
def slessWord (lhs : Varnode) (a b : UInt64) : UInt64 :=
  boolWord (signed a lhs.size < signed b lhs.size)
def slessEqualWord (lhs : Varnode) (a b : UInt64) : UInt64 :=
  boolWord (signed a lhs.size ≤ signed b lhs.size)

def transferBinop (dest lhs rhs : Varnode) (f : UInt64 → UInt64 → UInt64) (state : ConstState) :
    ConstState :=
  state.set dest.location (evalBinop (state.get lhs.location) (state.get rhs.location) f)

def transferInstruction (op : Instruction) (state : ConstState) : ConstState :=
  match op with
  | .copy dest src => state.set dest.location (state.get src.location)
  | .intAdd dest lhs rhs => transferBinop dest lhs rhs (addWord dest) state
  | .intSub dest lhs rhs => transferBinop dest lhs rhs (subWord dest) state
  | .intEqual dest lhs rhs => transferBinop dest lhs rhs (equalWord lhs) state
  | .intNotEqual dest lhs rhs => transferBinop dest lhs rhs (notEqualWord lhs) state
  | .intSless dest lhs rhs => transferBinop dest lhs rhs (slessWord lhs) state
  | .intSlessEqual dest lhs rhs => transferBinop dest lhs rhs (slessEqualWord lhs) state
  | .load dest _ => state.set dest.location .notConstant
  | .phi dest srcs =>
    state.set dest.location
      (srcs.foldl (fun acc src => acc.merge (state.get src.location)) .top)
  | .store _ _ | .branch _ | .cbranch _ _ | .call _ | .ret | .nop => state

def constantPropagation : TransferFunction ConstState := ⟨transferInstruction⟩

def substitute (vn : Varnode) (state : ConstState) : Varnode :=
  match state.get vn.location with
  | .const v => if vn.space ≠ .constant then .constant v vn.size else vn
  | _ => vn

def foldOrKeep (dest lhs rhs : Varnode) (state : ConstState) (f : UInt64 → UInt64 → UInt64) :
    Option Instruction :=
  match state.get lhs.location, state.get rhs.location with
  | .const a, .const b => some (.copy dest (.constant (f a b) dest.size))
  | _, _ => none

def foldBinop (op : Varnode → Varnode → Varnode → Instruction) (dest lhs rhs : Varnode)
    (state : ConstState) (f : UInt64 → UInt64 → UInt64) : Instruction :=
  (foldOrKeep dest lhs rhs state f).getD (op dest (substitute lhs state) (substitute rhs state))

def substituteAndFold (op : Instruction) (state : ConstState) : Instruction :=
  match op with
  | .copy dest src => .copy dest (substitute src state)
  | .load dest addr => .load dest (substitute addr state)
  | .store addr src => .store (substitute addr state) (substitute src state)
  | .intAdd dest lhs rhs => foldBinop .intAdd dest lhs rhs state (addWord dest)
  | .intSub dest lhs rhs => foldBinop .intSub dest lhs rhs state (subWord dest)
  | .intEqual dest lhs rhs => foldBinop .intEqual dest lhs rhs state (equalWord lhs)
  | .intNotEqual dest lhs rhs => foldBinop .intNotEqual dest lhs rhs state (notEqualWord lhs)
  | .intSless dest lhs rhs => foldBinop .intSless dest lhs rhs state (slessWord lhs)
  | .intSlessEqual dest lhs rhs => foldBinop .intSlessEqual dest lhs rhs state (slessEqualWord lhs)
  | .branch target => .branch target
  | .cbranch condition target => .cbranch (substitute condition state) target
  | .call target => .call target
  | .ret => .ret
  | .nop => .nop
  | .phi dest srcs => .phi dest (srcs.map (substitute · state))

/-- Rewrites operations in order, advancing the state over the original ones. -/
def rewriteOps : List Instruction → ConstState → List Instruction
  | [], _ => []
  | op :: ops, state => substituteAndFold op state :: rewriteOps ops (transferInstruction op state)

def rewriteInstructions : List LiftedInstruction → ConstState → List LiftedInstruction
  | [], _ => []
  | li :: lis, state =>
    { li with ops := rewriteOps li.ops state } ::
      rewriteInstructions lis (li.ops.foldl (fun state op => transferInstruction op state) state)

def rewrite (f : Function) (result : DataflowResult ConstState) : Function :=
  { f with blocks := f.blocks.map fun block =>
      let state := (result.blockIn block.startAddress).getD Dataflow.Lattice.top
      { block with instructions := rewriteInstructions block.instructions state } }

def assigned (f : Function) : Finset Location :=
  ((f.blocks.flatMap BasicBlock.ops).filterMap
    fun op => op.opDest.map Varnode.location).toFinset

/-- A bound on the iterations of the solver: every OUT state can descend three
times at each assigned location, and each descent queues the successors. -/
def solveFuel (f : Function) : ℕ :=
  f.blocks.length + 3 * (assigned f).card * (f.blocks.flatMap BasicBlock.successors).length + 1

def run (f : Function) : Except Fault Function := do
  let result ← solveForward (solveFuel f) f constantPropagation
  return rewrite f result

end Decompiler.ConstProp
