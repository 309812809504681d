import Mathlib.Data.Finmap
import Decompiler.Core.Fault
import Decompiler.Ir.Instruction

/-! # Functions, basic blocks and syntax trees

The structures that flow through the pipeline. A function carries its blocks,
the inferred types, the recovered syntax tree and a derived index from start
addresses to positions in the block list.
-/

namespace Decompiler

structure LiftedInstruction where
  address : Address
  ops : List Instruction
  deriving DecidableEq, Repr

structure BasicBlock where
  startAddress : Address
  instructions : List LiftedInstruction
  successors : List Address
  predecessors : List Address
  deriving DecidableEq, Repr

namespace BasicBlock

def new (startAddress : Address) : BasicBlock := ⟨startAddress, [], [], []⟩

def push (b : BasicBlock) (address : Address) (ops : List Instruction) : BasicBlock :=
  { b with instructions := b.instructions ++ [⟨address, ops⟩] }

def lastInstruction (b : BasicBlock) : Option LiftedInstruction := b.instructions.getLast?

def ops (b : BasicBlock) : List Instruction := b.instructions.flatMap LiftedInstruction.ops

end BasicBlock

inductive DataType where
  | primitive (size : UInt8) (signed : Bool)
  | pointer (inner : DataType)
  | array (inner : DataType) (len : UInt64)
  deriving DecidableEq, Repr

inductive HighLevelAst where
  | block (startAddress : Address) (instructions : List Instruction)
  | seq (nodes : List HighLevelAst)
  | ifElse (cond : Varnode) (thenBody : HighLevelAst) (elseBody : Option HighLevelAst)
  | whileDo (cond : Varnode) (body : HighLevelAst)
  | goto (target : Address)
  | label (address : Address)
  | ret
  deriving Repr

structure Function where
  name : String
  entry : Address
  blocks : List BasicBlock
  types : Finmap fun _ : Location => DataType
  ast : Option HighLevelAst
  blockIndex : Finmap fun _ : Address => ℕ

namespace Function

def new (name : String) (entry : Address) : Function := ⟨name, entry, [], ∅, none, ∅⟩

/-- Collects into the index in block order, so that a later block wins. -/
def rebuildIndex (f : Function) : Function :=
  { f with blockIndex :=
      f.blocks.zipIdx.foldl (fun m p => m.insert p.1.startAddress p.2) ∅ }

/-- Looks the address up in the index, or scans the blocks if there is no index. -/
def blockAt (f : Function) (address : Address) : Except Fault (Option BasicBlock) :=
  if f.blockIndex.keys = ∅ then
    .ok (f.blocks.find? (·.startAddress == address))
  else
    match f.blockIndex.lookup address with
    | some i => (index f.blocks i).map some
    | none => .ok none

/-- A mutable borrow of the block at a position: the block, and the function after another
one has been written in its place. -/
def borrowBlock (f : Function) (i : ℕ) : Except Fault (BasicBlock × (BasicBlock → Function)) :=
  (index f.blocks i).map fun b => (b, fun b' => { f with blocks := f.blocks.set i b' })

def blockAtMut (f : Function) (address : Address) :
    Except Fault (Option (BasicBlock × (BasicBlock → Function))) :=
  if f.blockIndex.keys = ∅ then
    match f.blocks.findIdx? (·.startAddress == address) with
    | some i => (f.borrowBlock i).map some
    | none => .ok none
  else
    match f.blockIndex.lookup address with
    | some i => (f.borrowBlock i).map some
    | none => .ok none

end Function

end Decompiler
