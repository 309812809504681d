import Decompiler.Ir.Varnode

/-! # Instructions of the intermediate representation

One constructor for each p-code operation. Relative displacements are already
resolved: a branch target is an absolute address or an unresolved indirect one.
-/

namespace Decompiler

inductive BranchTarget where
  | absolute (address : Address)
  | indirect
  deriving DecidableEq, Repr

def BranchTarget.address? : BranchTarget → Option Address
  | .absolute address => some address
  | .indirect => none

inductive Instruction where
  | copy (dest src : Varnode)
  | load (dest addr : Varnode)
  | store (addr src : Varnode)
  | intAdd (dest lhs rhs : Varnode)
  | intSub (dest lhs rhs : Varnode)
  | intEqual (dest lhs rhs : Varnode)
  | intNotEqual (dest lhs rhs : Varnode)
  | intSless (dest lhs rhs : Varnode)
  | intSlessEqual (dest lhs rhs : Varnode)
  | branch (target : BranchTarget)
  | cbranch (condition : Varnode) (target : BranchTarget)
  | call (target : BranchTarget)
  | ret
  | nop
  | phi (dest : Varnode) (srcs : List Varnode)
  deriving DecidableEq, Repr

namespace Instruction

/-- The operations that end a basic block; `call` is not one of them. -/
def isTerminator : Instruction → Bool
  | .branch _ | .cbranch _ _ | .ret => true
  | _ => false

def isAbsolute : Instruction → Bool
  | .branch .indirect | .cbranch _ .indirect => false
  | _ => true

/-- `op_dest`: the varnode an operation assigns. -/
def opDest : Instruction → Option Varnode
  | .copy dest _ | .load dest _ | .intAdd dest _ _ | .intSub dest _ _ | .intEqual dest _ _
  | .intNotEqual dest _ _ | .intSless dest _ _ | .intSlessEqual dest _ _ | .phi dest _ => some dest
  | .store _ _ | .branch _ | .cbranch _ _ | .call _ | .ret | .nop => none

end Instruction

end Decompiler
