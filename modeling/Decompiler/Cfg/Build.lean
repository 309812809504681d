import Mathlib.Data.List.Sort
import Decompiler.Core.Types

/-! # Construction of the control flow graph

The three phases of the construction: find the leaders of the flat instruction
stream, split the stream at them, and connect the resulting blocks by the
terminators of their last instructions.
-/

namespace Decompiler.Cfg

/-- The effect of one operation on the leaders and on `is_terminator`. -/
def scanLeader (s : Finset Address × Bool) : Instruction → Finset Address × Bool
  | .branch (.absolute address) | .cbranch _ (.absolute address) => (insert address s.1, true)
  | .branch .indirect | .cbranch _ .indirect | .ret => (s.1, true)
  | _ => s

def leaderLoop : List LiftedInstruction → Finset Address → Finset Address
  | [], leaders => leaders
  | li :: rest, leaders =>
    let scanned := li.ops.foldl scanLeader (leaders, false)
    match scanned.2, rest.head? with
    | true, some next => leaderLoop rest (insert next.address scanned.1)
    | _, _ => leaderLoop rest scanned.1

def findLeaders (flat : List LiftedInstruction) (entry : Address) :
    Except Fault (Finset Address) := do
  let first ← index flat 0
  return leaderLoop flat (insert first.address {entry})

/-- `blocks.last_mut().unwrap().instructions.push(li)` -/
def pushLast (blocks : List BasicBlock) (li : LiftedInstruction) :
    Except Fault (List BasicBlock) := do
  let last ← unwrap blocks.getLast?
  return blocks.dropLast ++ [last.push li.address li.ops]

def splitStep (leaders : Finset Address) (blocks : List BasicBlock) (li : LiftedInstruction) :
    Except Fault (List BasicBlock) :=
  if li.address ∈ leaders ∨ blocks = [] then pushLast (blocks ++ [.new li.address]) li
  else pushLast blocks li

def splitAtLeaders (flat : List LiftedInstruction) (leaders : Finset Address) :
    Except Fault (List BasicBlock) :=
  flat.foldlM (splitStep leaders) []

/-- `Vec::dedup`: drops an element equal to the one before it. -/
def dedup : List Address → List Address
  | a :: b :: l => if a = b then dedup (b :: l) else a :: dedup (b :: l)
  | l => l

def sortDedup (l : List Address) : List Address := dedup (l.insertionSort (· ≤ ·))

def pushKnown (knownStarts : Finset Address) (target : BranchTarget) (succs : List Address) :
    List Address :=
  match target with
  | .absolute address => if address ∈ knownStarts then succs ++ [address] else succs
  | .indirect => succs

/-- The effect of one operation of the last instruction on `succs` and `saw_terminator`. -/
def scanEdge (knownStarts : Finset Address) (fallthrough : Option Address)
    (s : List Address × Bool) : Instruction → List Address × Bool
  | .branch target => (pushKnown knownStarts target s.1, true)
  | .cbranch _ target => (pushKnown knownStarts target s.1 ++ fallthrough.toList, true)
  | .ret => (s.1, true)
  | _ => s

/-- The sorted successors of one block, given the start of the block after it. -/
def blockSuccessors (knownStarts : Finset Address) (fallthrough : Option Address)
    (block : BasicBlock) : List Address :=
  let ops := (block.lastInstruction.map LiftedInstruction.ops).getD []
  let (succs, sawTerminator) := ops.foldl (scanEdge knownStarts fallthrough) ([], false)
  sortDedup (if sawTerminator then succs else succs ++ fallthrough.toList)

def nextStarts (blocks : List BasicBlock) : List (Option Address) :=
  (List.range blocks.length).map fun i => blocks[i + 1]?.map BasicBlock.startAddress

def allSuccessors (blocks : List BasicBlock) : Except Fault (List (List Address)) :=
  let knownStarts := (blocks.map BasicBlock.startAddress).toFinset
  blocks.zipIdx.mapM fun (block, i) => do
    return blockSuccessors knownStarts (← index (nextStarts blocks) i) block

def pushPred (preds : List (List Address)) (j : ℕ) (source : Address) :
    Except Fault (List (List Address)) := do
  let old ← index preds j
  return preds.set j (old ++ [source])

def startToIndex (blocks : List BasicBlock) : Finmap fun _ : Address => ℕ :=
  blocks.zipIdx.foldl (fun m p => m.insert p.1.startAddress p.2) ∅

def addPreds (blocks : List BasicBlock) (preds : List (List Address))
    (entry : List Address × ℕ) : Except Fault (List (List Address)) := do
  let source ← index blocks entry.2
  entry.1.foldlM (fun preds succ =>
    match (startToIndex blocks).lookup succ with
    | some j => pushPred preds j source.startAddress
    | none => .ok preds) preds

def allPredecessors (blocks : List BasicBlock) (successors : List (List Address)) :
    Except Fault (List (List Address)) :=
  successors.zipIdx.foldlM (addPreds blocks) (List.replicate blocks.length [])

def connectEdges (blocks : List BasicBlock) : Except Fault (List BasicBlock) := do
  let successors ← allSuccessors blocks
  let blocks := blocks.zipWith (fun b succs => { b with successors := succs }) successors
  let preds ← allPredecessors blocks successors
  return blocks.zipWith (fun b p => { b with predecessors := sortDedup p }) preds

/-- Rebuilds the blocks of a function from its flat instruction stream. With an
empty stream it returns early, after the blocks have been drained. -/
def build (f : Function) : Except Fault Function := do
  let flat := f.blocks.flatMap BasicBlock.instructions
  if flat = [] then return { f with blocks := [] }
  let leaders ← findLeaders flat f.entry
  let blocks ← splitAtLeaders flat leaders
  let blocks ← connectEdges blocks
  return { f with blocks := blocks }.rebuildIndex

end Decompiler.Cfg
