import Mathlib.Data.Finset.Basic
import Mathlib.Logic.Function.Basic
import Decompiler.Core.Types

/-! # The forward dataflow solver

Maps from block addresses are functions into `Option`. The worklist is the queue
of the source together with its set of queued addresses.
-/

namespace Decompiler.Dataflow

/-- The operations of a `Lattice`; its laws are stated apart. -/
class Lattice (S : Type*) where
  top : S
  merge : S → S → S

structure TransferFunction (S : Type*) where
  transferInstruction : Instruction → S → S

structure DataflowResult (S : Type*) where
  blockIn : Address → Option S
  blockOut : Address → Option S

structure SolverState (S : Type*) extends DataflowResult S where
  queue : List Address
  queued : Finset Address

variable {S : Type*}

/-- Collects the blocks into a map, so that a later block wins. -/
def blockByAddr (f : Function) : Address → Option BasicBlock :=
  f.blocks.foldl (fun m b => Function.update m b.startAddress (some b)) fun _ => none

section

variable [Lattice S]

def mergePredecessorStates (block : BasicBlock) (blockOut : Address → Option S) : S :=
  if block.predecessors = [] then Lattice.top
  else
    let acc := block.predecessors.foldl (fun acc pred =>
      let predOut := (blockOut pred).getD Lattice.top
      some (match acc with
        | none => predOut
        | some a => Lattice.merge a predOut)) none
    acc.getD Lattice.top

end

def transferBlock (block : BasicBlock) (inState : S) (transfer : TransferFunction S) : S :=
  block.instructions.foldl (fun state li =>
    li.ops.foldl (fun state op => transfer.transferInstruction op state) state) inState

/-- `if queued.insert(*succ) { queue.push_back(*succ) }` -/
def enqueue (q : List Address × Finset Address) (succ : Address) :
    List Address × Finset Address :=
  if succ ∈ q.2 then q else (q.1 ++ [succ], insert succ q.2)

variable [Lattice S] [DecidableEq S]

def solveStep (f : Function) (transfer : TransferFunction S) (st : SolverState S) :
    Option (SolverState S) :=
  match st.queue with
  | [] => none
  | addr :: queue =>
    let queued := st.queued.erase addr
    match blockByAddr f addr with
    | none => some { st with queue := queue, queued := queued }
    | some block =>
      let inState := mergePredecessorStates block st.blockOut
      let blockIn := Function.update st.blockIn addr (some inState)
      let outState := transferBlock block inState transfer
      if st.blockOut addr = some outState then
        some { st with blockIn := blockIn, queue := queue, queued := queued }
      else
        let q := block.successors.foldl enqueue (queue, queued)
        some ⟨⟨blockIn, Function.update st.blockOut addr (some outState)⟩, q.1, q.2⟩

def solveInit (f : Function) : SolverState S where
  blockIn _ := none
  blockOut addr := if addr ∈ f.blocks.map BasicBlock.startAddress then some Lattice.top else none
  queue := f.blocks.map BasicBlock.startAddress
  queued := (f.blocks.map BasicBlock.startAddress).toFinset

/-- The worklist loop; `fuel` bounds its number of iterations. -/
def solveLoop (f : Function) (transfer : TransferFunction S) :
    ℕ → SolverState S → Except Fault (DataflowResult S)
  | 0, _ => .error .outOfFuel
  | fuel + 1, st =>
    match solveStep f transfer st with
    | none => .ok st.toDataflowResult
    | some st => solveLoop f transfer fuel st

def solveForward (fuel : ℕ) (f : Function) (transfer : TransferFunction S) :
    Except Fault (DataflowResult S) :=
  solveLoop f transfer fuel (solveInit f)

end Decompiler.Dataflow
