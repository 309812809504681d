import Decompiler.Core.Types

/-! # The structurer

Back edges are found by a depth-first search. The region walker then descends the
graph from the entry, takes every block at most once and emits the syntax tree;
its visited set also records addresses at which there is no block.
-/

namespace Decompiler.Structurer

structure DfsState where
  visited : Finset Address
  inStack : Finset Address
  backEdges : Finset (Address × Address)

/-- `dfs_back_edges`; `fuel` bounds the depth of the recursion. -/
def dfsBackEdges (f : Function) : ℕ → Address → DfsState → Except Fault DfsState
  | 0, _, _ => .error .outOfFuel
  | fuel + 1, addr, st => do
    if addr ∈ st.visited then return st
    let st := { st with visited := insert addr st.visited, inStack := insert addr st.inStack }
    let st ← match ← f.blockAt addr with
      | some block => block.successors.foldlM (fun st succ =>
          if succ ∈ st.inStack then
            .ok { st with backEdges := insert (addr, succ) st.backEdges }
          else dfsBackEdges f fuel succ st) st
      | none => .ok st
    return { st with inStack := st.inStack.erase addr }

/-- `find_back_edges`; a call goes deeper only at a successor that was not visited before. -/
def findBackEdges (f : Function) : Except Fault (Finset (Address × Address)) := do
  let fuel := (f.blocks.flatMap BasicBlock.successors).length + 2
  let st ← dfsBackEdges f fuel f.entry ⟨∅, ∅, ∅⟩
  return st.backEdges

structure Scan where
  ops : List Instruction
  termCond : Option Varnode
  termTrue : Option Address
  unconditional : Option Address
  isReturn : Bool
  deriving DecidableEq

namespace Scan

def empty : Scan := ⟨[], none, none, none, false⟩

def step (s : Scan) : Instruction → Scan
  | .cbranch condition (.absolute addr) =>
    { s with termCond := some condition, termTrue := some addr }
  | .cbranch condition .indirect => { s with termCond := some condition }
  | .branch (.absolute addr) => { s with unconditional := some addr }
  | .branch .indirect => s
  | .ret => { s with isReturn := true }
  | op => { s with ops := s.ops ++ [op] }

def ofBlock (block : BasicBlock) : Scan :=
  block.instructions.foldl (fun s li => li.ops.foldl step s) empty

end Scan

def blockNodes (addr : Address) (ops : List Instruction) : List HighLevelAst :=
  .label addr :: if ops = [] then [] else [.block addr ops]

/-- A region with a single node is that node. -/
def wrap (seq : List HighLevelAst) : Except Fault HighLevelAst :=
  if seq.length = 1 then unwrap seq.head? else .ok (.seq seq)

/-- The loop of `structure_region` from one of its iterations on: the nodes it
still pushes and the visited set it leaves. A nested region is wrapped into the
body of its `ifElse`. -/
def regionLoop (f : Function) (backEdges : Finset (Address × Address)) :
    ℕ → Address → Option Address → Finset Address →
      Except Fault (List HighLevelAst × Finset Address)
  | 0, _, _, _ => .error .outOfFuel
  | fuel + 1, curr, stop, visited => do
    if some curr = stop ∨ curr ∈ visited then return ([], visited)
    let visited := insert curr visited
    let some block ← f.blockAt curr | return ([], visited)
    let scan := Scan.ofBlock block
    let nodes := blockNodes curr scan.ops
    if let some cond := scan.termCond then
      let trueTarget := scan.termTrue.getD 0
      let falseTarget := (block.successors.find? (· ≠ trueTarget)).getD 0
      if (curr, trueTarget) ∈ backEdges then
        let (rest, visited) ← regionLoop f backEdges fuel falseTarget stop visited
        return (nodes ++ .whileDo cond (.goto trueTarget) :: rest, visited)
      else if (curr, falseTarget) ∈ backEdges then
        let (body, visited) ← regionLoop f backEdges fuel trueTarget (some falseTarget) visited
        return (nodes ++ [.ifElse cond (← wrap body) none, .goto falseTarget], visited)
      else
        let (body, visited) ← regionLoop f backEdges fuel trueTarget (some falseTarget) visited
        let thenAst ← wrap body
        let (rest, visited) ← regionLoop f backEdges fuel falseTarget stop visited
        return (nodes ++ .ifElse cond thenAst none :: rest, visited)
    else if let some target := scan.unconditional then
      if (curr, target) ∈ backEdges ∨ target ∈ visited then
        return (nodes ++ [.goto target], visited)
      let (rest, visited) ← regionLoop f backEdges fuel target stop visited
      return (nodes ++ rest, visited)
    else if scan.isReturn then
      return (nodes ++ [.ret], visited)
    else if let some next := block.successors.head? then
      if next ∈ visited then return (nodes ++ [.goto next], visited)
      let (rest, visited) ← regionLoop f backEdges fuel next stop visited
      return (nodes ++ rest, visited)
    else
      return (nodes, visited)

def structureRegion (f : Function) (backEdges : Finset (Address × Address)) (fuel : ℕ)
    (start : Address) (stop : Option Address) (visited : Finset Address) :
    Except Fault (HighLevelAst × Finset Address) := do
  let (seq, visited) ← regionLoop f backEdges fuel start stop visited
  return (← wrap seq, visited)

/-- `Structurer::structure` -/
def doStructure (f : Function) : Except Fault HighLevelAst := do
  if f.blocks = [] then return .seq []
  let backEdges ← findBackEdges f
  let (ast, _) ← structureRegion f backEdges (f.blocks.length + 2) f.entry none ∅
  return ast

def run (f : Function) : Except Fault Function := do
  return { f with ast := some (← doStructure f) }

end Decompiler.Structurer
