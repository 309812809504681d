import Decompiler.Core.Types

/-! # Type inference

The address of a load or a store is a pointer, and types spread forward through
copies, additions, subtractions and φ-nodes until nothing changes. A location that
has an entry is never given another.
-/

namespace Decompiler.Types

abbrev TypeMap := Finmap fun _ : Location => DataType

/-- The type of an accessed varnode: its entry, or an unsigned primitive of its size. -/
def accessType (types : TypeMap) (v : Varnode) : DataType :=
  (types.lookup v.location).getD (.primitive v.size false)

/-- Gives an untyped location a type; the flag tells whether the map changed. -/
def insertNew (types : TypeMap) (dest : Varnode) (t : DataType) : TypeMap × Bool :=
  if dest.location ∈ types then (types, false) else (types.insert dest.location t, true)

def inferAddress (types : TypeMap) (addr accessed : Varnode) : TypeMap × Bool :=
  if addr.location ∉ types ∧ addr.space ≠ .constant then
    (types.insert addr.location (.pointer (accessType types accessed)), true)
  else (types, false)

def inferOp (op : Instruction) (types : TypeMap) : TypeMap × Bool :=
  match op with
  | .load dest addr => inferAddress types addr dest
  | .store addr src => inferAddress types addr src
  | .intAdd dest lhs rhs | .intSub dest lhs rhs =>
    match types.lookup lhs.location with
    | some (.pointer inner) => insertNew types dest (.pointer inner)
    | _ =>
      match types.lookup rhs.location with
      | some (.pointer inner) => insertNew types dest (.pointer inner)
      | _ => (types, false)
  | .copy dest src =>
    match types.lookup src.location with
    | some t => insertNew types dest t
    | none => (types, false)
  | .phi dest srcs =>
    match srcs.findSome? fun s => types.lookup s.location with
    | some t => insertNew types dest t
    | none => (types, false)
  | _ => (types, false)

def inferScan (ops : List Instruction) (types : TypeMap) : TypeMap × Bool :=
  ops.foldl (fun s op =>
    let (types, changed) := inferOp op s.1
    (types, s.2 || changed)) (types, false)

/-- The fixpoint loop of `run`; `fuel` bounds its number of scans. -/
def inferLoop (ops : List Instruction) : ℕ → TypeMap → Except Fault TypeMap
  | 0, _ => .error .outOfFuel
  | fuel + 1, types =>
    match inferScan ops types with
    | (types, true) => inferLoop ops fuel types
    | (types, false) => .ok types

def varnodes : Instruction → List Varnode
  | .copy dest src => [dest, src]
  | .load dest addr => [dest, addr]
  | .store addr src => [addr, src]
  | .intAdd dest lhs rhs | .intSub dest lhs rhs | .intEqual dest lhs rhs
  | .intNotEqual dest lhs rhs | .intSless dest lhs rhs | .intSlessEqual dest lhs rhs =>
    [dest, lhs, rhs]
  | .cbranch condition _ => [condition]
  | .phi dest srcs => dest :: srcs
  | .branch _ | .call _ | .ret | .nop => []

/-- Every scan but the last gives a type to some occurring location. -/
def inferFuel (ops : List Instruction) : ℕ := (ops.flatMap varnodes).length + 1

def run (f : Function) : Except Fault Function := do
  let ops := f.blocks.flatMap BasicBlock.ops
  return { f with types := ← inferLoop ops (inferFuel ops) f.types }

end Decompiler.Types
