import Decompiler.Cfg.Rebuild
import Decompiler.ConstProp.Calls
import Decompiler.ConstProp.Termination

/-! # What the rewriting keeps

The rewriting only touches the operations inside the instructions. It keeps what each of
them assigns and where each of them branches, and the blocks stay where the index and the
edges find them. The edges of a graph are therefore still those of the rewritten operations.
-/

namespace Decompiler

theorem Function.blockAt_map (f : Function) {c : BasicBlock → BasicBlock}
    (hstart : ∀ b, (c b).startAddress = b.startAddress) (a : Address) :
    { f with blocks := f.blocks.map c }.blockAt a = (f.blockAt a).map (Option.map c) := by
  unfold blockAt
  dsimp only
  split
  case isTrue =>
    have hcomp : (fun b : BasicBlock => b.startAddress == a) ∘ c =
        fun b => b.startAddress == a := by
      ext b
      rw [Function.comp_apply, hstart]
    rw [List.find?_map, hcomp]
    rfl
  case isFalse =>
    split
    case h_1 i _ =>
      unfold index
      rw [List.getElem?_map]
      cases f.blocks[i]? <;> rfl
    case h_2 => rfl

namespace ConstProp

open Cfg Dataflow

theorem opDest_substituteAndFold (op : Instruction) (s : ConstState) :
    (substituteAndFold op s).opDest = op.opDest := by
  have hfold : ∀ {bin : Varnode → Varnode → Varnode → Instruction} {dest lhs rhs f},
      (∀ a b, (bin dest a b).opDest = some dest) →
      (foldBinop bin dest lhs rhs s f).opDest = some dest := by
    intro bin dest lhs rhs f hbin
    unfold foldBinop foldOrKeep
    split
    · rfl
    · exact hbin _ _
  cases op <;> first | rfl | exact hfold fun _ _ => rfl

theorem mem_operands_substituteAndFold {op : Instruction} {s : ConstState} {v : Varnode}
    (h : v ∈ (substituteAndFold op s).operands) : v.space = .constant ∨ v ∈ op.operands := by
  have hrewrites := substituteAndFold_rewrites op s
  generalize substituteAndFold op s = rewritten at h hrewrites
  cases hrewrites with
  | folded =>
    obtain rfl := List.mem_singleton.mp h
    exact .inl rfl
  | kept _ hoperands =>
    rw [hoperands] at h
    obtain ⟨u, hu, rfl⟩ := List.mem_map.mp h
    rcases substitute_cases u s with heq | ⟨x, -, heq⟩
    · rw [heq]
      exact .inr hu
    · rw [heq]
      exact .inl rfl

theorem exists_of_mem_rewriteOps {ops : List Instruction} {s : ConstState} {op' : Instruction}
    (h : op' ∈ rewriteOps ops s) : ∃ op ∈ ops, op'.opDest = op.opDest ∧
      ∀ v ∈ op'.operands, v.space = .constant ∨ v ∈ op.operands := by
  obtain ⟨i, hi⟩ := List.getElem?_of_mem h
  rw [getElem?_rewriteOps] at hi
  obtain ⟨op, hop, rfl⟩ := Option.map_eq_some_iff.mp hi
  exact ⟨op, List.mem_of_getElem? hop, opDest_substituteAndFold _ _,
    fun v hv => mem_operands_substituteAndFold hv⟩

theorem map_opDest_rewriteOps (ops : List Instruction) (s : ConstState) :
    (rewriteOps ops s).map Instruction.opDest = ops.map Instruction.opDest := by
  induction ops generalizing s with
  | nil => rfl
  | cons op ops ih => rw [rewriteOps, List.map_cons, List.map_cons, opDest_substituteAndFold, ih]

theorem linked_rewrite {f : Function} (h : IsLinked f) (r : DataflowResult ConstState) :
    IsLinked (rewrite f r) where
  nodup_starts := by
    rw [rewrite_blocks, List.map_map]
    exact h.nodup_starts
  blockAt a := by
    have hmap := f.blockAt_map (c := rewriteBlock r) (fun _ => rfl) a
    rw [h.blockAt] at hmap
    rw [rewrite_blocks, blockStarting_map]
    exact hmap
  nodup_successors := by
    rw [rewrite_blocks]
    exact List.forall_mem_map.mpr fun b hb => h.nodup_successors b hb
  successor := by
    rw [rewrite_blocks]
    intro b' hb' a ha
    obtain ⟨b, hb, rfl⟩ := List.mem_map.mp hb'
    obtain ⟨c, hc, hca⟩ := h.successor b hb a ha
    exact ⟨rewriteBlock r c, List.mem_map_of_mem hc, hca⟩

theorem flow_substituteAndFold (op : Instruction) (s : ConstState) :
    (substituteAndFold op s).flow = op.flow := by
  have hfold : ∀ {bin : Varnode → Varnode → Varnode → Instruction} {dest lhs rhs f},
      (∀ a b, (bin dest a b).flow = (false, false, none)) →
      (foldBinop bin dest lhs rhs s f).flow = (false, false, none) := by
    intro bin dest lhs rhs f hbin
    unfold foldBinop foldOrKeep
    split
    · rfl
    · exact hbin _ _
  cases op <;> first | rfl | exact hfold fun _ _ => rfl

theorem map_flow_rewriteOps (ops : List Instruction) (s : ConstState) :
    (rewriteOps ops s).map Instruction.flow = ops.map Instruction.flow := by
  induction ops generalizing s with
  | nil => rfl
  | cons op ops ih => rw [rewriteOps, List.map_cons, List.map_cons, flow_substituteAndFold, ih]

theorem map_skeleton_rewriteInstructions (lis : List LiftedInstruction) (s : ConstState) :
    (rewriteInstructions lis s).map LiftedInstruction.skeleton =
      lis.map LiftedInstruction.skeleton := by
  induction lis generalizing s with
  | nil => rfl
  | cons li lis ih =>
    rw [rewriteInstructions, List.map_cons, List.map_cons, ih]
    unfold LiftedInstruction.skeleton
    rw [map_flow_rewriteOps]

theorem sameEdges_rewriteBlock (r : DataflowResult ConstState) (b : BasicBlock) :
    SameEdges b (rewriteBlock r b) :=
  ⟨rfl, rfl, rfl, map_skeleton_rewriteInstructions _ _⟩

/-- The graph of a stream is the graph of the rewritten stream. -/
theorem isCfg_rewrite {g : Function} (h : IsCfg (stream g) g.entry g.blocks)
    (r : DataflowResult ConstState) :
    IsCfg (stream (rewrite g r)) (rewrite g r).entry (rewrite g r).blocks :=
  h.map (sameEdges_rewriteBlock r)

theorem map_address_stream_rewrite (g : Function) (r : DataflowResult ConstState) :
    (stream (rewrite g r)).map LiftedInstruction.address =
      (stream g).map LiftedInstruction.address := by
  have haddr : ∀ lis : List LiftedInstruction, lis.map LiftedInstruction.address =
      (lis.map LiftedInstruction.skeleton).map Prod.fst := by
    intro lis
    rw [List.map_map]
    rfl
  rw [haddr, haddr, stream, rewrite_blocks, map_skeleton_flatMap (sameEdges_rewriteBlock r), stream]

/-- Building the graph of a graph changes no block and no edge of it, whether or not its
constants have been propagated in between. -/
theorem build_stable (f : Function) (hnd : ((stream f).map LiftedInstruction.address).Nodup) :
    ∃ g p, build f = .ok g ∧ run g = .ok p ∧
      (∃ g', build g = .ok g' ∧ g'.blocks = g.blocks) ∧
      ∃ p', build p = .ok p' ∧ p'.blocks = p.blocks := by
  obtain ⟨g, hbuild, hstream, hcfg⟩ := build_isCfg hnd
  rw [← hstream] at hnd
  obtain ⟨r, -, hrun, -⟩ := run_eq_ok (hcfg.nodup_starts hnd) hcfg.connected.mem_predecessors
  refine ⟨g, _, hbuild, hrun, build_of_isCfg hcfg hnd, ?_⟩
  apply build_of_isCfg (isCfg_rewrite hcfg r)
  rwa [map_address_stream_rewrite]

/-- A comparison with a constant and the branch that it decides. -/
def constantTest : Function :=
  { Function.new "constant_test" 0 with
    blocks := [⟨0, [⟨0, [.copy (.register 0 4 "EAX") (.constant 5 4)]⟩,
      ⟨1, [.intEqual (.register 8 1 "ZF") (.register 0 4 "EAX") (.constant 5 4)]⟩,
      ⟨2, [.cbranch (.register 8 1 "ZF") (.absolute 1)]⟩, ⟨3, [.ret]⟩], [], []⟩] }

theorem build_stable_constantTest : ∃ g p, build constantTest = .ok g ∧ run g = .ok p ∧
    (∃ g', build g = .ok g' ∧ g'.blocks = g.blocks) ∧
      ∃ p', build p = .ok p' ∧ p'.blocks = p.blocks :=
  build_stable constantTest (by decide)

end ConstProp

end Decompiler
