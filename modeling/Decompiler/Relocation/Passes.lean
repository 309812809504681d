import Decompiler.Passes.Safety
import Decompiler.Relocation.Rename

/-! # The passes on relocated code

None of the passes computes with addresses: what they do to relocated code is what they do to
the code, relocated. The structurer takes the address `0` for a missing successor, so `0` has to
stay where it is.
-/

namespace Decompiler

open Cfg

variable {φ : Address → Address} (hφ : Function.Injective φ) {f f' : Function}
  (hblocks : f'.blocks = f.blocks.map (BasicBlock.relocate φ))

theorem blockStarting_relocate (hφ : Function.Injective φ) (bs : List BasicBlock) (a : Address) :
    blockStarting (bs.map (BasicBlock.relocate φ)) (φ a) =
      (blockStarting bs a).map (BasicBlock.relocate φ) := by
  rw [blockStarting, blockStarting, List.find?_map]
  congr 2
  ext b
  simp [hφ.eq_iff]

namespace Dataflow

theorem enqueue_relocate (hφ : Function.Injective φ) (succs queue : List Address)
    (queued : Finset Address) :
    (succs.map φ).foldl enqueue (queue.map φ, queued.image φ) =
      ((succs.foldl enqueue (queue, queued)).1.map φ,
        (succs.foldl enqueue (queue, queued)).2.image φ) := by
  induction succs generalizing queue queued with
  | nil => rfl
  | cons succ succs ih =>
    have hstep : enqueue (queue.map φ, queued.image φ) (φ succ) =
        ((enqueue (queue, queued) succ).1.map φ, (enqueue (queue, queued) succ).2.image φ) := by
      unfold enqueue
      by_cases hmem : succ ∈ queued
      · simp [hmem, hφ.mem_finset_image]
      · simp [hmem, hφ.mem_finset_image, Finset.image_insert]
    rw [List.map_cons, List.foldl_cons, List.foldl_cons, hstep, ih]

variable {S : Type*} [Lattice S]

theorem mergePredecessorStates_relocate {out out' : Address → Option S}
    (hout : ∀ a, out' (φ a) = out a) (b : BasicBlock) :
    mergePredecessorStates (b.relocate φ) out' = mergePredecessorStates b out := by
  simp [mergePredecessorStates, List.foldl_map, hout]

omit [Lattice S] in
theorem transferBlock_relocate {transfer : TransferFunction S}
    (htransfer : ∀ op s, transfer.transferInstruction (op.relocate φ) s =
      transfer.transferInstruction op s) (b : BasicBlock) (s : S) :
    transferBlock (b.relocate φ) s transfer = transferBlock b s transfer := by
  simp [transferBlock, List.foldl_map, htransfer]

structure SameSolver (φ : Address → Address) (st st' : SolverState S) : Prop where
  blockIn : ∀ a, st'.blockIn (φ a) = st.blockIn a
  blockOut : ∀ a, st'.blockOut (φ a) = st.blockOut a
  queue : st'.queue = st.queue.map φ
  queued : st'.queued = st.queued.image φ

section Blocks

include hφ hblocks

theorem blockByAddr_relocate (a : Address) :
    blockByAddr f' (φ a) = (blockByAddr f a).map (BasicBlock.relocate φ) := by
  have hfold : ∀ (bs : List BasicBlock) (m m' : Address → Option BasicBlock),
      (∀ a, m' (φ a) = (m a).map (BasicBlock.relocate φ)) → ∀ a,
      (bs.map (BasicBlock.relocate φ)).foldl
          (fun (m : Address → Option BasicBlock) b => Function.update m b.startAddress (some b))
          m' (φ a) =
        (bs.foldl
          (fun (m : Address → Option BasicBlock) b => Function.update m b.startAddress (some b))
          m a).map (BasicBlock.relocate φ) := by
    intro bs
    induction bs with
    | nil => exact fun m m' h => h
    | cons b bs ih =>
      intro m m' h
      refine ih _ _ fun a => ?_
      simp only [BasicBlock.relocate_startAddress, Function.update_apply, hφ.eq_iff, h]
      split <;> rfl
  rw [blockByAddr, blockByAddr, hblocks]
  exact hfold f.blocks _ _ (fun _ => rfl) a

theorem SameSolver.init : SameSolver φ (solveInit f : SolverState S) (solveInit f') := by
  have hstarts : f'.blocks.map BasicBlock.startAddress =
      (f.blocks.map BasicBlock.startAddress).map φ := by
    simp [hblocks, Function.comp_def]
  constructor
  · exact fun _ => rfl
  · intro a
    simp only [solveInit, hstarts, List.mem_map_of_injective hφ]
  · exact hstarts
  · ext a
    simp [solveInit, hstarts]

variable [DecidableEq S] {transfer : TransferFunction S}
  (htransfer : ∀ op s, transfer.transferInstruction (op.relocate φ) s =
    transfer.transferInstruction op s)

include htransfer

theorem SameSolver.step {st st' : SolverState S} (h : SameSolver φ st st') :
    (solveStep f transfer st = none ∧ solveStep f' transfer st' = none) ∨
      ∃ next next', solveStep f transfer st = some next ∧
        solveStep f' transfer st' = some next' ∧ SameSolver φ next next' := by
  obtain ⟨hin, hout, hqueue, hqueued⟩ := h
  unfold solveStep
  cases hq : st.queue with
  | nil =>
    rw [hq] at hqueue
    simp [hqueue]
  | cons addr queue =>
    right
    rw [hq, List.map_cons] at hqueue
    have herase : st'.queued.erase (φ addr) = (st.queued.erase addr).image φ := by
      rw [hqueued, Finset.image_erase hφ]
    simp only [hqueue, herase]
    rw [blockByAddr_relocate hφ hblocks]
    cases hb : blockByAddr f addr with
    | none => exact ⟨_, _, rfl, rfl, hin, hout, rfl, rfl⟩
    | some b =>
      have hupdate : ∀ (m m' : Address → Option S) (s : Option S), (∀ a, m' (φ a) = m a) →
          ∀ a, Function.update m' (φ addr) s (φ a) = Function.update m addr s a := by
        intro m m' s hm a
        simp only [Function.update_apply, hφ.eq_iff, hm]
      simp only [Option.map_some, mergePredecessorStates_relocate hout,
        transferBlock_relocate htransfer, hout]
      split
      · exact ⟨_, _, rfl, rfl, hupdate _ _ _ hin, hout, rfl, rfl⟩
      · rw [BasicBlock.relocate_successors, enqueue_relocate hφ]
        exact ⟨_, _, rfl, rfl, hupdate _ _ _ hin, hupdate _ _ _ hout, rfl, rfl⟩

/-- The solver finds the same states on relocated code. -/
theorem solveForward_relocate {fuel : ℕ} {r : DataflowResult S}
    (h : solveForward fuel f transfer = .ok r) :
    ∃ r', solveForward fuel f' transfer = .ok r' ∧ ∀ a, r'.blockIn (φ a) = r.blockIn a := by
  have hloop : ∀ (fuel : ℕ) (st st' : SolverState S), SameSolver φ st st' →
      solveLoop f transfer fuel st = .ok r →
      ∃ r', solveLoop f' transfer fuel st' = .ok r' ∧ ∀ a, r'.blockIn (φ a) = r.blockIn a := by
    intro fuel
    induction fuel with
    | zero => exact fun _ _ _ h => by cases h
    | succ fuel ih =>
      intro st st' hsame h
      rw [solveLoop] at h ⊢
      rcases hsame.step hφ hblocks htransfer with ⟨hstop, hstop'⟩ | ⟨next, next', hn, hn', hnext⟩
      · rw [hstop] at h
        rw [hstop']
        obtain rfl := Except.ok.inj h
        exact ⟨_, rfl, hsame.blockIn⟩
      · rw [hn] at h
        rw [hn']
        exact ih next next' hnext h
  exact hloop fuel _ _ (.init hφ hblocks) h

end Blocks

end Dataflow

namespace ConstProp

open Dataflow

@[simp] theorem transferInstruction_relocate (op : Instruction) (s : ConstState) :
    transferInstruction (op.relocate φ) s = transferInstruction op s := by
  cases op <;> rfl

theorem substituteAndFold_relocate (op : Instruction) (s : ConstState) :
    substituteAndFold (op.relocate φ) s = (substituteAndFold op s).relocate φ := by
  have hfold : ∀ {bin : Varnode → Varnode → Varnode → Instruction} {dest lhs rhs f},
      (∀ a b, (bin dest a b).relocate φ = bin dest a b) →
      foldBinop bin dest lhs rhs s f = (foldBinop bin dest lhs rhs s f).relocate φ := by
    intro bin dest lhs rhs f hbin
    unfold foldBinop foldOrKeep
    split
    · rfl
    · exact (hbin _ _).symm
  cases op with
  | intAdd => exact hfold fun _ _ => rfl
  | intSub => exact hfold fun _ _ => rfl
  | intEqual => exact hfold fun _ _ => rfl
  | intNotEqual => exact hfold fun _ _ => rfl
  | intSless => exact hfold fun _ _ => rfl
  | intSlessEqual => exact hfold fun _ _ => rfl
  | _ => rfl

theorem rewriteOps_relocate (ops : List Instruction) (s : ConstState) :
    rewriteOps (ops.map (Instruction.relocate φ)) s =
      (rewriteOps ops s).map (Instruction.relocate φ) := by
  induction ops generalizing s with
  | nil => rfl
  | cons op ops ih => simp [rewriteOps, substituteAndFold_relocate, ih]

theorem rewriteInstructions_relocate (lis : List LiftedInstruction) (s : ConstState) :
    rewriteInstructions (lis.map (LiftedInstruction.relocate φ)) s =
      (rewriteInstructions lis s).map (LiftedInstruction.relocate φ) := by
  induction lis generalizing s with
  | nil => rfl
  | cons li lis ih =>
    simp [rewriteInstructions, rewriteOps_relocate, ih, List.foldl_map, LiftedInstruction.relocate]

include hblocks in
theorem solveFuel_relocate : solveFuel f' = solveFuel f := by
  have hassigned : assigned f' = assigned f := by
    simp [assigned, hblocks, List.flatMap_map, List.filterMap_flatMap, List.filterMap_map]
  simp [solveFuel, hassigned, hblocks, List.flatMap_map]

include hφ hblocks in
theorem run_relocate {g : Function} (h : run f = .ok g) :
    run f' = .ok { f' with blocks := g.blocks.map (BasicBlock.relocate φ) } := by
  obtain ⟨r, hr, heq⟩ := Fallible.bind_eq_ok.mp h
  obtain rfl := Except.ok.inj heq
  obtain ⟨r', hr', hin⟩ := solveForward_relocate hφ hblocks transferInstruction_relocate hr
  rw [run, solveFuel_relocate hblocks]
  refine Fallible.bind_eq_ok.mpr ⟨r', hr', ?_⟩
  simp only [rewrite, hblocks, List.map_map, Fallible.pure_eq_ok]
  congr 2
  refine List.map_congr_left fun b _ => ?_
  simp only [Function.comp_apply, BasicBlock.relocate, hin, rewriteInstructions_relocate]

end ConstProp

namespace Types

@[simp] theorem inferOp_relocate (op : Instruction) (types : TypeMap) :
    inferOp (op.relocate φ) types = inferOp op types := by
  cases op <;> rfl

@[simp] theorem varnodes_relocate (op : Instruction) : varnodes (op.relocate φ) = varnodes op := by
  cases op <;> rfl

theorem inferLoop_relocate (ops : List Instruction) (fuel : ℕ) (types : TypeMap) :
    inferLoop (ops.map (Instruction.relocate φ)) fuel types = inferLoop ops fuel types := by
  induction fuel generalizing types with
  | zero => rfl
  | succ fuel ih => simp only [inferLoop, inferScan, List.foldl_map, inferOp_relocate, ih]

include hblocks in
theorem run_relocate (htypes : f'.types = f.types) {types : TypeMap}
    (h : run f = .ok { f with types := types }) : run f' = .ok { f' with types := types } := by
  have hops : programOps f' = (programOps f).map (Instruction.relocate φ) := by
    simp [programOps, hblocks, List.flatMap_map, List.map_flatMap]
  have hfuel : inferFuel (programOps f') = inferFuel (programOps f) := by
    simp [inferFuel, hops, List.flatMap_map]
  rw [run_eq_ok_iff] at h ⊢
  rw [hfuel, hops, inferLoop_relocate, htypes]
  exact h

end Types

namespace Structurer

def DfsState.relocate (φ : Address → Address) (st : DfsState) : DfsState where
  visited := st.visited.image φ
  inStack := st.inStack.image φ
  backEdges := st.backEdges.image (Prod.map φ φ)

def Scan.relocate (φ : Address → Address) (s : Scan) : Scan where
  ops := s.ops.map (Instruction.relocate φ)
  termCond := s.termCond
  termTrue := s.termTrue.map φ
  unconditional := s.unconditional.map φ
  isReturn := s.isReturn

theorem Scan.step_relocate (s : Scan) (op : Instruction) :
    (s.relocate φ).step (op.relocate φ) = (s.step op).relocate φ := by
  have happend : s.ops.map (Instruction.relocate φ) ++ [op.relocate φ] =
      (s.ops ++ [op]).map (Instruction.relocate φ) := by simp
  cases op with
  | branch target | cbranch condition target => cases target <;> rfl
  | ret => rfl
  | _ => exact congrArg (fun ops => { s.relocate φ with ops := ops }) happend

theorem Scan.foldl_step_relocate (ops : List Instruction) (s : Scan) :
    (ops.map (Instruction.relocate φ)).foldl Scan.step (s.relocate φ) =
      (ops.foldl Scan.step s).relocate φ := by
  induction ops generalizing s with
  | nil => rfl
  | cons op ops ih => rw [List.map_cons, List.foldl_cons, step_relocate, ih, List.foldl_cons]

theorem Scan.ofBlock_relocate (b : BasicBlock) :
    Scan.ofBlock (b.relocate φ) = (Scan.ofBlock b).relocate φ := by
  have hlis : ∀ (lis : List LiftedInstruction) (s : Scan),
      (lis.map (LiftedInstruction.relocate φ)).foldl (fun s li => li.ops.foldl Scan.step s)
          (s.relocate φ) = (lis.foldl (fun s li => li.ops.foldl Scan.step s) s).relocate φ := by
    intro lis
    induction lis with
    | nil => exact fun _ => rfl
    | cons li lis ih =>
      intro s
      rw [List.map_cons, List.foldl_cons, LiftedInstruction.relocate_ops, foldl_step_relocate, ih,
        List.foldl_cons]
  exact hlis b.instructions .empty

@[simp] theorem blockNodes_relocate (a : Address) (ops : List Instruction) :
    blockNodes (φ a) (ops.map (Instruction.relocate φ)) =
      (blockNodes a ops).map (HighLevelAst.relocate φ) := by
  by_cases hnil : ops = []
  · simp [blockNodes, hnil, HighLevelAst.relocate]
  · simp [blockNodes, hnil, HighLevelAst.relocate]

@[simp] theorem wrapNodes_relocate (nodes : List HighLevelAst) :
    wrapNodes (nodes.map (HighLevelAst.relocate φ)) = (wrapNodes nodes).relocate φ := by
  match nodes with
  | [] => simp [wrapNodes, HighLevelAst.relocate]
  | [node] => rfl
  | a :: b :: l => simp [wrapNodes, HighLevelAst.relocate]

theorem DfsState.enter_relocate (a : Address) (st : DfsState) :
    ⟨insert (φ a) (st.relocate φ).visited, insert (φ a) (st.relocate φ).inStack,
      (st.relocate φ).backEdges⟩ =
        DfsState.relocate φ
          { st with visited := insert a st.visited, inStack := insert a st.inStack } := by
  simp [DfsState.relocate, Finset.image_insert]

theorem getD_relocate (hzero : φ 0 = 0) (a : Option Address) : (a.map φ).getD 0 = φ (a.getD 0) := by
  cases a <;> simp [hzero]

include hφ

theorem falseTarget_relocate (hzero : φ 0 = 0) (b : BasicBlock) (t : Address) :
    ((b.relocate φ).successors.find? (· ≠ φ t)).getD 0 =
      φ ((b.successors.find? (· ≠ t)).getD 0) := by
  have hfind : (b.relocate φ).successors.find? (· ≠ φ t) =
      (b.successors.find? (· ≠ t)).map φ := by
    rw [BasicBlock.relocate_successors, List.find?_map]
    congr 2
    ext a
    simp [hφ.eq_iff]
  rw [hfind, getD_relocate hzero]

theorem DfsState.leave_relocate (a : Address) (st : DfsState) :
    ⟨(st.relocate φ).visited, (st.relocate φ).inStack.erase (φ a), (st.relocate φ).backEdges⟩ =
      DfsState.relocate φ { st with inStack := st.inStack.erase a } := by
  simp [DfsState.relocate, Finset.image_erase hφ]

omit hφ

section Walk

variable (hat : ∀ a, f'.blockAt (φ a) = (f.blockAt a).map (Option.map (BasicBlock.relocate φ)))

include hφ hat

theorem dfsBackEdges_relocate (fuel : ℕ) (a : Address) (st : DfsState) :
    dfsBackEdges f' fuel (φ a) (st.relocate φ) =
      (dfsBackEdges f fuel a st).map (DfsState.relocate φ) := by
  induction fuel generalizing a st with
  | zero => rfl
  | succ fuel ih =>
    have hvisited : φ a ∈ (st.relocate φ).visited ↔ a ∈ st.visited := hφ.mem_finset_image
    rw [dfsBackEdges, dfsBackEdges]
    by_cases hmem : a ∈ st.visited
    · rw [if_pos hmem, if_pos (hvisited.mpr hmem)]
      rfl
    · rw [if_neg hmem, if_neg (hvisited.not.mpr hmem), hat]
      cases hb : f.blockAt a with
      | error e => rfl
      | ok block? =>
        cases block? with
        | none =>
          simp only [Fallible.map_ok, Option.map_none, Fallible.ok_bind,
            DfsState.enter_relocate a st, Fallible.pure_eq_ok, DfsState.leave_relocate hφ]
        | some b =>
          simp only [Fallible.map_ok, Option.map_some, Fallible.ok_bind,
            DfsState.enter_relocate a st, Fallible.pure_eq_ok, BasicBlock.relocate_successors,
            Fallible.map_bind]
          let visit (st : DfsState) (succ : Address) : Except Fault DfsState :=
            if succ ∈ st.inStack then .ok { st with backEdges := insert (a, succ) st.backEdges }
            else dfsBackEdges f fuel succ st
          rw [Fallible.foldlM_map (f := visit) (g := DfsState.relocate φ) (h := φ)]
          · rw [Fallible.bind_map]
            exact congrArg _ (funext fun st => congrArg Except.ok (DfsState.leave_relocate hφ a st))
          · intro st succ
            have hstack : φ succ ∈ (st.relocate φ).inStack ↔ succ ∈ st.inStack :=
              hφ.mem_finset_image
            by_cases hsucc : succ ∈ st.inStack
            · simp only [visit]
              rw [if_pos hsucc, if_pos (hstack.mpr hsucc)]
              simp [Except.map, DfsState.relocate, Finset.image_insert]
            · simp only [visit]
              rw [if_neg hsucc, if_neg (hstack.not.mpr hsucc)]
              exact ih succ st

def relocateRegion (φ : Address → Address) (r : List HighLevelAst × Finset Address) :
    List HighLevelAst × Finset Address :=
  (r.1.map (HighLevelAst.relocate φ), r.2.image φ)

theorem regionLoop_relocate (hzero : φ 0 = 0) (backEdges : Finset (Address × Address)) (fuel : ℕ)
    (curr : Address) (stop : Option Address) (visited : Finset Address) :
    regionLoop f' (backEdges.image (Prod.map φ φ)) fuel (φ curr) (stop.map φ) (visited.image φ) =
      (regionLoop f backEdges fuel curr stop visited).map (relocateRegion φ) := by
  have hback : ∀ a b, (φ a, φ b) ∈ backEdges.image (Prod.map φ φ) ↔ (a, b) ∈ backEdges := by
    intro a b
    exact (hφ.prodMap hφ).mem_finset_image (a := (a, b))
  induction fuel generalizing curr stop visited with
  | zero => rfl
  | succ fuel ih =>
    have hmem : ∀ (a : Address) (s : Finset Address), φ a ∈ s.image φ ↔ a ∈ s :=
      fun _ _ => hφ.mem_finset_image
    have hstop : some (φ curr) = stop.map φ ↔ some curr = stop := by
      cases stop with
      | none => simp
      | some a => simp [hφ.eq_iff]
    rw [regionLoop, regionLoop]
    by_cases hend : some curr = stop ∨ curr ∈ visited
    · rw [if_pos hend, if_pos (by rwa [hstop, hmem])]
      rfl
    · rw [if_neg hend, if_neg (by rwa [hstop, hmem]), hat, ← Finset.image_insert]
      cases hb : f.blockAt curr with
      | error e => rfl
      | ok block? =>
        cases block? with
        | none => rfl
        | some b =>
          simp only [Fallible.map_ok, Option.map_some, Fallible.ok_bind, Scan.ofBlock_relocate,
            Scan.relocate, blockNodes_relocate]
          generalize insert curr visited = seen
          generalize Scan.ofBlock b = scan
          generalize blockNodes curr scan.ops = nodes
          cases scan.termCond with
          | some cond =>
            simp only [getD_relocate hzero, falseTarget_relocate hφ hzero, hback]
            generalize scan.termTrue.getD 0 = t
            generalize (b.successors.find? (· ≠ t)).getD 0 = n
            have hnext : some (φ n) = (some n).map φ := rfl
            split_ifs with hloop hdoWhile
            · rw [ih, Fallible.bind_map, Fallible.map_bind]
              refine congrArg _ (funext fun r => ?_)
              simp [relocateRegion, HighLevelAst.relocate]
            · rw [hnext, ih, Fallible.bind_map, Fallible.map_bind]
              refine congrArg _ (funext fun r => ?_)
              simp [relocateRegion, HighLevelAst.relocate, relocateElse, wrap_eq_ok]
            · rw [hnext, ih, Fallible.bind_map, Fallible.map_bind]
              refine congrArg _ (funext fun r => ?_)
              simp only [relocateRegion, wrap_eq_ok, wrapNodes_relocate, Fallible.ok_bind, ih,
                Fallible.bind_map, Fallible.map_bind]
              refine congrArg _ (funext fun r' => ?_)
              simp [relocateRegion, HighLevelAst.relocate, relocateElse]
          | none =>
            cases scan.unconditional with
            | some target =>
              simp only [Option.map_some, hback, hmem]
              split_ifs with hgoto
              · simp [relocateRegion, HighLevelAst.relocate]
              · rw [ih, Fallible.bind_map, Fallible.map_bind]
                refine congrArg _ (funext fun r => ?_)
                simp [relocateRegion]
            | none =>
              simp only [Option.map_none]
              split_ifs with hret
              · simp [relocateRegion, HighLevelAst.relocate]
              · rw [BasicBlock.relocate_successors, List.head?_map]
                cases b.successors.head? with
                | none => rfl
                | some next =>
                  simp only [Option.map_some, hmem]
                  split_ifs with hgoto
                  · simp [relocateRegion, HighLevelAst.relocate]
                  · rw [ih, Fallible.bind_map, Fallible.map_bind]
                    refine congrArg _ (funext fun r => ?_)
                    simp [relocateRegion]

include hblocks

theorem doStructure_relocate (hzero : φ 0 = 0) (hentry : f'.entry = φ f.entry) :
    doStructure f' = (doStructure f).map (HighLevelAst.relocate φ) := by
  have hsuccs : (f'.blocks.flatMap BasicBlock.successors).length =
      (f.blocks.flatMap BasicBlock.successors).length := by
    simp [hblocks, List.flatMap_map]
  have hback : findBackEdges f' = (findBackEdges f).map (Finset.image (Prod.map φ φ)) := by
    rw [findBackEdges, findBackEdges, hsuccs, hentry]
    rw [show (⟨∅, ∅, ∅⟩ : DfsState) = DfsState.relocate φ ⟨∅, ∅, ∅⟩ from rfl,
      dfsBackEdges_relocate hφ hat, Fallible.bind_map, Fallible.map_bind]
    rfl
  by_cases hnil : f.blocks = []
  · simp [doStructure, hblocks, hnil, HighLevelAst.relocate]
  · rw [doStructure, doStructure, if_neg hnil, if_neg (by simp [hblocks, hnil]), hback,
      Fallible.bind_map, Fallible.map_bind]
    refine congrArg _ (funext fun backEdges => ?_)
    have hregion := regionLoop_relocate hφ hat hzero backEdges (f.blocks.length + 2) f.entry none ∅
    rw [Option.map_none, Finset.image_empty, ← hentry] at hregion
    rw [structureRegion, structureRegion, hblocks, List.length_map, hregion, Fallible.bind_map]
    simp only [Fallible.map_bind, bind_assoc, relocateRegion, wrap_eq_ok, wrapNodes_relocate,
      Fallible.ok_bind, Fallible.pure_eq_ok, Fallible.map_ok]

end Walk

end Structurer

section Pipeline

theorem Instruction.WellFormed.relocate {op : Instruction} (h : op.WellFormed) :
    (op.relocate φ).WellFormed := by
  cases op <;> exact h

theorem Shaped.relocate {ops : List Instruction} (h : Shaped ops) :
    Shaped (ops.map (Instruction.relocate φ)) where
  wellFormed op' hop' := by
    obtain ⟨op, hop, rfl⟩ := List.mem_map.mp hop'
    exact (h.wellFormed op hop).relocate
  terminator_last op' hop' := by
    rw [← List.map_dropLast] at hop'
    obtain ⟨op, hop, rfl⟩ := List.mem_map.mp hop'
    rw [Instruction.relocate_isTerminator]
    exact h.terminator_last op hop
  absolute op' hop' := by
    obtain ⟨op, hop, rfl⟩ := List.mem_map.mp hop'
    have habsolute := h.absolute op hop
    cases op with
    | branch target | cbranch condition target => cases target <;> exact habsolute
    | _ => exact habsolute

variable {entry : Address} {flat : List LiftedInstruction} (hflat : IsLifted entry flat)
  (hsorted : ((flat.map LiftedInstruction.address).map φ).Pairwise (· < ·))

include hflat hsorted

theorem IsLifted.relocate : IsLifted (φ entry) (flat.map (LiftedInstruction.relocate φ)) where
  sorted := by
    rw [List.map_map] at hsorted ⊢
    exact hsorted
  head li' hli' := by
    rw [List.head?_map] at hli'
    obtain ⟨li, hli, rfl⟩ := Option.map_eq_some_iff.mp hli'
    exact congrArg φ (hflat.head li hli)
  shaped li' hli' := by
    obtain ⟨li, hli, rfl⟩ := List.mem_map.mp hli'
    exact (hflat.shaped li hli).relocate

theorem IsLifted.keepsOrder : KeepsOrder φ (flat.map LiftedInstruction.address).toFinset := by
  rintro a ha b hb hab
  have hmono : (flat.map LiftedInstruction.address).Pairwise fun a b => a < b → φ a < φ b :=
    (List.pairwise_map.mp hsorted).imp (by intro a b h _; exact h)
  have hflip : (flat.map LiftedInstruction.address).Pairwise (flip fun a b => a < b → φ a < φ b) :=
    hflat.sorted.imp fun h h' => absurd h' (UInt64.lt_asymm h)
  exact hmono.forall_of_forall_of_flip (fun c _ h => absurd h (UInt64.lt_irrefl c)) hflip
    (List.mem_toFinset.mp ha) (List.mem_toFinset.mp hb) hab

end Pipeline

structure IsRelocation (φ : Address → Address) (f f' : Function) : Prop where
  name : f'.name = f.name
  entry : f'.entry = φ f.entry
  blocks : f'.blocks = f.blocks.map (BasicBlock.relocate φ)
  types : f'.types = f.types
  ast : f'.ast = f.ast.map (HighLevelAst.relocate φ)

theorem Ready.exists_passes {f : Function} (h : Ready f) : ∃ g p t out text, Cfg.build f = .ok g ∧
    ConstProp.run g = .ok p ∧ Types.run p = .ok t ∧ Ready t ∧ Structurer.run t = .ok out ∧
    runPhase2 f = .ok (out, text) := by
  obtain ⟨out, text, hrun⟩ := h.exists_runPhase2
  obtain ⟨⟨g, p, t, hg, hp, ht, hout⟩, -⟩ := passes_of_runPhase2 hrun
  obtain ⟨_, hg', hready, -⟩ := h.build
  obtain rfl := Except.ok.inj (hg.symm.trans hg')
  obtain ⟨_, hp', hready, -⟩ := hready.propagate
  obtain rfl := Except.ok.inj (hp.symm.trans hp')
  obtain ⟨_, ht', hready, -⟩ := hready.infer
  obtain rfl := Except.ok.inj (ht.symm.trans ht')
  exact ⟨g, p, t, out, text, hg, hp, ht, hready, hout, hrun⟩

theorem build_relocate (hφ : Function.Injective φ) {name : String} {entry : Address}
    {flat : List LiftedInstruction} (hflat : IsLifted entry flat)
    (hsorted : ((flat.map LiftedInstruction.address).map φ).Pairwise (· < ·)) {g g' : Function}
    (hg : build (.ofStream name entry flat) = .ok g)
    (hg' : build (.ofStream name (φ entry) (flat.map (LiftedInstruction.relocate φ))) = .ok g') :
    g'.blocks = g.blocks.map (BasicBlock.relocate φ) := by
  obtain ⟨_, hg₀, hentry, hgraph⟩ := @build_ofStream name entry flat hflat.nodup
  obtain rfl := Except.ok.inj (hg.symm.trans hg₀)
  obtain ⟨_, hg₀', hentry', hgraph'⟩ :=
    @build_ofStream name (φ entry) _ (hflat.relocate hsorted).nodup
  obtain rfl := Except.ok.inj (hg'.symm.trans hg₀')
  have hsub : ∀ a ∈ starts g.blocks, a ∈ (flat.map LiftedInstruction.address).toFinset := by
    rintro a ha
    obtain ⟨b, hb, rfl⟩ := mem_starts.mp ha
    exact List.mem_toFinset.mpr (hgraph.cfg.split.starts_sublist.subset (List.mem_map_of_mem hb))
  have hmono : KeepsOrder φ (starts g.blocks) := fun a ha b hb =>
    hflat.keepsOrder hsorted a (hsub a ha) b (hsub b hb)
  have hcfg := hgraph'.cfg
  rw [hentry', ← hentry] at hcfg
  exact hcfg.unique (hgraph.cfg.relocate hφ hmono)

/-- The passes turn relocated code into the relocated result. -/
theorem runPhase2_relocate (hφ : Function.Injective φ) (hzero : φ 0 = 0) {name : String}
    {entry : Address} {flat : List LiftedInstruction} (hflat : IsLifted entry flat)
    (hsorted : ((flat.map LiftedInstruction.address).map φ).Pairwise (· < ·)) :
    ∃ out text out' text', runPhase2 (.ofStream name entry flat) = .ok (out, text) ∧
      runPhase2 (.ofStream name (φ entry) (flat.map (LiftedInstruction.relocate φ))) =
        .ok (out', text') ∧ IsRelocation φ out out' := by
  obtain ⟨g, p, t, out, text, hg, hp, ht, hready, hout, hrun⟩ :=
    (@ready_ofStream name entry flat hflat).exists_passes
  obtain ⟨g', p', t', out', text', hg', hp', ht', hready', hout', hrun'⟩ :=
    (@ready_ofStream name (φ entry) _ (hflat.relocate hsorted)).exists_passes
  refine ⟨out, text, out', text', hrun, hrun', ?_⟩
  have hentry : ∀ {f g : Function}, build f = .ok g → g.name = f.name ∧ g.entry = f.entry ∧
      g.types = f.types := by
    intro f g h
    rw [eq_of_build h]
    exact ⟨rfl, rfl, rfl⟩
  obtain ⟨hgname, hgentry, hgtypes⟩ := hentry hg
  obtain ⟨hgname', hgentry', hgtypes'⟩ := hentry hg'
  have hp'' := ConstProp.run_relocate hφ (build_relocate hφ hflat hsorted hg hg') hp
  obtain rfl := Except.ok.inj (hp'.symm.trans hp'')
  obtain ⟨r, -, hrewrite⟩ := Fallible.bind_eq_ok.mp hp
  obtain rfl := Except.ok.inj hrewrite
  obtain ⟨types, htypes⟩ := Types.run_eq_ok (ConstProp.rewrite g r)
  obtain rfl := Except.ok.inj (htypes.symm.trans ht)
  set blocks := (ConstProp.rewrite g r).blocks.map (BasicBlock.relocate φ) with hblocks
  have htypes' : Types.run { g' with blocks := blocks } =
      .ok { g' with blocks := blocks, types := types } := by
    refine Types.run_relocate hblocks ?_ htypes
    exact hgtypes'.trans hgtypes.symm
  obtain rfl := Except.ok.inj (htypes'.symm.trans ht')
  have hast : Structurer.doStructure { g' with blocks := blocks, types := types } =
      (Structurer.doStructure { ConstProp.rewrite g r with types := types }).map
        (HighLevelAst.relocate φ) := by
    refine Structurer.doStructure_relocate hφ hblocks (fun a => ?_) hzero
      (hgentry'.trans (congrArg φ hgentry.symm))
    rw [hready.passable.linked.blockAt, hready'.passable.linked.blockAt]
    exact congrArg Except.ok (blockStarting_relocate hφ _ a)
  obtain ⟨ast, hdone, heq⟩ := Fallible.bind_eq_ok.mp hout
  obtain ⟨ast', hdone', heq'⟩ := Fallible.bind_eq_ok.mp hout'
  obtain rfl := Except.ok.inj heq
  obtain rfl := Except.ok.inj heq'
  rw [hdone, hdone'] at hast
  exact ⟨hgname'.trans hgname.symm, hgentry'.trans (congrArg φ hgentry.symm), rfl, rfl,
    congrArg some (Except.ok.inj hast)⟩

end Decompiler
