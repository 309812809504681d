import Decompiler.ConstProp.Idempotence
import Decompiler.Passes.Manager
import Decompiler.Structurer.Termination
import Decompiler.Types.Saturation

/-! # Passes in any order

Behind the construction of the graph a manager may run the passes in any order and as often as
it likes. All that its run leaves behind is which of them have done something, and whether it
was before or after the constants were propagated.
-/

namespace Decompiler

open Cfg

theorem Cfg.startToIndex_congr {bs cs : List BasicBlock}
    (hstarts : bs.map BasicBlock.startAddress = cs.map BasicBlock.startAddress) :
    startToIndex bs = startToIndex cs := by
  have hmap : ∀ ds : List BasicBlock, startToIndex ds =
      (ds.map BasicBlock.startAddress).zipIdx.foldl (fun m p => m.insert p.1 p.2) ∅ := by
    intro ds
    rw [startToIndex, List.zipIdx_map, List.foldl_map]
    rfl
  rw [hmap, hmap, hstarts]

section Congruence

variable {f g : Function} (hblocks : f.blocks = g.blocks)

include hblocks

theorem Dataflow.solveForward_congr {S : Type*} [Lattice S] [DecidableEq S] (fuel : ℕ)
    (transfer : TransferFunction S) :
    solveForward fuel f transfer = solveForward fuel g transfer := by
  have hloop : ∀ n st, solveLoop f transfer n st = solveLoop g transfer n st := by
    intro n
    induction n with
    | zero => exact fun _ => rfl
    | succ n ih =>
      intro st
      simp only [solveLoop, solveStep, blockByAddr, hblocks, ih]
  rw [solveForward, solveForward, hloop, solveInit, solveInit, hblocks]

theorem ConstProp.run_congr {p : Function} (hrun : run g = .ok p) :
    run f = .ok { f with blocks := p.blocks } := by
  obtain ⟨r, hr, hp⟩ := Fallible.bind_eq_ok.mp hrun
  obtain rfl := Except.ok.inj hp
  have hfuel : solveFuel f = solveFuel g := by simp only [solveFuel, assigned, hblocks]
  rw [run, hfuel, Dataflow.solveForward_congr hblocks, hr, Fallible.ok_bind, rewrite, hblocks]
  rfl

end Congruence

namespace Structurer

variable {f g : Function} (hentry : f.entry = g.entry) (hblocks : f.blocks = g.blocks)
  (hat : ∀ a, f.blockAt a = g.blockAt a)

include hat

theorem dfsBackEdges_congr (fuel : ℕ) (a : Address) (st : DfsState) :
    dfsBackEdges f fuel a st = dfsBackEdges g fuel a st := by
  induction fuel generalizing a st with
  | zero => rfl
  | succ fuel ih => simp only [dfsBackEdges, hat, ih]

theorem regionLoop_congr (backEdges : Finset (Address × Address)) (fuel : ℕ) (curr : Address)
    (stop : Option Address) (visited : Finset Address) :
    regionLoop f backEdges fuel curr stop visited =
      regionLoop g backEdges fuel curr stop visited := by
  induction fuel generalizing curr stop visited with
  | zero => rfl
  | succ fuel ih => simp only [regionLoop, hat, ih]

include hentry hblocks

theorem doStructure_congr : doStructure f = doStructure g := by
  simp only [doStructure, findBackEdges, structureRegion, hentry, hblocks,
    dfsBackEdges_congr hat, regionLoop_congr hat]

end Structurer

/-- Which of the passes behind the construction have run. Types that were inferred are those of
the built blocks or of the propagated ones, and so is the syntax tree. -/
structure Stage where
  propagated : Bool
  typedBuilt : Bool
  typedPropagated : Bool
  tree : Option Bool
  deriving DecidableEq, Repr

namespace Stage

def start : Stage := ⟨false, false, false, none⟩

def after (s : Stage) : Builtin → Stage
  | .cfgBuilder => s
  | .constantPropagation => { s with propagated := true }
  | .typeInference =>
    bif s.propagated then { s with typedPropagated := true } else { s with typedBuilt := true }
  | .structurer => { s with tree := some s.propagated }

/-- Types of the propagated blocks are inferred only once there are such blocks. -/
def Consistent (s : Stage) : Prop := s.typedPropagated = true → s.propagated = true

theorem consistent_start : start.Consistent := fun h => h

theorem Consistent.after {s : Stage} (h : s.Consistent) (pass : Builtin) :
    (s.after pass).Consistent := by
  obtain ⟨propagated, typedBuilt, typedPropagated, tree⟩ := s
  cases pass with
  | cfgBuilder => exact h
  | constantPropagation => exact fun _ => rfl
  | typeInference =>
    cases propagated with
    | false => exact h
    | true => exact fun _ => rfl
  | structurer => exact h

def inferred (bs : List BasicBlock) (types : Types.TypeMap) : Types.TypeMap :=
  let ops := bs.flatMap BasicBlock.ops
  (Types.inferLoop ops (Types.inferFuel ops) types).toOption.getD types

def blocks (g p : Function) (propagated : Bool) : List BasicBlock :=
  bif propagated then p.blocks else g.blocks

def types (g p : Function) (s : Stage) : Types.TypeMap :=
  let built := bif s.typedBuilt then inferred g.blocks g.types else g.types
  bif s.typedPropagated then inferred p.blocks built else built

def ast (g p : Function) (s : Stage) : Option HighLevelAst :=
  match s.tree with
  | none => g.ast
  | some propagated => (Structurer.doStructure (bif propagated then p else g)).toOption

def function (g p : Function) (s : Stage) : Function :=
  { g with
    blocks := blocks g p s.propagated
    types := types g p s
    ast := ast g p s }

end Stage

theorem Types.run_eq_inferred (f : Function) :
    Types.run f = .ok { f with types := Stage.inferred f.blocks f.types } := by
  obtain ⟨types, hrun⟩ := Types.run_eq_ok f
  have hloop := Types.run_eq_ok_iff.mp hrun
  rw [hrun, Stage.inferred, hloop]
  rfl

theorem Stage.inferred_inferred (bs : List BasicBlock) (types : Types.TypeMap) :
    inferred bs (inferred bs types) = inferred bs types := by
  set f : Function := { Function.new "" 0 with blocks := bs, types := types } with hf
  obtain ⟨n, hrun, hsat⟩ := Types.run_eq_scans f
  have htypes : inferred bs types =
      Types.inferAll (Types.scans n (Types.programOps f)) f.types := by
    have heq := (Types.run_eq_inferred f).symm.trans hrun
    exact congrArg Function.types (Except.ok.inj heq)
  have hloop : Types.inferLoop (bs.flatMap BasicBlock.ops)
      (Types.inferFuel (bs.flatMap BasicBlock.ops)) (inferred bs types) =
        .ok (inferred bs types) := by
    rw [htypes]
    exact Types.inferLoop_of_saturated hsat (Nat.succ_pos _)
  rw [inferred, hloop]
  rfl

theorem Stage.inferred_types (g p : Function) {s : Stage} (hs : s.Consistent) :
    inferred (blocks g p s.propagated) (types g p s) = types g p (s.after .typeInference) := by
  obtain ⟨propagated, typedBuilt, typedPropagated, tree⟩ := s
  cases propagated with
  | false =>
    obtain rfl : typedPropagated = false := by simpa [Consistent] using hs
    cases typedBuilt with
    | false => rfl
    | true => exact inferred_inferred g.blocks g.types
  | true =>
    cases typedPropagated with
    | false => rfl
    | true => exact inferred_inferred p.blocks _

structure Stages (g p : Function) : Prop where
  nodup : ((stream g).map LiftedInstruction.address).Nodup
  cfg : IsCfg (stream g) g.entry g.blocks
  index : stream g = [] ∨ g.rebuildIndex = g
  run : ConstProp.run g = .ok p

namespace Stages

open ConstProp

variable {g p : Function} (h : Stages g p)

include h

theorem exists_rewrite : ∃ r, p = rewrite g r ∧
    Dataflow.solveForward (solveFuel g) g constantPropagation = .ok r := by
  obtain ⟨r, hr, hp⟩ := Fallible.bind_eq_ok.mp h.run
  exact ⟨r, (Except.ok.inj hp).symm, hr⟩

theorem run_propagated : ConstProp.run p = .ok p := by
  obtain ⟨r, rfl, hr⟩ := h.exists_rewrite
  obtain ⟨r', hr'⟩ := solveForward_eq_ok (rewrite g r)
  have hstarts := h.cfg.nodup_starts h.nodup
  have hsecond := rewrite_rewrite_blocks fun _ hb =>
    inState_rewriteBlock hstarts h.cfg.connected.mem_predecessors hr hr' hb
  rw [ConstProp.run, hr']
  exact congrArg (fun bs => Except.ok { rewrite g r with blocks := bs }) hsecond

theorem cfg_blocks (propagated : Bool) {f : Function}
    (hf : f.blocks = Stage.blocks g p propagated) (hentry : f.entry = g.entry) :
    IsCfg (stream f) f.entry f.blocks ∧
      (stream f).map LiftedInstruction.address = (stream g).map LiftedInstruction.address ∧
        f.blocks.map BasicBlock.startAddress = g.blocks.map BasicBlock.startAddress := by
  obtain ⟨r, rfl, -⟩ := h.exists_rewrite
  have hstream : stream f = (Stage.blocks g (rewrite g r) propagated).flatMap
      BasicBlock.instructions := by rw [stream, hf]
  rw [hstream, hf, hentry]
  cases propagated with
  | false => exact ⟨h.cfg, rfl, rfl⟩
  | true => exact ⟨isCfg_rewrite h.cfg r, map_address_stream_rewrite g r, List.map_map⟩

theorem index_function (s : Stage) :
    stream (s.function g p) = [] ∨ (s.function g p).rebuildIndex = s.function g p := by
  obtain ⟨-, haddr, hstarts⟩ := h.cfg_blocks s.propagated (f := s.function g p) rfl rfl
  rcases h.index with hnil | hindex
  · rw [hnil] at haddr
    exact Or.inl (by simpa using haddr)
  · right
    have hsame : startToIndex (s.function g p).blocks = g.blockIndex :=
      (startToIndex_congr hstarts).trans (congrArg Function.blockIndex hindex)
    exact congrArg (fun index => { s.function g p with blockIndex := index }) hsame

theorem build_function (s : Stage) : build (s.function g p) = .ok (s.function g p) := by
  obtain ⟨hcfg, haddr, -⟩ := h.cfg_blocks s.propagated (f := s.function g p) rfl rfl
  obtain ⟨bs, hbs, hbuild⟩ := build_eq_ok (s.function g p) (haddr ▸ h.nodup)
  obtain rfl := hcfg.unique hbs
  rw [hbuild]
  split
  case isTrue => rfl
  case isFalse hne => exact congrArg Except.ok ((h.index_function s).resolve_left hne)

theorem exists_tree (s : Stage) : ∃ ast, Structurer.doStructure (s.function g p) = .ok ast := by
  obtain ⟨hcfg, haddr, hstarts⟩ := h.cfg_blocks s.propagated (f := s.function g p) rfl rfl
  rcases h.index_function s with hnil | hindex
  · have hblocks : (s.function g p).blocks = [] := by
      have hlen := hcfg.split.starts_sublist.length_le
      rw [hnil] at hlen
      simpa using hlen
    exact ⟨.seq [], if_pos hblocks⟩
  · have hends := @Structurer.doStructure_ends (s.function g p) (s.function g p)
      (congrArg Function.blockIndex hindex).symm
    refine hends.resolve_left ?_
    rintro ⟨a, hat, -⟩
    have hfound := @blockAt_rebuildIndex (s.function g p)
      (hcfg.nodup_starts (haddr ▸ h.nodup)) a
    rw [hindex, hat] at hfound
    cases hfound

/-- The structurer finds at every stage what it finds in the graph or in the propagated one. -/
theorem doStructure_function (s : Stage) : Structurer.doStructure (s.function g p) =
    Structurer.doStructure (bif s.propagated then p else g) := by
  obtain ⟨r, rfl, -⟩ := h.exists_rewrite
  cases hs : s.propagated with
  | false =>
    have hblocks : (s.function g (rewrite g r)).blocks = g.blocks := by
      simp [Stage.function, Stage.blocks, hs]
    refine Structurer.doStructure_congr rfl hblocks fun a => ?_
    rw [Function.blockAt, Function.blockAt, hblocks]
    rfl
  | true =>
    have hblocks : (s.function g (rewrite g r)).blocks = (rewrite g r).blocks := by
      simp [Stage.function, Stage.blocks, hs]
    refine Structurer.doStructure_congr rfl hblocks fun a => ?_
    rw [Function.blockAt, Function.blockAt, hblocks]
    rfl

/-- A pass behind the construction takes the function at a stage to the one at the next. -/
theorem run_pass {s : Stage} (hs : s.Consistent) (pass : Builtin) :
    pass.pass.run (s.function g p) = .ok ((s.after pass).function g p) := by
  cases pass with
  | cfgBuilder => exact h.build_function s
  | constantPropagation =>
    have hrun : ∃ q, ConstProp.run q = .ok p ∧ (s.function g p).blocks = q.blocks := by
      cases hp : s.propagated with
      | false => exact ⟨g, h.run, congrArg (Stage.blocks g p) hp⟩
      | true => exact ⟨p, h.run_propagated, congrArg (Stage.blocks g p) hp⟩
    obtain ⟨q, hq, hblocks⟩ := hrun
    exact ConstProp.run_congr hblocks hq
  | typeInference =>
    have htypes := Stage.inferred_types g p hs
    refine (Types.run_eq_inferred _).trans ?_
    refine (congrArg (fun t => Except.ok { s.function g p with types := t }) htypes).trans ?_
    cases hp : s.propagated <;> simp [Stage.after, Stage.function, Stage.ast, hp]
  | structurer =>
    obtain ⟨ast, hast⟩ := h.exists_tree s
    have htree : (s.after .structurer).ast g p = some ast := by
      rw [h.doStructure_function] at hast
      exact congrArg Except.toOption hast
    have hrun : Structurer.run (s.function g p) = .ok { s.function g p with ast := some ast } := by
      rw [Structurer.run, hast]
      rfl
    rw [← htree] at hrun
    exact hrun

theorem run_stages (ps : List Builtin) {s : Stage} (hs : s.Consistent) :
    (ps.map Builtin.pass).foldlM (fun f pass => pass.run f) (s.function g p) =
      .ok ((ps.foldl Stage.after s).function g p) := by
  induction ps generalizing s with
  | nil => rfl
  | cons pass ps ih =>
    rw [List.map_cons, List.foldlM_cons, h.run_pass hs pass, Fallible.ok_bind,
      ih (hs.after pass), List.foldl_cons]

end Stages

/-- The construction leaves the graph from which the stages start. -/
theorem exists_stages {f : Function} (hnd : ((stream f).map LiftedInstruction.address).Nodup) :
    ∃ g p, build f = .ok g ∧ Stages g p := by
  obtain ⟨g, hbuild, hstream, hcfg⟩ := build_isCfg hnd
  rw [← hstream] at hnd
  obtain ⟨r, -, hrun, -⟩ := ConstProp.run_eq_ok (hcfg.nodup_starts hnd)
    hcfg.connected.mem_predecessors
  refine ⟨g, _, hbuild, hnd, hcfg, ?_, hrun⟩
  obtain ⟨bs, hbs, hbuild'⟩ := build_eq_ok f (hstream ▸ hnd)
  have hg := Except.ok.inj (hbuild.symm.trans hbuild')
  split at hg
  case isTrue hnil => exact Or.inl (hstream.trans hnil)
  case isFalse => exact Or.inr (hg ▸ rfl)

/-- A manager that starts with the construction never faults, in whatever order it runs the
other passes and however often, and leaves what the stages behind its passes say. -/
theorem PassManager.run_eq_stage {f : Function}
    (hnd : ((stream f).map LiftedInstruction.address).Nodup) :
    ∃ g p, build f = .ok g ∧ ConstProp.run g = .ok p ∧ ∀ ps : List Builtin,
      (ofBuiltins (.cfgBuilder :: ps)).run f =
        .ok ((ps.foldl Stage.after .start).function g p) := by
  obtain ⟨g, p, hbuild, h⟩ := exists_stages hnd
  refine ⟨g, p, hbuild, h.run, fun ps => ?_⟩
  rw [run, passes_ofBuiltins, List.map_cons, List.foldlM_cons]
  have hfirst : Builtin.cfgBuilder.pass.run f = .ok (Stage.start.function g p) := hbuild
  rw [hfirst]
  exact h.run_stages ps Stage.consistent_start

open Builtin in
/-- A tree of the built blocks stays, although the constants have been propagated since. -/
theorem PassManager.run_eq_stage_constantTest : ∃ g p, build ConstProp.constantTest = .ok g ∧
    ConstProp.run g = .ok p ∧
    (ofBuiltins [cfgBuilder, structurer, constantPropagation, cfgBuilder, typeInference]).run
      ConstProp.constantTest = .ok (Stage.function g p ⟨true, false, true, some false⟩) := by
  have hnd : ((stream ConstProp.constantTest).map LiftedInstruction.address).Nodup := by decide
  obtain ⟨g, p, hbuild, hrun, hall⟩ := run_eq_stage hnd
  exact ⟨g, p, hbuild, hrun, hall [structurer, constantPropagation, cfgBuilder, typeInference]⟩

/-- Running the whole pipeline on its own result changes neither the function nor the text. -/
theorem runPhase2_idempotent {f g : Function} {text : String}
    (hnd : ((stream f).map LiftedInstruction.address).Nodup)
    (h : runPhase2 f = .ok (g, text)) : runPhase2 g = .ok (g, text) := by
  obtain ⟨b, p, hbuild, hst⟩ := exists_stages hnd
  have hagain : ∀ s : Stage, s.Consistent → runPasses passes (s.function b p) =
      .ok ((phase2.foldl Stage.after s).function b p) := fun _ hs => hst.run_stages phase2 hs
  have hfirst : runPasses passes f = .ok (Stage.function b p ⟨true, false, true, some true⟩) := by
    have hrun := hst.run_stages [.constantPropagation, .typeInference, .structurer]
      Stage.consistent_start
    rw [runPasses, passes, List.foldlM_cons, hbuild]
    exact hrun
  obtain ⟨g', hg', h⟩ := Fallible.bind_eq_ok.mp h
  obtain ⟨text', htext, heq⟩ := Fallible.bind_eq_ok.mp h
  obtain ⟨rfl, rfl⟩ := Prod.mk.inj (Except.ok.inj heq)
  obtain rfl := Except.ok.inj (hfirst.symm.trans hg')
  exact Fallible.bind_eq_ok.mpr ⟨_, hagain _ fun _ => rfl,
    Fallible.bind_eq_ok.mpr ⟨_, htext, rfl⟩⟩

theorem runPhase2_idempotent_constantTest : ∃ g text,
    runPhase2 ConstProp.constantTest = .ok (g, text) ∧ runPhase2 g = .ok (g, text) := by
  have hnd : ((stream ConstProp.constantTest).map LiftedInstruction.address).Nodup := by decide
  have hrun : ∃ r, runPhase2 ConstProp.constantTest = .ok r ∧ True := by decide +kernel
  obtain ⟨⟨g, text⟩, hr, -⟩ := hrun
  exact ⟨g, text, hr, runPhase2_idempotent hnd hr⟩

end Decompiler
