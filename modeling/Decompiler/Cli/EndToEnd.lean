import Decompiler.Arm.Refinement
import Decompiler.Passes.Safety
import Decompiler.Structurer.Execution
import Decompiler.X86.Refinement

/-! # From the bytes to the syntax tree

The layers put together. A run of the processor on the bytes is one of the instructions that the
decode loop records, of their graph, of the propagated graph and of the syntax tree, and all of
them come to the same registers.
-/

namespace Decompiler

open Cfg Structurer ConstProp Dataflow

/-- What a run of the graph from a state has to avoid for the passes to keep it. -/
structure Followed (callee : BranchTarget → State → State) (g out : Function) (σ : State) :
    Prop where
  bounded : σ.Bounded
  calls : CallFree g
  read : ∀ n c, Cfg.run callee g.blocks ⟨g.entry, 0, σ⟩ n = some c →
    ¬ Misled g.blocks (settledAfter callee g.blocks ⟨g.entry, 0, σ⟩ n) c
  safe : ∀ x, GraphRuns callee out.blocks (.block out.entry, σ) x → SafeExec callee out x

section Checks

variable {callee : BranchTarget → State → State} {g out : Function} {σ : State}

theorem run_eq_none {bs : List BasicBlock} {c : Cfg.Config} {n m : ℕ}
    (h : Cfg.run callee bs c n = none) (hnm : n ≤ m) : Cfg.run callee bs c m = none := by
  obtain ⟨k, rfl⟩ := Nat.exists_eq_add_of_le hnm
  rw [run_add, h, Option.bind_none]

theorem Followed.of_settled (hbounded : σ.Bounded) (hcalls : CallFree g) {n : ℕ}
    (hend : Cfg.run callee g.blocks ⟨g.entry, 0, σ⟩ n = none)
    (hread : ∀ m ∈ List.range n, ∀ c ∈ Cfg.run callee g.blocks ⟨g.entry, 0, σ⟩ m,
      ∀ op ∈ opAt g.blocks c, ∀ v ∈ op.operands, v.space = .constant ∨
        v.location ∈ settledAfter callee g.blocks ⟨g.entry, 0, σ⟩ m)
    (hsafe : ∀ b ∈ out.blocks, ∀ o, SafeAt out (fun _ => o) ⟨.block b.startAddress, 0, []⟩) :
    Followed callee g out σ where
  bounded := hbounded
  calls := hcalls
  read m c hc := by
    rintro ⟨op, hop, v, hv, hspace, hsettled, -⟩
    have hm : m < n := by
      by_contra hnm
      rw [run_eq_none hend (Nat.le_of_not_lt hnm)] at hc
      cases hc
    exact (hread m (List.mem_range.mpr hm) c hc op hop v hv).elim hspace hsettled
  safe x _ := .of_forall hsafe x

end Checks

/-- How the text of a function ends that returns or jumps to an address that is not recorded. -/
inductive Ends (recorded : List Address) : Control → Code → Prop
  | returns : Ends recorded .stop .finished
  | leaves {target : Address} (outside : target ∉ recorded) :
    Ends recorded (.jump (.absolute target)) (.left target)

structure Analysed (flat : List LiftedInstruction) (g out : Function)
    (r : DataflowResult ConstState) (ast : HighLevelAst) : Prop where
  lifted : IsLifted g.entry flat
  graph : IsGraphOf flat g
  solved : solveForward (solveFuel g) g constantPropagation = .ok r
  blocks : out.blocks = (rewrite g r).blocks
  entry : out.entry = g.entry
  result : IsGraphOf (stream out) out
  yielded : IsYielded out.entry (stream out)
  structured : doStructure out = .ok ast
  ast : out.ast = some ast
  untyped : g.types = ∅
  inferred : Types.run (rewrite g r) = .ok { rewrite g r with types := out.types }
  passable : Passable out

theorem Structurer.doStructure_withAst (f : Function) (ast : HighLevelAst) :
    doStructure { f with ast := some ast } = doStructure f :=
  doStructure_congr rfl rfl fun _ => rfl

theorem analysed_of_runPhase2 {name : String} {base : Address} {flat : List LiftedInstruction}
    (hflat : IsLifted base flat) {g out : Function} {text : String}
    (hg : build (.ofStream name base flat) = .ok g)
    (hout : runPhase2 (.ofStream name base flat) = .ok (out, text)) :
    g.entry = base ∧ ∃ r ast, Analysed flat g out r ast := by
  obtain ⟨⟨g', h, t, hg', hh, ht, hs⟩, -⟩ := passes_of_runPhase2 hout
  obtain rfl := Except.ok.inj (hg.symm.trans hg')
  obtain ⟨g', hg', rfl, hgraph⟩ := @build_ofStream name base flat hflat.nodup
  obtain rfl := Except.ok.inj (hg.symm.trans hg')
  obtain ⟨_, hg', hready, hbuilt⟩ := (@ready_ofStream name g.entry flat hflat).build
  obtain rfl := Except.ok.inj (hg.symm.trans hg')
  obtain ⟨_, hh', hready, hpropagated⟩ := hready.propagate
  obtain rfl := Except.ok.inj (hh.symm.trans hh')
  obtain ⟨_, ht', hready, hinferred⟩ := hready.infer
  obtain rfl := Except.ok.inj (ht.symm.trans ht')
  obtain ⟨_, hs', hready, hstructured⟩ := hready.structured
  obtain rfl := Except.ok.inj (hs.symm.trans hs')
  have hresult : IsGraphOf (stream out) out :=
    ⟨hready.yielded.nodup, hstructured (hinferred (hpropagated hbuilt)),
      hready.passable.linked.blockAt⟩
  obtain ⟨r, hr, hrewrite⟩ := Fallible.bind_eq_ok.mp hh
  obtain rfl := Except.ok.inj hrewrite
  obtain ⟨types, ht'⟩ := Types.run_eq_ok (rewrite g r)
  obtain rfl := Except.ok.inj (ht.symm.trans ht')
  obtain ⟨ast, hast, heq⟩ := Fallible.bind_eq_ok.mp hs
  have hyielded := hready.yielded
  have hpassable := hready.passable.withAst (some ast)
  obtain rfl := Except.ok.inj heq
  exact ⟨rfl, r, ast, hflat, hgraph, hr, rfl, rfl, hresult, hyielded,
    (doStructure_withAst _ _).trans hast, rfl, congrArg Function.types (eq_of_build hg), ht,
    hpassable⟩

theorem ConstProp.opAt_rewrite {f : Function} {r : DataflowResult ConstState}
    (hnd : (f.blocks.map BasicBlock.startAddress).Nodup) (hr : Solved f constantPropagation r)
    {c : Cfg.Config} {b : BasicBlock} (hc : c.In f.blocks b) :
    opAt (rewrite f r).blocks c = (opAt f.blocks c).map fun op =>
      substituteAndFold op (after b.ops (inOf b r.blockOut) c.done) := by
  rw [rewrite_blocks, opAt, opAt, blockStarting_map,
    (blockStarting_eq_some hnd).mpr ⟨hc.mem, hc.start⟩, Option.map_some, Option.bind_some,
    Option.bind_some, getElem?_ops_rewriteBlock hr hc.mem]

namespace Analysed

variable {flat : List LiftedInstruction} {g out : Function} {r : DataflowResult ConstState}
  {ast : HighLevelAst} (h : Analysed flat g out r ast)

include h

theorem stream_eq : stream out = stream (rewrite g r) := by rw [stream, stream, h.blocks]

theorem terminator_last : ∀ li ∈ stream out, ∀ op ∈ li.ops.dropLast, op.isTerminator = false := by
  rintro li hli op hop
  rw [h.stream_eq] at hli
  obtain ⟨li₀, hmem, s, rfl⟩ := exists_of_mem_stream_rewrite hli
  have hflat : stream g = flat := h.graph.cfg.split.flatten
  have hlast := (h.lifted.shaped li₀ (hflat ▸ hmem)).terminator_last
  have hflow := congrArg List.dropLast (map_flow_rewriteOps li₀.ops s)
  rw [← List.map_dropLast, ← List.map_dropLast] at hflow
  have hop' : op.flow ∈ li₀.ops.dropLast.map Instruction.flow :=
    hflow ▸ List.mem_map_of_mem hop
  obtain ⟨op₀, hop₀, heq⟩ := List.mem_map.mp hop'
  exact (congrArg Prod.fst heq).symm.trans (hlast op₀ hop₀)

theorem mem_starts {a : Address} (ha : a ∈ starts out.blocks) :
    a ∈ flat.map LiftedInstruction.address := by
  obtain ⟨b, hb, rfl⟩ := Cfg.mem_starts.mp ha
  rw [h.blocks, rewrite_blocks] at hb
  obtain ⟨b₀, hb₀, rfl⟩ := List.mem_map.mp hb
  exact h.graph.cfg.split.starts_sublist.subset (List.mem_map.mpr ⟨b₀, hb₀, rfl⟩)

variable {callee : BranchTarget → State → State} {σ : State} (hf : Followed callee g out σ)
  (hne : flat ≠ [])

include hf hne

omit hf in
theorem blocks_ne_nil : g.blocks ≠ [] := by
  rintro hnil
  have hflat := h.graph.cfg.split.flatten
  rw [hnil] at hflat
  exact hne hflat.symm

omit hf in
theorem out_blocks_ne_nil : out.blocks ≠ [] := by
  rw [h.blocks, rewrite_blocks]
  exact fun hnil => h.blocks_ne_nil hne (List.map_eq_nil_iff.mp hnil)

/-- The propagated graph takes the same steps, and the analysis holds along them. -/
theorem tracks_run (n : ℕ) :
    Cfg.run callee out.blocks ⟨out.entry, 0, σ⟩ n = Cfg.run callee g.blocks ⟨g.entry, 0, σ⟩ n ∧
      ∀ c, Cfg.run callee g.blocks ⟨g.entry, 0, σ⟩ n = some c →
        Tracks g r (settledAfter callee g.blocks ⟨g.entry, 0, σ⟩ n) c := by
  obtain ⟨b, hb, hstart⟩ := exists_entry h.graph h.lifted.isYielded (h.blocks_ne_nil hne)
  have hcalls : ∀ b ∈ g.blocks, ∀ op ∈ b.ops, ∀ target, op ≠ .call target := by
    rintro b hb op hop target rfl
    cases hf.calls b hb _ hop
  have htracks : Tracks g r ∅ ⟨g.entry, 0, σ⟩ :=
    ⟨hf.bounded, ⟨b, hb, hstart, Nat.zero_le _, by simp⟩, by simp⟩
  rw [h.blocks, h.entry]
  exact htracks.run h.graph h.lifted hcalls h.solved fun m _ c' hc' => hf.read m c' hc'

theorem follows {c : Cfg.Config} (hruns : RunsTo callee g.blocks ⟨g.entry, 0, σ⟩ c) :
    RunsTo callee out.blocks ⟨out.entry, 0, σ⟩ c ∧
      ∀ op, opAt g.blocks c = some op → ∃ op', opAt out.blocks c = some op' ∧
        op'.control c.state = op.control c.state := by
  obtain ⟨n, hn⟩ := hruns
  obtain ⟨hrun, hknown⟩ := h.tracks_run hf hne n
  have hc := hknown c hn
  refine ⟨⟨n, hrun.trans hn⟩, fun op hop => ?_⟩
  obtain ⟨d, hd⟩ := hc.exists_in
  have hsolved := solveForward_solved h.graph.nodup_starts h.graph.edgesReversed h.solved
  have hget : d.ops[c.done]? = some op := (opAt_eq h.graph hd).symm.trans hop
  refine ⟨_, by rw [h.blocks, opAt_rewrite h.graph.nodup_starts hsolved hd, hop]; rfl, ?_⟩
  exact control_substituteAndFold (hc.right h.graph h.lifted h.solved (hf.read n c hn) hd hget)

theorem within {c : Cfg.Config} (hruns : RunsTo callee g.blocks ⟨g.entry, 0, σ⟩ c) :
    Within callee out.blocks (.block out.entry, σ) c := by
  obtain ⟨e, he, hentry⟩ := exists_entry h.result h.yielded (h.out_blocks_ne_nil hne)
  exact (hentry ▸ within_start he σ).run h.result h.terminator_last (h.follows hf hne hruns).1

theorem exec_place {p : Place} {σ' : State}
    (hruns : GraphRuns callee out.blocks (.block out.entry, σ) (p, σ')) :
    ∃ code, AstRuns callee ast (.run [ast], σ) (code, σ') ∧ Agrees ast p code := by
  obtain ⟨ast', hast', hexec⟩ := exec_of_safe h.result h.terminator_last h.yielded
    (h.out_blocks_ne_nil hne) hf.safe
  obtain rfl := Except.ok.inj (h.structured.symm.trans hast')
  exact hexec _ hruns

omit hf hne

theorem before_entry {first : LiftedInstruction} (hfirst : flat.head? = some first) (σ : State) :
    Before g.blocks first ⟨g.entry, 0, σ⟩ := by
  have haddr : first.address = g.entry := h.lifted.head first hfirst
  obtain ⟨b, hb, hin⟩ := h.graph.cfg.split.mem_flat_iff.mp (List.mem_of_head? hfirst)
  obtain ⟨hhead, hstart⟩ := h.graph.cfg.split.eq_head_of_leader hb hin (Or.inl (Or.inl haddr))
  obtain ⟨rest, hrest⟩ := List.head?_eq_some_iff.mp hhead
  exact ⟨b, hb, [], rest, hrest, by rw [behind, hstart, haddr]; rfl⟩

include hf

section Ends

variable {first li : LiftedInstruction} {σ₁ σ₂ : State} {control : Control} {code : Code}
  (hfirst : flat.head? = some first)
  (hruns : Relation.ReflTransGen (StreamExec callee flat) (first, σ) (li, σ₁))
  (hexec : execOps callee li.ops σ₁ = some (σ₂, control))

include hfirst hruns hexec

/-- The syntax tree ends as the recorded instructions do, in the same state. -/
theorem exec (hends : Ends (flat.map LiftedInstruction.address) control code) :
    AstRuns callee ast (.run [ast], σ) (code, σ₂) := by
  have hne : flat ≠ [] := List.ne_nil_of_mem (List.mem_of_head? hfirst)
  have hcontrol : control ≠ .fall := by cases hends <;> exact nofun
  obtain ⟨c, hc, hli, rfl⟩ := h.graph.cfg.runsTo_of_streamExec h.graph.nodup
    (h.before_entry hfirst σ) rfl hruns
  obtain ⟨d, op, hd, rfl, hop, hop_control⟩ :=
    h.graph.cfg.runsTo_transfer h.graph.nodup hli hexec hcontrol
  obtain ⟨-, htransfer⟩ := h.follows hf hne (hc.trans hd)
  obtain ⟨op', hop', hop'_control⟩ := htransfer op hop
  have hgraph := (h.within hf hne (hc.trans hd)).transfer h.result h.terminator_last hop'
    (hop'_control.trans hop_control) hcontrol
  obtain ⟨code', hruns, hagrees⟩ := h.exec_place hf hne hgraph
  cases hends with
  | returns => exact hagrees.finished rfl ▸ hruns
  | leaves outside =>
    have hplace : branchTo out.blocks _ = .left _ := if_neg fun hmem => outside (h.mem_starts hmem)
    exact hagrees.left _ hplace ▸ hruns

end Ends

end Analysed

namespace X86

/-- A step of the processor to a recorded address. -/
def RecordedStep (cpuCallee : Address → Cpu → Cpu) (bytes : List UInt8) (base : Address)
    (lis : List LiftedInstruction) (x y : Address × Cpu) : Prop :=
  CpuStep cpuCallee bytes base x y ∧ y.1 ∈ lis.map LiftedInstruction.address

theorem streamExec_of_liftedStep {callee : BranchTarget → State → State}
    {lis : List LiftedInstruction} (hnd : (lis.map LiftedInstruction.address).Nodup)
    {li : LiftedInstruction} (hli : li ∈ lis) {σ : State} {y : Address × State}
    (h : LiftedStep callee lis (li.address, σ) y) (hy : y.1 ∈ lis.map LiftedInstruction.address) :
    ∃ next ∈ lis, next.address = y.1 ∧ StreamExec callee lis (li, σ) (next, y.2) := by
  generalize hx : (li.address, σ) = x at h
  cases h with
  | @fall li' next _ _ follows exec =>
    obtain ⟨haddr, rfl⟩ := Prod.mk.inj hx
    obtain rfl := List.inj_on_of_nodup_map hnd hli follows.mem_left haddr
    exact ⟨next, follows.mem_right, rfl, .next follows exec⟩
  | @jump li' target _ _ mem exec =>
    obtain ⟨haddr, rfl⟩ := Prod.mk.inj hx
    obtain rfl := List.inj_on_of_nodup_map hnd hli mem haddr
    obtain ⟨next, hnext, rfl⟩ := List.mem_map.mp hy
    exact ⟨next, hnext, rfl, .taken hnext exec⟩

section Runs

variable {bytes : List UInt8} {base : Address} {lis : List LiftedInstruction}
  (hdec : Decodes backend bytes base 0 .new lis) {callee : BranchTarget → State → State}
  {cpuCallee : Address → Cpu → Cpu} (hcallee : SameEffect callee cpuCallee)

include hdec hcallee

theorem simulates_streamExec : Simulation.Simulates (RecordedStep cpuCallee bytes base lis)
    (StreamExec callee lis) fun x y => y.1 ∈ lis ∧ y.1.address = x.1 ∧ Matches y.2 x.2 := by
  rintro ⟨pc, c⟩ z ⟨li, σ⟩ ⟨hli, rfl, hm⟩ hstep
  have hpc : li.address ∈ lis.map LiftedInstruction.address := List.mem_map_of_mem hli
  have hrel : li.address = li.address ∧ Matches σ c := ⟨rfl, hm⟩
  obtain ⟨⟨a, σ'⟩, hstep', ha, hm'⟩ :=
    @simulates_cpuStep _ _ _ hdec _ _ hcallee (li.address, c) z (li.address, σ) hrel
      ⟨hpc, hstep⟩
  obtain ⟨next, hnext, hnext_addr, hexec⟩ :=
    streamExec_of_liftedStep (hdec.isLifted lawful).nodup hli hstep' (ha ▸ hstep.2)
  exact ⟨(next, σ'), hexec, hnext, hnext_addr.trans ha, hm'⟩

theorem exists_streamExec {first : LiftedInstruction} (hfirst : lis.head? = some first) {σ : State}
    {c : Cpu} (hm : Matches σ c) {y : Address × Cpu}
    (hruns : Relation.ReflTransGen (RecordedStep cpuCallee bytes base lis) (base, c) y) :
    ∃ li ∈ lis, li.address = y.1 ∧ ∃ σ', Matches σ' y.2 ∧
      Relation.ReflTransGen (StreamExec callee lis) (first, σ) (li, σ') := by
  induction hruns with
  | refl =>
    exact ⟨first, List.mem_of_head? hfirst, (hdec.isLifted lawful).head first hfirst, σ, hm, .refl⟩
  | tail _ hstep ih =>
    obtain ⟨li, hli, haddr, σ', hm', hexec⟩ := ih
    obtain ⟨⟨next, σ''⟩, hnext_exec, hnext, hnext_addr, hm''⟩ :=
      simulates_streamExec hdec hcallee (u := (li, σ')) ⟨hli, haddr, hm'⟩ hstep
    exact ⟨next, hnext, hnext_addr, σ'', hm'', hexec.tail hnext_exec⟩

end Runs

theorem exists_astRuns {name : String} {bytes : List UInt8} {base : Address}
    {f g out : Function} {text : String} (hf : Arch.x86.processFunction name bytes base = .ok f)
    (hg : build f = .ok g) (hout : runPhase2 f = .ok (out, text))
    {callee : BranchTarget → State → State} {cpuCallee : Address → Cpu → Cpu}
    (hcallee : SameEffect callee cpuCallee) {σ : State} {c : Cpu} (hm : Matches σ c)
    (hfollowed : Followed callee g out σ) {pc : Address} {c' : Cpu}
    (hpc : pc ∈ (stream f).map LiftedInstruction.address)
    (hruns : Relation.ReflTransGen (RecordedStep cpuCallee bytes base (stream f)) (base, c)
      (pc, c')) {i : X86Instruction} {length : ℕ} (hfetch : Fetches bytes base pc i length)
    {c'' : Cpu} {control : Control} (hexec : i.exec cpuCallee pc length c' = (c'', control))
    {code : Code} (hends : Ends ((stream f).map LiftedInstruction.address) control code) :
    ∃ r ast, Analysed (stream f) g out r ast ∧
      ∃ σ', AstRuns callee ast (.run [ast], σ) (code, σ') ∧ Matches σ' c'' := by
  obtain ⟨lis, heq, hdec⟩ := processFunction_decodes hf
  obtain rfl : f = .ofStream name base lis := heq
  rw [stream_ofStream] at hpc hruns hends ⊢
  obtain ⟨hentry, r, ast, han⟩ := analysed_of_runPhase2 (hdec.isLifted lawful) hg hout
  obtain ⟨first, hfirst⟩ : ∃ first, lis.head? = some first := by
    obtain ⟨li, hli, -⟩ := List.mem_map.mp hpc
    exact ⟨_, List.head?_eq_some_head (List.ne_nil_of_mem hli)⟩
  obtain ⟨li, hli, rfl, σ₁, hm₁, hstreams⟩ := exists_streamExec hdec hcallee hfirst hm hruns
  obtain ⟨j, length', temps, temps', hfetch', hlift, -⟩ := fetches_of_mem hdec hli
  obtain ⟨rfl, rfl⟩ := hfetch.unique hfetch'
  have hexec' := execTo_lift hcallee hm₁ hlift
  rw [hexec] at hexec'
  obtain ⟨σ', hσ', hm'⟩ := hexec'
  exact ⟨r, ast, han, σ', han.exec hfollowed hfirst hstreams hσ' hends, hm'⟩

/-- Where the processor, on recorded addresses so far, executes an instruction by which it returns
or leaves the function, the decompiled syntax tree ends in the same way and with the same
registers: if no read of the graph is misled and the structurer has dropped no edge that the
graph takes. -/
theorem tree_ends_as_cpu {name : String} {bytes : List UInt8} {base : Address}
    {f g out : Function} {text : String} (hf : Arch.x86.processFunction name bytes base = .ok f)
    (hg : build f = .ok g) (hout : runPhase2 f = .ok (out, text))
    {callee : BranchTarget → State → State} {cpuCallee : Address → Cpu → Cpu}
    (hcallee : SameEffect callee cpuCallee) {σ : State} {c : Cpu} (hm : Matches σ c)
    (hfollowed : Followed callee g out σ) {pc : Address} {c' : Cpu}
    (hpc : pc ∈ (stream f).map LiftedInstruction.address)
    (hruns : Relation.ReflTransGen (RecordedStep cpuCallee bytes base (stream f)) (base, c)
      (pc, c')) {i : X86Instruction} {length : ℕ} (hfetch : Fetches bytes base pc i length)
    {c'' : Cpu} {control : Control} (hexec : i.exec cpuCallee pc length c' = (c'', control))
    {code : Code} (hends : Ends ((stream f).map LiftedInstruction.address) control code) :
    ∃ ast, out.ast = some ast ∧ ∃ σ', AstRuns callee ast (.run [ast], σ) (code, σ') ∧
      Matches σ' c'' := by
  obtain ⟨r, ast, han, hend⟩ :=
    exists_astRuns hf hg hout hcallee hm hfollowed hpc hruns hfetch hexec hends
  exact ⟨ast, han.ast, hend⟩

/-- `mov eax, 5; cmp eax, 5; je` over `mov eax, 7`, `ret` -/
def fiveTest : List UInt8 :=
  [0xB8, 0x05, 0x00, 0x00, 0x00, 0x3D, 0x05, 0x00, 0x00, 0x00, 0x74, 0x05,
    0xB8, 0x07, 0x00, 0x00, 0x00, 0xC3]

def fiveTestCpu : Cpu := { Cpu.zero.set .eax 5 with zf := true }

theorem fetches_fiveTest_ret : Fetches fiveTest 0x1000 0x1011 .ret 1 :=
  ⟨17, rfl, by decide, .ret⟩

theorem runs_fiveTest : ∃ f g out text, Arch.x86.processFunction "input" fiveTest 0x1000 = .ok f ∧
    build f = .ok g ∧ runPhase2 f = .ok (out, text) ∧ Followed (fun _ σ => σ) g out .zero ∧
    0x1011 ∈ (stream f).map LiftedInstruction.address ∧
    Relation.ReflTransGen (RecordedStep (fun _ c => c) fiveTest 0x1000 (stream f))
      (0x1000, .zero) (0x1011, fiveTestCpu) := by
  have hrun : ∃ f, Arch.x86.processFunction "input" fiveTest 0x1000 = .ok f ∧
      (stream f).map LiftedInstruction.address = [0x1000, 0x1005, 0x100A, 0x100C, 0x1011] ∧
      ∃ g, build f = .ok g ∧ ∃ p, runPhase2 f = .ok p ∧
        (∀ b ∈ g.blocks, ∀ op ∈ b.ops, op.isCall = false) ∧
        (Cfg.run (fun _ σ => σ) g.blocks ⟨g.entry, 0, .zero⟩ 5).isNone ∧
        (∀ m ∈ List.range 5, ∀ c ∈ Cfg.run (fun _ σ => σ) g.blocks ⟨g.entry, 0, .zero⟩ m,
          ∀ op ∈ opAt g.blocks c, ∀ v ∈ op.operands, v.space = .constant ∨
            v.location ∈ settledAfter (fun _ σ => σ) g.blocks ⟨g.entry, 0, .zero⟩ m) ∧
        ∀ b ∈ p.1.blocks, ∀ o, SafeAt p.1 (fun _ => o) ⟨.block b.startAddress, 0, []⟩ := by
    decide +kernel
  obtain ⟨f, hf, haddrs, g, hg, ⟨out, text⟩, hout, hcalls, hend, hread, hsafe⟩ := hrun
  have hfollowed : Followed (fun _ σ => σ) g out .zero :=
    .of_settled State.bounded_zero hcalls (Option.isNone_iff_eq_none.mp hend) hread hsafe
  have hmov : Fetches fiveTest 0x1000 0x1000 (.movRegImm .eax 5) 5 :=
    ⟨0, rfl, by decide, .mov_r32_imm32 .eax 5⟩
  have hcmp : Fetches fiveTest 0x1000 0x1005 (.cmpRegImm .eax 5) 5 :=
    ⟨5, rfl, by decide, .cmp_eax_imm32 5⟩
  have hje : Fetches fiveTest 0x1000 0x100A (.je 5) 2 := ⟨10, rfl, by decide, .je_rel8 5⟩
  refine ⟨f, g, out, text, hf, hg, hout, hfollowed, by simp [haddrs], ?_⟩
  exact ((Relation.ReflTransGen.single ⟨.fall hmov rfl rfl, by simp [haddrs]⟩).tail
    ⟨.fall hcmp rfl rfl, by simp [haddrs]⟩).tail ⟨.jump hje rfl, by simp [haddrs]⟩

theorem tree_ends_as_cpu_fiveTest : ∃ f, Arch.x86.processFunction "input" fiveTest 0x1000 = .ok f ∧
    ∃ out text, runPhase2 f = .ok (out, text) ∧ ∃ ast, out.ast = some ast ∧
      ∃ σ', AstRuns (fun _ σ => σ) ast (.run [ast], .zero) (.finished, σ') ∧
        σ'.read (regVarnode .eax) = 5 := by
  obtain ⟨f, g, out, text, hf, hg, hout, hfollowed, hpc, hruns⟩ := runs_fiveTest
  have heffect : SameEffect (fun _ σ => σ) fun _ c => c := fun _ _ _ h => h
  obtain ⟨ast, hast, σ', hexec, hm⟩ := tree_ends_as_cpu hf hg hout heffect matches_zero hfollowed
    hpc hruns fetches_fiveTest_ret rfl .returns
  exact ⟨f, hf, out, text, hout, ast, hast, σ', hexec, hm.regs .eax⟩

end X86

namespace Arm

/-- A step of the processor to a recorded address, but by no `B.NE` that goes astray. -/
def RecordedStep (cpuCallee : Address → Cpu → Cpu) (bytes : List UInt8) (base : Address)
    (lis : List LiftedInstruction) (x y : Option Address × Cpu) : Prop :=
  CpuStep cpuCallee bytes base x y ∧ ¬ Misbranches bytes base x.1 ∧
    ∃ li ∈ lis, some li.address = y.1

theorem streamExec_of_liftedStep {callee : BranchTarget → State → State}
    {lis : List LiftedInstruction} (hnd : (lis.map LiftedInstruction.address).Nodup)
    {li next : LiftedInstruction} (hli : li ∈ lis) (hnext : next ∈ lis) {σ σ' : State}
    (h : LiftedStep callee lis (some li.address, σ) (some next.address, σ')) :
    StreamExec callee lis (li, σ) (next, σ') := by
  generalize hx : (some li.address, σ) = x at h
  generalize hy : (some next.address, σ') = y at h
  cases h with
  | @fall li' next' _ _ follows exec =>
    obtain ⟨haddr, rfl⟩ := Prod.mk.inj hx
    obtain ⟨haddr', rfl⟩ := Prod.mk.inj hy
    obtain rfl := List.inj_on_of_nodup_map hnd hli follows.mem_left (Option.some.inj haddr)
    obtain rfl := List.inj_on_of_nodup_map hnd hnext follows.mem_right (Option.some.inj haddr')
    exact .next follows exec
  | @jump li' target _ _ mem exec =>
    obtain ⟨haddr, rfl⟩ := Prod.mk.inj hx
    obtain ⟨haddr', rfl⟩ := Prod.mk.inj hy
    obtain rfl := List.inj_on_of_nodup_map hnd hli mem (Option.some.inj haddr)
    obtain rfl := Option.some.inj haddr'
    exact .taken hnext exec
  | stop => cases hy

section Runs

variable {bytes : List UInt8} {base : Address} {lis : List LiftedInstruction}
  (hlis : LiftsWords bytes base lis) (hlifted : IsLifted base lis)
  {callee : BranchTarget → State → State} {cpuCallee : Address → Cpu → Cpu}
  (hcallee : SameEffect callee cpuCallee)

include hlis hlifted hcallee

theorem simulates_streamExec : Simulation.Simulates (RecordedStep cpuCallee bytes base lis)
    (StreamExec callee lis) fun x y => y.1 ∈ lis ∧ some y.1.address = x.1 ∧ Matches y.2 x.2 := by
  rintro ⟨place, c⟩ z ⟨li, σ⟩ ⟨hli, rfl, hm⟩ ⟨hcpu, hbranch, next, hnext, hnext_addr⟩
  have hrecorded : ∀ {li : LiftedInstruction} {place : Option Address}, li ∈ lis →
      some li.address = place → Recorded lis place := by
    rintro li _ hli rfl pc hpc
    exact Option.some.inj hpc ▸ List.mem_map_of_mem hli
  obtain ⟨σ', hstep, hm'⟩ := exists_liftedStep hlis hcallee (hrecorded hli rfl)
    (hrecorded hnext hnext_addr) hcpu hbranch hm
  rw [← hnext_addr] at hstep
  exact ⟨(next, σ'), streamExec_of_liftedStep hlifted.nodup hli hnext hstep, hnext, hnext_addr, hm'⟩

theorem exists_streamExec {first : LiftedInstruction} (hfirst : lis.head? = some first) {σ : State}
    {c : Cpu} (hm : Matches σ c) {y : Option Address × Cpu}
    (hruns : Relation.ReflTransGen (RecordedStep cpuCallee bytes base lis) (some base, c) y) :
    ∃ li ∈ lis, some li.address = y.1 ∧ ∃ σ', Matches σ' y.2 ∧
      Relation.ReflTransGen (StreamExec callee lis) (first, σ) (li, σ') := by
  induction hruns with
  | refl =>
    exact ⟨first, List.mem_of_head? hfirst, congrArg some (hlifted.head first hfirst), σ, hm, .refl⟩
  | tail _ hstep ih =>
    obtain ⟨li, hli, haddr, σ', hm', hexec⟩ := ih
    obtain ⟨⟨next, σ''⟩, hnext_exec, hnext, hnext_addr, hm''⟩ :=
      simulates_streamExec hlis hlifted hcallee (u := (li, σ')) ⟨hli, haddr, hm'⟩ hstep
    exact ⟨next, hnext, hnext_addr, σ'', hm'', hexec.tail hnext_exec⟩

end Runs

theorem exists_astRuns {name : String} {bytes : List UInt8} {base : Address}
    {f g out : Function} {text : String} (hf : Arch.arm.processFunction name bytes base = .ok f)
    (hg : build f = .ok g) (hout : runPhase2 f = .ok (out, text))
    {callee : BranchTarget → State → State} {cpuCallee : Address → Cpu → Cpu}
    (hcallee : SameEffect callee cpuCallee) {σ : State} {c : Cpu} (hm : Matches σ c)
    (hfollowed : Followed callee g out σ) {pc : Address} {c' : Cpu}
    (hpc : pc ∈ (stream f).map LiftedInstruction.address)
    (hruns : Relation.ReflTransGen (RecordedStep cpuCallee bytes base (stream f)) (some base, c)
      (some pc, c')) {i : ArmInstruction} (hfetch : Fetches bytes base pc i)
    (hi : ∀ rel, i ≠ .bne rel) {c'' : Cpu} {control : Control}
    (hexec : i.exec cpuCallee pc c' = some (c'', control)) {code : Code}
    (hends : Ends ((stream f).map LiftedInstruction.address) control code) :
    ∃ r ast, Analysed (stream f) g out r ast ∧
      ∃ σ', AstRuns callee ast (.run [ast], σ) (code, σ') ∧ Matches σ' c'' := by
  have hlis := processFunction_liftsWords hf
  obtain ⟨lis, rfl, hlifted⟩ := Arch.processFunction_eq_ok hf
  rw [stream_ofStream] at hpc hruns hends hlis ⊢
  obtain ⟨hentry, r, ast, han⟩ := analysed_of_runPhase2 hlifted hg hout
  obtain ⟨first, hfirst⟩ : ∃ first, lis.head? = some first := by
    obtain ⟨li, hli, -⟩ := List.mem_map.mp hpc
    exact ⟨_, List.head?_eq_some_head (List.ne_nil_of_mem hli)⟩
  obtain ⟨li, hli, haddr, σ₁, hm₁, hstreams⟩ :=
    exists_streamExec hlis hlifted hcallee hfirst hm hruns
  obtain rfl := Option.some.inj haddr
  obtain ⟨j, length, temps, temps', hfetch', hlift⟩ := hlis.fetches hli
  obtain rfl := hfetch.unique hfetch'
  obtain ⟨σ', hσ', hm'⟩ := execTo_lift hcallee hm₁ hi hlift hexec
  exact ⟨r, ast, han, σ', han.exec hfollowed hfirst hstreams hσ' hends, hm'⟩

/-- The same for words, up to an instruction other than `B.NE` that returns or leaves. -/
theorem tree_ends_as_words {name : String} {bytes : List UInt8} {base : Address}
    {f g out : Function} {text : String} (hf : Arch.arm.processFunction name bytes base = .ok f)
    (hg : build f = .ok g) (hout : runPhase2 f = .ok (out, text))
    {callee : BranchTarget → State → State} {cpuCallee : Address → Cpu → Cpu}
    (hcallee : SameEffect callee cpuCallee) {σ : State} {c : Cpu} (hm : Matches σ c)
    (hfollowed : Followed callee g out σ) {pc : Address} {c' : Cpu}
    (hpc : pc ∈ (stream f).map LiftedInstruction.address)
    (hruns : Relation.ReflTransGen (RecordedStep cpuCallee bytes base (stream f)) (some base, c)
      (some pc, c')) {i : ArmInstruction} (hfetch : Fetches bytes base pc i)
    (hi : ∀ rel, i ≠ .bne rel) {c'' : Cpu} {control : Control}
    (hexec : i.exec cpuCallee pc c' = some (c'', control)) {code : Code}
    (hends : Ends ((stream f).map LiftedInstruction.address) control code) :
    ∃ ast, out.ast = some ast ∧ ∃ σ', AstRuns callee ast (.run [ast], σ) (code, σ') ∧
      Matches σ' c'' := by
  obtain ⟨r, ast, han, hend⟩ :=
    exists_astRuns hf hg hout hcallee hm hfollowed hpc hruns hfetch hi hexec hends
  exact ⟨ast, han.ast, hend⟩

/-- `mov x0, #1; mov x1, #1; cmp x0, x1; b.eq` over `mov x0, #7`, `ret` -/
def onesTest : List UInt8 :=
  [0x20, 0x00, 0x00, 0x10, 0x21, 0x00, 0x00, 0x10, 0x20, 0x00, 0x00, 0x13,
    0x08, 0x00, 0x00, 0x16, 0xE0, 0x00, 0x00, 0x10, 0x00, 0x00, 0x00, 0x18]

def onesTestCpu : Cpu where
  regs r := if r.number.val < 2 then 1 else 0
  equal := some true

theorem fetches_onesTest_ret : Fetches onesTest 0x1000 0x1014 .ret :=
  ⟨5, 0x18000000, rfl, rfl, .ret (by decide)⟩

theorem runs_onesTest : ∃ f g out text, Arch.arm.processFunction "input" onesTest 0x1000 = .ok f ∧
    build f = .ok g ∧ runPhase2 f = .ok (out, text) ∧ Followed (fun _ σ => σ) g out .zero ∧
    0x1014 ∈ (stream f).map LiftedInstruction.address ∧
    Relation.ReflTransGen (RecordedStep (fun _ c => c) onesTest 0x1000 (stream f))
      (some 0x1000, .zero) (some 0x1014, onesTestCpu) := by
  have hrun : ∃ f, Arch.arm.processFunction "input" onesTest 0x1000 = .ok f ∧
      (stream f).map LiftedInstruction.address =
        [0x1000, 0x1004, 0x1008, 0x100C, 0x1010, 0x1014] ∧
      ∃ g, build f = .ok g ∧ ∃ p, runPhase2 f = .ok p ∧
        (∀ b ∈ g.blocks, ∀ op ∈ b.ops, op.isCall = false) ∧
        (Cfg.run (fun _ σ => σ) g.blocks ⟨g.entry, 0, .zero⟩ 8).isNone ∧
        (∀ m ∈ List.range 8, ∀ c ∈ Cfg.run (fun _ σ => σ) g.blocks ⟨g.entry, 0, .zero⟩ m,
          ∀ op ∈ opAt g.blocks c, ∀ v ∈ op.operands, v.space = .constant ∨
            v.location ∈ settledAfter (fun _ σ => σ) g.blocks ⟨g.entry, 0, .zero⟩ m) ∧
        ∀ b ∈ p.1.blocks, ∀ o, SafeAt p.1 (fun _ => o) ⟨.block b.startAddress, 0, []⟩ := by
    decide +kernel
  obtain ⟨f, hf, haddrs, g, hg, ⟨out, text⟩, hout, hcalls, hend, hread, hsafe⟩ := hrun
  have hfollowed : Followed (fun _ σ => σ) g out .zero :=
    .of_settled State.bounded_zero hcalls (Option.isNone_iff_eq_none.mp hend) hread hsafe
  have hmov₀ : Fetches onesTest 0x1000 0x1000 (.movRegImm ⟨0⟩ 1) :=
    ⟨0, 0x10000020, rfl, rfl, .mov (by decide)⟩
  have hmov₁ : Fetches onesTest 0x1000 0x1004 (.movRegImm ⟨1⟩ 1) :=
    ⟨1, 0x10000021, rfl, rfl, .mov (by decide)⟩
  have hcmp : Fetches onesTest 0x1000 0x1008 (.cmpRegReg ⟨0⟩ ⟨1⟩) :=
    ⟨2, 0x13000020, rfl, rfl, .cmp (by decide)⟩
  have hbeq : Fetches onesTest 0x1000 0x100C (.beq 8) :=
    ⟨3, 0x16000008, rfl, rfl, .b_eq (by decide)⟩
  have hstay : ∀ {pc : Address} {i : ArmInstruction}, Fetches onesTest 0x1000 pc i →
      (∀ rel, i ≠ .bne rel) → ¬ Misbranches onesTest 0x1000 (some pc) := by
    rintro pc i hfetch hi ⟨_, rel, ⟨⟩, hfetch', -⟩
    exact hi rel (hfetch.unique hfetch')
  have hat : ∀ a ∈ [0x1000, 0x1004, 0x1008, 0x100C, 0x1010, 0x1014],
      ∃ li ∈ stream f, some li.address = some a := by
    intro a ha
    rw [← haddrs] at ha
    obtain ⟨li, hli, rfl⟩ := List.mem_map.mp ha
    exact ⟨li, hli, rfl⟩
  have hcpu : onesTestCpu = { (Cpu.zero.set ⟨0⟩ 1).set ⟨1⟩ 1 with equal := some true } := by
    refine congrArg (Cpu.mk · _) (funext fun r => ?_)
    obtain ⟨n⟩ := r
    decide +revert
  refine ⟨f, g, out, text, hf, hg, hout, hfollowed, by simp [haddrs], ?_⟩
  rw [hcpu]
  exact (((Relation.ReflTransGen.single
    ⟨.step hmov₀ rfl (.fall rfl), hstay hmov₀ nofun, hat 0x1004 (by decide)⟩).tail
    ⟨.step hmov₁ rfl (.fall rfl), hstay hmov₁ nofun, hat 0x1008 (by decide)⟩).tail
    ⟨.step hcmp rfl (.fall rfl), hstay hcmp nofun, hat 0x100C (by decide)⟩).tail
    ⟨.step hbeq rfl (.jump _), hstay hbeq nofun, hat 0x1014 (by decide)⟩

theorem tree_ends_as_words_onesTest :
    ∃ f, Arch.arm.processFunction "input" onesTest 0x1000 = .ok f ∧
      ∃ out text, runPhase2 f = .ok (out, text) ∧ ∃ ast, out.ast = some ast ∧
        ∃ σ', AstRuns (fun _ σ => σ) ast (.run [ast], .zero) (.finished, σ') ∧
          σ'.read (reg ⟨0⟩) = 1 := by
  obtain ⟨f, g, out, text, hf, hg, hout, hfollowed, hpc, hruns⟩ := runs_onesTest
  have heffect : SameEffect (fun _ σ => σ) fun _ c => c := fun _ _ _ h => h
  obtain ⟨ast, hast, σ', hexec, hm⟩ := tree_ends_as_words hf hg hout heffect matches_zero hfollowed
    hpc hruns fetches_onesTest_ret nofun rfl .returns
  exact ⟨f, hf, out, text, hout, ast, hast, σ', hexec, hm.regs ⟨0⟩⟩

end Arm

end Decompiler
