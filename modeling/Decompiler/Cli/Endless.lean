import Decompiler.Cli.Printed
import Decompiler.Structurer.Divergence

/-! # Running forever

The printed function runs forever where the processor does, and for x86 nowhere else: a processor
that comes off the recorded addresses has returned, left the function or run behind its last
instruction, and in all three cases the printed function ends.
-/

namespace Decompiler

open Cfg Output Structurer ConstProp Dataflow CLanguage Decompiler.Types Divergence StateTransition

section Machine

variable {callee : BranchTarget → State → State} {bs : List BasicBlock} {c : Cfg.Config}

theorem Cfg.dom_of_run_eq_none {n : ℕ} (h : Cfg.run callee bs c n = none) :
    (eval (Cfg.step callee bs) c).Dom := by
  induction n with
  | zero => cases h
  | succ n ih =>
    rw [Cfg.run] at h
    cases hn : Cfg.run callee bs c n with
    | none => exact ih hn
    | some d =>
      rw [hn] at h
      exact dom_iff.mpr ⟨d, RunsTo.reaches ⟨n, hn⟩, h⟩

end Machine

theorem Followed.of_literals {callee : BranchTarget → State → State} {g out : Function} {σ : State}
    (hbounded : σ.Bounded) (hcalls : CallFree g)
    (hread : ∀ b ∈ g.blocks, ∀ op ∈ b.ops, ∀ v ∈ op.operands, v.space = .constant)
    (hsafe : ∀ b ∈ out.blocks, ∀ o, SafeAt out (fun _ => o) ⟨.block b.startAddress, 0, []⟩) :
    Followed callee g out σ where
  bounded := hbounded
  calls := hcalls
  read n c _ := by
    rintro ⟨op, hop, v, hv, hspace, -⟩
    obtain ⟨b, hb, hget⟩ := Option.bind_eq_some_iff.mp hop
    exact hspace (hread b (List.mem_of_find?_eq_some hb) op (List.mem_of_getElem? hget) v hv)
  safe x _ := .of_forall hsafe x

namespace Analysed

variable {flat : List LiftedInstruction} {g out : Function}
  {r : DataflowResult ConstState} {ast : HighLevelAst} (h : Analysed flat g out r ast)
  {callee : BranchTarget → State → State} {σ : State} {first : LiftedInstruction}
  (hfirst : flat.head? = some first)

include h

theorem wellFormed : ∀ b ∈ out.blocks, ∀ op ∈ b.ops, op.WellFormed := by
  have hrun : ConstProp.run g = .ok (rewrite g r) := by rw [ConstProp.run, h.solved]; rfl
  have hwf : ∀ b ∈ g.blocks, ∀ op ∈ b.ops, op.WellFormed :=
    fun b hb op hop => h.graph.wellFormed h.lifted hb hop
  rw [h.blocks]
  exact fun b hb op hop => (wellFormed_of_run hwf hrun b hb op hop).1

theorem ast_of_nil (hnil : flat = []) : ast = .seq [] := by
  have hblocks : g.blocks = [] := by
    rw [List.eq_nil_iff_forall_not_mem]
    intro b hb
    have hflat := h.graph.cfg.split.flatten
    rw [hnil, List.flatMap_eq_nil_iff] at hflat
    exact h.graph.cfg.split.instructions_ne_nil hb (hflat b hb)
  have hast := h.structured
  rw [doStructure, if_pos (by rw [h.blocks, rewrite_blocks, hblocks]; rfl)] at hast
  exact (Except.ok.inj hast).symm

include hfirst

theorem not_dom_of_endless (hops : ∀ li ∈ flat, li.ops ≠ [])
    (hend : Endless (StreamExec callee flat) (first, σ)) :
    ¬ (eval (Cfg.step callee g.blocks) ⟨g.entry, 0, σ⟩).Dom := by
  have hsim : Simulation.Simulates (StreamExec callee flat) (Reaches₁ (Cfg.step callee g.blocks))
      fun x c => x.1 ∈ flat ∧ Before g.blocks x.1 c ∧ c.state = x.2 := by
    rintro x y c ⟨hx, hc, hσ⟩ hstep
    have hy : y.1 ∈ flat := by
      cases hstep with
      | next follows => exact follows.mem_right
      | taken target_mem => exact target_mem
    obtain ⟨d, -, hreaches, hd, hσ'⟩ := h.graph.cfg.exists_of_streamExec h.graph.nodup hc hσ hstep
    exact ⟨d, hreaches (hops _ hx), hy, hd, hσ'⟩
  exact hend.not_dom hsim ⟨List.mem_of_head? hfirst, h.before_entry hfirst σ, rfl⟩

variable (hf : Followed callee g out σ)

include hf

/-- The syntax tree runs forever if the recorded instructions do. -/
theorem not_dom_ast (hops : ∀ li ∈ flat, li.ops ≠ [])
    (hend : Endless (StreamExec callee flat) (first, σ)) :
    ¬ (eval (astExec callee ast) (.run [ast], σ)).Dom := by
  intro hdom
  have hne : flat ≠ [] := List.ne_nil_of_mem (List.mem_of_head? hfirst)
  obtain ⟨backEdges, s, hw⟩ := exists_walk h.result h.yielded (h.out_blocks_ne_nil hne)
  obtain rfl := Except.ok.inj (h.structured.symm.trans hw.ast)
  have hgraph := (hw.eval_iff h.terminator_last h.wellFormed hf.safe).1.mpr hdom
  obtain ⟨n, hn⟩ := exists_run_eq_none h.result.nodup_starts h.wellFormed hgraph
  rw [(h.tracks_run hf hne n).1] at hn
  exact h.not_dom_of_endless hfirst hops hend (dom_of_run_eq_none hn)

theorem exec_behind {li : LiftedInstruction} {σ₁ σ₂ : State}
    (hruns : Relation.ReflTransGen (StreamExec callee flat) (first, σ) (li, σ₁))
    (hexec : execOps callee li.ops σ₁ = some (σ₂, .fall)) (hlast : ∀ next, ¬ Follows flat li next) :
    AstRuns callee ast (.run [ast], σ) (.finished, σ₂) := by
  have hne : flat ≠ [] := List.ne_nil_of_mem (List.mem_of_head? hfirst)
  obtain ⟨c, hc, hli, rfl⟩ := h.graph.cfg.runsTo_of_streamExec h.graph.nodup
    (h.before_entry hfirst σ) rfl hruns
  obtain ⟨d, hd, rfl, hop, hnext⟩ := h.graph.cfg.runsTo_end h.graph.nodup hli hexec hlast
  obtain ⟨n, hn⟩ := hc.trans hd
  obtain ⟨b, hin⟩ := ((h.tracks_run hf hne n).2 d hn).exists_in
  have hsolved := solveForward_solved h.graph.nodup_starts h.graph.edgesReversed h.solved
  have hop' : opAt out.blocks d = none := by
    rw [h.blocks, opAt_rewrite h.graph.nodup_starts hsolved hin, hop, Option.map_none]
  have hnext' : nextAfter out.blocks d.block = none := by
    rw [h.blocks, rewrite_blocks, nextAfter_map, hnext]
  obtain ⟨code, hcode, hagrees⟩ := h.exec_place hf hne
    ((h.within hf hne ⟨n, hn⟩).finished h.result hop' hnext')
  exact hagrees.finished rfl ▸ hcode

end Analysed

theorem Rendered.not_dom_body {regs : List Varnode} {out : Function} {ast : HighLevelAst}
    (h : Rendered regs out ast) (ident : String) {outer : String → IntType}
    (houter : ∀ v ∈ regs, outer (nameOf v) = .unsigned v.size.toNat)
    {callee : BranchTarget → State → State} {callee' : String → Env Bytes → Env Bytes}
    (hcalls : SameCalls (varsOf regs (programOps out)) callee callee') {ρ : Env Bytes} {σ : State}
    (hρ : Holds (varsOf regs (programOps out)) ρ σ) (hσ : σ.Bounded)
    (hast : ¬ (eval (astExec callee ast) (.run [ast], σ)).Dom) :
    ¬ (eval (CLanguage.step ((toC out ident ast).typeOf outer) callee' (body ast))
      (.run (body ast), ρ)).Dom := by
  intro hdom
  have hplain : PlainCode (varsOf regs (programOps out)) (.run [ast]) :=
    h.plainLines.mono fun line hline => by simpa [nodeLines] using hline
  have hstart : codeBody (.run [ast]) = .run (body ast) := by
    rw [codeBody, nodesBody, nodesBody, List.append_nil]
  exact hast (dom_of_dom_body (h.scope ident houter) hcalls h.plainLines
    ⟨hstart.symm, hplain, hρ, hσ⟩ hdom)

namespace X86

theorem lift_ne_nil {i : X86Instruction} {address : Address} {length : ℕ}
    {temps temps' : TempAllocator} {ops : List Instruction}
    (h : lift i address length temps = .ok (ops, temps')) : ops ≠ [] := by
  cases i with
  | jmp rel | je rel | call rel =>
    obtain ⟨target, -, h⟩ := Fallible.bind_eq_ok.mp h
    obtain ⟨rfl, -⟩ := Prod.mk.inj (Except.ok.inj h)
    exact nofun
  | jne rel =>
    obtain ⟨target, -, h⟩ := Fallible.bind_eq_ok.mp h
    obtain ⟨fresh, -, h⟩ := Fallible.bind_eq_ok.mp h
    obtain ⟨rfl, -⟩ := Prod.mk.inj (Except.ok.inj h)
    exact nofun
  | cmpRegReg | cmpRegImm =>
    obtain ⟨fresh, -, h⟩ := Fallible.bind_eq_ok.mp h
    obtain ⟨rfl, -⟩ := Prod.mk.inj (Except.ok.inj h)
    exact nofun
  | _ =>
    obtain ⟨rfl, -⟩ := Prod.mk.inj (Except.ok.inj h)
    exact nofun

theorem exec_ne_indirect (cpuCallee : Address → Cpu → Cpu) (pc : Address) (length : ℕ) (c : Cpu)
    (i : X86Instruction) : (i.exec cpuCallee pc length c).2 ≠ .jump .indirect := by
  cases i with
  | je | jne =>
    unfold X86Instruction.exec
    cases c.zf <;> simp
  | _ => exact nofun

section Ends

variable {bytes : List UInt8} {base : Address} {lis : List LiftedInstruction}
  (hdec : Decodes backend bytes base 0 .new lis) {g out : Function}
  {r : DataflowResult ConstState} {ast : HighLevelAst} (h : Analysed lis g out r ast)
  {callee : BranchTarget → State → State} {cpuCallee : Address → Cpu → Cpu}
  (hcallee : SameEffect callee cpuCallee) {σ : State} (hf : Followed callee g out σ) {c : Cpu}
  (hm : Matches σ c)

include hdec h hcallee hf hm

theorem not_dom_ast (hend : Endless (RecordedStep cpuCallee bytes base lis) (base, c)) :
    ¬ (eval (astExec callee ast) (.run [ast], σ)).Dom := by
  obtain ⟨y, hstep, -⟩ := hend.exists_step
  obtain ⟨first, hfirst⟩ : ∃ first, lis.head? = some first := by
    obtain ⟨li, hli, -⟩ := List.mem_map.mp hstep.2
    exact ⟨_, List.head?_eq_some_head (List.ne_nil_of_mem hli)⟩
  have hops : ∀ li ∈ lis, li.ops ≠ [] := by
    intro li hli
    obtain ⟨i, length, temps, temps', -, hlift, -⟩ := fetches_of_mem hdec hli
    exact lift_ne_nil hlift
  have haddr : first.address = base := (hdec.isLifted lawful).head first hfirst
  exact h.not_dom_ast hfirst hf hops (hend.simulated (simulates_streamExec hdec hcallee)
    ⟨List.mem_of_head? hfirst, haddr, hm⟩)

/-- A processor that comes off the recorded addresses has returned, jumped to another address or
passed the last instruction, and the syntax tree ends there. -/
theorem exists_end (hend : ¬ Endless (RecordedStep cpuCallee bytes base lis) (base, c)) :
    ∃ code σ', AstRuns callee ast (.run [ast], σ) (code, σ') ∧ ∀ nodes, code ≠ .run nodes := by
  cases hhead : lis.head? with
  | none =>
    obtain rfl := h.ast_of_nil (List.head?_eq_none_iff.mp hhead)
    exact ⟨.finished, σ, .head rfl (.single rfl), nofun⟩
  | some first =>
    obtain ⟨⟨pc, c'⟩, hruns, hstuck⟩ := exists_stuck hend
    obtain ⟨li, hli, rfl, σ₁, hm₁, hstreams⟩ := exists_streamExec hdec hcallee hhead hm hruns
    obtain ⟨i, length, temps, temps', hfetch, hlift, hnext⟩ := fetches_of_mem hdec hli
    have hexec := execTo_lift hcallee hm₁ hlift
    have hdirect := exec_ne_indirect cpuCallee li.address length c' i
    obtain ⟨⟨c'', control⟩, hcpu⟩ : ∃ result, i.exec cpuCallee li.address length c' = result :=
      ⟨_, rfl⟩
    rw [hcpu] at hexec hdirect
    obtain ⟨σ', hσ', -⟩ := hexec
    cases control with
    | stop => exact ⟨.finished, σ', h.exec hf hhead hstreams hσ' .returns, nofun⟩
    | fall =>
      have hlast : ∀ next, ¬ Follows lis li next := by
        intro next hfollows
        obtain ⟨next', hfollows', haddr⟩ := hnext next (.inl hfollows)
        exact hstuck (next'.address, c'')
          ⟨.fall hfetch hcpu haddr, List.mem_map_of_mem hfollows'.mem_right⟩
      exact ⟨.finished, σ', h.exec_behind hhead hf hstreams hσ' hlast, nofun⟩
    | jump target =>
      cases target with
      | indirect => exact absurd rfl hdirect
      | absolute t =>
        have houtside : t ∉ lis.map LiftedInstruction.address :=
          fun hmem => hstuck (t, c'') ⟨.jump hfetch hcpu, hmem⟩
        exact ⟨.left t, σ', h.exec hf hhead hstreams hσ' (.leaves houtside), nofun⟩

end Ends

/-- The printed function runs forever if and only if the processor stays on the recorded addresses
forever. -/
theorem pseudocode_runs_forever_iff {name : String} {bytes : List UInt8} {base : Address}
    {f g out : Function} {text : String} (hf : Arch.x86.processFunction name bytes base = .ok f)
    (hg : build f = .ok g) (hout : runPhase2 f = .ok (out, text))
    {callee : BranchTarget → State → State} {cpuCallee : Address → Cpu → Cpu}
    {callee' : String → Env Bytes → Env Bytes} (hcallee : SameEffect callee cpuCallee)
    (hcalls : SameCalls (varsOf registers (programOps out)) callee callee')
    {outer : String → IntType}
    (houter : ∀ v ∈ registers, outer (nameOf v) = .unsigned v.size.toNat)
    {ρ : Env Bytes} {σ : State} {c : Cpu} (hρ : Holds (varsOf registers (programOps out)) ρ σ)
    (hm : Matches σ c) (hfollowed : Followed callee g out σ) :
    ∃ ident ast, text = header out.name ++ (toC out ident ast).text ∧
      ((∀ y, Runs ((toC out ident ast).typeOf outer) callee' (toC out ident ast).body
          (.run (toC out ident ast).body, ρ) y →
        (CLanguage.step ((toC out ident ast).typeOf outer) callee'
          (toC out ident ast).body y).isSome) ↔
      Endless (RecordedStep cpuCallee bytes base (stream f)) (base, c)) := by
  obtain ⟨lis, heq, hdec⟩ := processFunction_decodes hf
  obtain rfl : f = .ofStream name base lis := heq
  rw [stream_ofStream]
  obtain ⟨-, r, ast, han⟩ := analysed_of_runPhase2 (hdec.isLifted lawful) hg hout
  have hrendered := han.rendered hf
  obtain ⟨ident, -, htext, hprinted⟩ := hrendered.printed (passes_of_runPhase2 hout).2
  refine ⟨ident, ast, htext, not_dom_iff.symm.trans ⟨fun hforever => ?_, fun hend => ?_⟩⟩
  · by_contra hend
    obtain ⟨code, σ', hruns, hlast⟩ := exists_end hdec han hcallee hfollowed hm hend
    obtain ⟨ρ', hbody, -⟩ :=
      hprinted outer houter callee callee' hcalls ρ σ hρ hfollowed.bounded code σ' hruns
    refine hforever (dom_iff.mpr ⟨_, hbody, ?_⟩)
    cases code with
    | run nodes => exact absurd rfl (hlast nodes)
    | left | finished => rfl
  · exact hrendered.not_dom_body ident houter hcalls hρ hfollowed.bounded
      (not_dom_ast hdec han hcallee hfollowed hm hend)

/-- `mov eax, 5`, then `jmp` to itself -/
def spinLoop : List UInt8 := [0xB8, 0x05, 0x00, 0x00, 0x00, 0xEB, 0xFE]

theorem pseudocode_runs_forever_iff_spinLoop :
    ∃ f, Arch.x86.processFunction "input" spinLoop 0x1000 = .ok f ∧
      ∃ out text, runPhase2 f = .ok (out, text) ∧
        ∃ ident ast Γ, text = header out.name ++ (toC out ident ast).text ∧
          ∀ y, Runs Γ (fun _ ρ => ρ) (toC out ident ast).body
              (.run (toC out ident ast).body, (⟨fun _ => 0, State.zero.memory⟩ : Env Bytes)) y →
            (CLanguage.step Γ (fun _ ρ => ρ) (toC out ident ast).body y).isSome := by
  have hrun : ∃ f, Arch.x86.processFunction "input" spinLoop 0x1000 = .ok f ∧
      (stream f).map LiftedInstruction.address = [0x1000, 0x1005] ∧
      ∃ g, build f = .ok g ∧ ∃ p, runPhase2 f = .ok p ∧
        (∀ b ∈ g.blocks, ∀ op ∈ b.ops, op.isCall = false) ∧
        (∀ b ∈ g.blocks, ∀ op ∈ b.ops, ∀ v ∈ op.operands, v.space = .constant) ∧
        ∀ b ∈ p.1.blocks, ∀ o, SafeAt p.1 (fun _ => o) ⟨.block b.startAddress, 0, []⟩ := by
    decide +kernel
  obtain ⟨f, hf, haddrs, g, hg, ⟨out, text⟩, hout, hcalls, hread, hsafe⟩ := hrun
  have hfollowed : Followed (fun _ σ => σ) g out .zero :=
    .of_literals State.bounded_zero hcalls hread hsafe
  have heffect : SameEffect (fun _ σ => σ) fun _ c => c := fun _ _ _ h => h
  obtain ⟨ident, ast, htext, hiff⟩ := pseudocode_runs_forever_iff hf hg hout heffect (.id _)
    outerType_registers (.zero _) matches_zero hfollowed
  have hmov : Fetches spinLoop 0x1000 0x1000 (.movRegImm .eax 5) 5 :=
    ⟨0, rfl, by decide, .mov_r32_imm32 .eax 5⟩
  have hjmp : Fetches spinLoop 0x1000 0x1005 (.jmp (signExtend 0xFE)) 2 :=
    ⟨5, rfl, by decide, .jmp_rel8 0xFE⟩
  have hend : Endless (RecordedStep (fun _ c => c) spinLoop 0x1000 (stream f)) (0x1000, .zero) := by
    refine endless_of_invariant
      (fun x => x = (0x1000, .zero) ∨ x = (0x1005, Cpu.zero.set .eax 5)) ?_ (.inl rfl)
    rintro x (rfl | rfl)
    · exact ⟨_, ⟨.fall hmov rfl rfl, by simp [haddrs]⟩, .inr rfl⟩
    · exact ⟨(0x1005, Cpu.zero.set .eax 5), ⟨.jump hjmp rfl, by simp [haddrs]⟩, .inr rfl⟩
  exact ⟨f, hf, out, text, hout, ident, ast, _, htext, hiff.mpr hend⟩

end X86

namespace Arm

theorem lift_ne_nil {i : ArmInstruction} {address : Address} {length : ℕ}
    {temps temps' : TempAllocator} {ops : List Instruction}
    (h : lift i address length temps = .ok (ops, temps')) : ops ≠ [] := by
  cases i with
  | b | bl | beq | bne =>
    obtain ⟨target, -, h⟩ := Fallible.bind_eq_ok.mp h
    obtain ⟨rfl, -⟩ := Prod.mk.inj (Except.ok.inj h)
    exact nofun
  | _ =>
    obtain ⟨rfl, -⟩ := Prod.mk.inj (Except.ok.inj h)
    exact nofun

/-- The printed function runs forever where the processor stays on the recorded addresses forever
and passes no `B.NE` that goes astray. -/
theorem pseudocode_runs_forever {name : String} {bytes : List UInt8} {base : Address}
    {f g out : Function} {text : String} (hf : Arch.arm.processFunction name bytes base = .ok f)
    (hg : build f = .ok g) (hout : runPhase2 f = .ok (out, text))
    {callee : BranchTarget → State → State} {cpuCallee : Address → Cpu → Cpu}
    {callee' : String → Env Bytes → Env Bytes} (hcallee : SameEffect callee cpuCallee)
    (hcalls : SameCalls (varsOf registers (programOps out)) callee callee')
    {outer : String → IntType}
    (houter : ∀ v ∈ registers, outer (nameOf v) = .unsigned v.size.toNat)
    {ρ : Env Bytes} {σ : State} {c : Cpu} (hρ : Holds (varsOf registers (programOps out)) ρ σ)
    (hm : Matches σ c) (hfollowed : Followed callee g out σ)
    (hend : Endless (RecordedStep cpuCallee bytes base (stream f)) (some base, c)) :
    ∃ ident ast, text = header out.name ++ (toC out ident ast).text ∧
      ∀ y, Runs ((toC out ident ast).typeOf outer) callee' (toC out ident ast).body
          (.run (toC out ident ast).body, ρ) y →
        (CLanguage.step ((toC out ident ast).typeOf outer) callee'
          (toC out ident ast).body y).isSome := by
  have hlis := processFunction_liftsWords hf
  obtain ⟨lis, rfl, hlifted⟩ := Arch.processFunction_eq_ok hf
  rw [stream_ofStream] at hlis hend
  obtain ⟨-, r, ast, han⟩ := analysed_of_runPhase2 hlifted hg hout
  have hrendered := han.rendered hf
  obtain ⟨ident, -, htext, -⟩ := hrendered.printed (passes_of_runPhase2 hout).2
  obtain ⟨y, ⟨-, -, li, hli, -⟩, -⟩ := hend.exists_step
  obtain ⟨first, hfirst⟩ : ∃ first, lis.head? = some first :=
    ⟨_, List.head?_eq_some_head (List.ne_nil_of_mem hli)⟩
  have hops : ∀ li ∈ lis, li.ops ≠ [] := by
    intro li hli
    obtain ⟨i, length, temps, temps', -, hlift⟩ := hlis.fetches hli
    exact lift_ne_nil hlift
  have haddr : some first.address = some base := congrArg some (hlifted.head first hfirst)
  have hast := han.not_dom_ast hfirst hfollowed hops
    (hend.simulated (simulates_streamExec hlis hlifted hcallee)
      ⟨List.mem_of_head? hfirst, haddr, hm⟩)
  exact ⟨ident, ast, htext, not_dom_iff.mp
    (hrendered.not_dom_body ident houter hcalls hρ hfollowed.bounded hast)⟩

/-- `mov x0, #1`, then `b` to itself -/
def spinLoop : List UInt8 := [0x20, 0x00, 0x00, 0x10, 0x00, 0x00, 0x00, 0x14]

theorem pseudocode_runs_forever_spinLoop :
    ∃ f, Arch.arm.processFunction "input" spinLoop 0x1000 = .ok f ∧
      ∃ out text, runPhase2 f = .ok (out, text) ∧
        ∃ ident ast Γ, text = header out.name ++ (toC out ident ast).text ∧
          ∀ y, Runs Γ (fun _ ρ => ρ) (toC out ident ast).body
              (.run (toC out ident ast).body, (⟨fun _ => 0, State.zero.memory⟩ : Env Bytes)) y →
            (CLanguage.step Γ (fun _ ρ => ρ) (toC out ident ast).body y).isSome := by
  have hrun : ∃ f, Arch.arm.processFunction "input" spinLoop 0x1000 = .ok f ∧
      (stream f).map LiftedInstruction.address = [0x1000, 0x1004] ∧
      ∃ g, build f = .ok g ∧ ∃ p, runPhase2 f = .ok p ∧
        (∀ b ∈ g.blocks, ∀ op ∈ b.ops, op.isCall = false) ∧
        (∀ b ∈ g.blocks, ∀ op ∈ b.ops, ∀ v ∈ op.operands, v.space = .constant) ∧
        ∀ b ∈ p.1.blocks, ∀ o, SafeAt p.1 (fun _ => o) ⟨.block b.startAddress, 0, []⟩ := by
    decide +kernel
  obtain ⟨f, hf, haddrs, g, hg, ⟨out, text⟩, hout, hcalls, hread, hsafe⟩ := hrun
  have hfollowed : Followed (fun _ σ => σ) g out .zero :=
    .of_literals State.bounded_zero hcalls hread hsafe
  have heffect : SameEffect (fun _ σ => σ) fun _ c => c := fun _ _ _ h => h
  have hmov : Fetches spinLoop 0x1000 0x1000 (.movRegImm ⟨0⟩ 1) :=
    ⟨0, 0x10000020, rfl, rfl, .mov (by decide)⟩
  have hb : Fetches spinLoop 0x1000 0x1004 (.b 0) := ⟨1, 0x14000000, rfl, rfl, .b (by decide)⟩
  have hstay : ∀ {pc : Address} {i : ArmInstruction}, Fetches spinLoop 0x1000 pc i →
      (∀ rel, i ≠ .bne rel) → ¬ Misbranches spinLoop 0x1000 (some pc) := by
    rintro pc i hfetch hi ⟨_, rel, ⟨⟩, hfetch', -⟩
    exact hi rel (hfetch.unique hfetch')
  have hat : ∀ a ∈ [0x1000, 0x1004], ∃ li ∈ stream f, some li.address = some a := by
    intro a ha
    rw [← haddrs] at ha
    obtain ⟨li, hli, rfl⟩ := List.mem_map.mp ha
    exact ⟨li, hli, rfl⟩
  have hend : Endless (RecordedStep (fun _ c => c) spinLoop 0x1000 (stream f))
      (some 0x1000, .zero) := by
    refine endless_of_invariant
      (fun x => x = (some 0x1000, .zero) ∨ x = (some 0x1004, Cpu.zero.set ⟨0⟩ 1)) ?_ (.inl rfl)
    rintro x (rfl | rfl)
    · exact ⟨_, ⟨.step hmov rfl (.fall rfl), hstay hmov nofun, hat 0x1004 (by decide)⟩, .inr rfl⟩
    · exact ⟨(some 0x1004, Cpu.zero.set ⟨0⟩ 1),
        ⟨.step hb rfl (.jump _), hstay hb nofun, hat 0x1004 (by decide)⟩, .inr rfl⟩
  obtain ⟨ident, ast, htext, hforever⟩ := pseudocode_runs_forever hf hg hout heffect (.id _)
    outerType_registers (.zero _) matches_zero hfollowed hend
  exact ⟨f, hf, out, text, hout, ident, ast, _, htext, hforever⟩

end Arm

end Decompiler
