import Decompiler.Cli.EndToEnd
import Decompiler.Cli.Measured
import Decompiler.ConstProp.Wellformed
import Decompiler.Output.Execution

/-! # From the bytes to the printed function

The text that is printed for decoded code is that of a function in C. Over variables that hold
the registers, its body ends as the syntax tree does, and so as the processor on the bytes.
-/

namespace Decompiler

open Cfg Output Structurer ConstProp CLanguage Decompiler.Types

theorem Structurer.ops_of_lines {f : Function} (h : Passable f) {ast : HighLevelAst}
    (hast : doStructure f = .ok ast) :
    (∀ a ops, .code a ops ∈ ast.lines → ∀ op ∈ ops, op ∈ programOps f) ∧
      ∀ c, .test c ∈ ast.lines → ∃ target, .cbranch c target ∈ programOps f := by
  by_cases hnil : f.blocks = []
  · rw [doStructure, if_pos hnil] at hast
    obtain rfl := Except.ok.inj hast
    constructor
    · rintro a ops ⟨⟩
    · rintro c ⟨⟩
  · obtain ⟨backEdges, r, -, -, -, hexp, htree⟩ := doStructure_eq_ok h.linked (h.entry hnil)
    obtain rfl := Except.ok.inj (htree.symm.trans hast)
    rw [lines_wrapNodes_nodes]
    constructor
    · intro a ops hline op hop
      obtain ⟨b, hb, -, rfl⟩ := Region.exists_taken_of_code hline
      exact List.mem_flatMap.mpr ⟨b, hexp.mem_of_mem_taken hb, (List.mem_filter.mp hop).1⟩
    · intro c hline
      obtain ⟨b, hb, t, f, hexit⟩ := hexp.exists_exit_of_test hline
      obtain ⟨target, hop⟩ := exists_cbranch_of_exitOf hexit
      exact ⟨target, List.mem_flatMap.mpr ⟨b, hexp.mem_of_mem_taken hb, hop⟩⟩

def varsOf (regs : List Varnode) (ops : List Instruction) : Set Varnode :=
  {v | v ∈ regs ∨ v.space = .unique ∧ Assigned ops v.location}

structure Rendered (regs : List Varnode) (out : Function) (ast : HighLevelAst) : Prop where
  file : RegisterFile regs
  size : ∀ v ∈ regs, v.size.toNat ∈ sizes
  named : WellNamed regs (programOps out)
  wellFormed : ∀ op ∈ programOps out, op.WellFormed
  reads : ∀ op ∈ programOps out, Reads op
  measured : ∀ op ∈ programOps out, Measured op
  types : out.types = ∅
  tree : out.ast = some ast
  code : ∀ a ops, .code a ops ∈ ast.lines → ∀ op ∈ ops, op ∈ programOps out
  test : ∀ c, .test c ∈ ast.lines → ∃ target, .cbranch c target ∈ programOps out

theorem Output.WellNamed.location_eq {regs : List Varnode} {ops : List Instruction}
    (h : WellNamed regs ops) {v w : Varnode} (hv : v.space = .unique) (hw : w.space = .unique)
    (hassigned : Assigned ops v.location) (hassigned' : Assigned ops w.location)
    (hoffset : v.offset = w.offset) : v.location = w.location := by
  obtain ⟨op, hop, dest, hdest, -, hloc⟩ := hassigned
  obtain ⟨op', hop', dest', hdest', -, hloc'⟩ := hassigned'
  have htemp : ∀ {op : Instruction} {dest u : Varnode}, op.opDest = some dest →
      dest.location = u.location → u.space = .unique → op.assignedTemp = some u.offset := by
    intro op dest u hdest hloc hu
    have hspace : dest.space = .unique := (congrArg Location.space hloc).trans hu
    have hoff : dest.offset = u.offset := congrArg Location.offset hloc
    simp [Instruction.assignedTemp, hdest, hspace, hoff]
  obtain rfl := eq_of_assignedTemp h.single hop hop' (htemp hdest hloc hv)
    (hoffset ▸ htemp hdest' hloc' hw)
  obtain rfl := Option.some.inj (hdest.symm.trans hdest')
  exact hloc.symm.trans hloc'

namespace Rendered

variable {regs : List Varnode} {out : Function} {ast : HighLevelAst} (h : Rendered regs out ast)

include h

theorem size_of_assigned {l : Location} (hl : Assigned (programOps out) l) :
    l.size.toNat ∈ sizes := by
  obtain ⟨op, hop, dest, hdest, -, rfl⟩ := hl
  exact (h.measured op hop).dest dest hdest

theorem nameOf_eq_iff {v w : Varnode} (hv : v ∈ varsOf regs (programOps out))
    (hw : w ∈ varsOf regs (programOps out)) : nameOf v = nameOf w ↔ v.location = w.location := by
  rcases hv with hv | ⟨hv, hassigned⟩ <;> rcases hw with hw | ⟨hw, hassigned'⟩
  · constructor
    · intro heq
      rw [h.file.eq_of_nameOf hv hw heq]
    · intro heq
      rw [h.file.eq_of_location hv hw heq]
  · refine iff_of_false (h.file.nameOf_ne hv hw) fun heq => ?_
    have hspace := (h.file.register v hv).symm.trans ((congrArg Location.space heq).trans hw)
    cases hspace
  · refine iff_of_false (h.file.nameOf_ne hw hv).symm fun heq => ?_
    have hspace := hv.symm.trans ((congrArg Location.space heq).trans (h.file.register w hw))
    cases hspace
  · constructor
    · intro heq
      exact h.named.location_eq hv hw hassigned hassigned' (offset_eq_of_nameOf hv hw heq)
    · intro heq
      have hoff : v.offset = w.offset := congrArg Location.offset heq
      simp [nameOf, hv, hw, hoff]

theorem mem_of_opDest {op : Instruction} (hop : op ∈ programOps out) {v : Varnode}
    (hv : op.opDest = some v) : v ∈ varsOf regs (programOps out) := by
  rcases (h.named.uses op hop).dest v hv with hreg | htemp
  · exact .inl hreg
  · exact .inr ⟨htemp, op, hop, v, hv, .inr htemp, rfl⟩

theorem mem_of_operand {op : Instruction} (hop : op ∈ programOps out) {v : Varnode}
    (hv : v ∈ op.operands) : v.space = .constant ∨ v ∈ varsOf regs (programOps out) := by
  refine ((h.named.uses op hop).operand v hv).imp_right ?_
  rintro (hreg | htemp)
  · exact .inl hreg
  · exact .inr ⟨htemp, h.named.assigned op hop v hv htemp⟩

/-- The declarations and the surrounding scope give every variable its unsigned type. -/
theorem scope (ident : String) {outer : String → IntType}
    (houter : ∀ v ∈ regs, outer (nameOf v) = .unsigned v.size.toNat) :
    Scope ((toC out ident ast).typeOf outer) (varsOf regs (programOps out)) where
  declarable := by
    rintro v (hreg | ⟨htemp, -⟩)
    · exact .inl (h.file.register v hreg)
    · exact .inr htemp
  size := by
    rintro v (hreg | ⟨-, hassigned⟩)
    · exact h.size v hreg
    · exact h.size_of_assigned hassigned
  name v hv w hw := h.nameOf_eq_iff hv hw
  typeOf := by
    intro v hv
    have hdeclared : ∀ w ∈ declared (programOps out), w ∈ varsOf regs (programOps out) := by
      intro w hw
      obtain ⟨op, hop, hdest, -⟩ := exists_of_mem_declared hw
      exact h.mem_of_opDest hop hdest
    rw [CFunction.typeOf]
    cases hfind : (toC out ident ast).decls.find? (·.2 == nameOf v) with
    | some d =>
      obtain ⟨w, hw, rfl⟩ := List.mem_map.mp (List.mem_of_find?_eq_some hfind)
      have hname : nameOf w = nameOf v := by simpa using List.find?_some hfind
      have hloc := (h.nameOf_eq_iff (hdeclared w hw) hv).mp hname
      have hsize : w.size = v.size := congrArg Location.size hloc
      obtain ⟨op, hop, hdest, -⟩ := exists_of_mem_declared hw
      rw [Option.map_some, Option.getD_some, wordType,
        wordBytes_of_mem ((h.measured op hop).dest w hdest), hsize]
    | none =>
      rcases hv with hreg | ⟨htemp, hassigned⟩
      · exact houter v hreg
      · obtain ⟨w, hw, hloc⟩ := exists_mem_declared.mpr hassigned
        have hname := (h.nameOf_eq_iff (hdeclared w hw) (.inr ⟨htemp, hassigned⟩)).mpr hloc
        have hne := List.find?_eq_none.mp hfind _ (List.mem_map.mpr ⟨w, hw, rfl⟩)
        simp [hname] at hne

theorem plain {op : Instruction} (hop : op ∈ programOps out) :
    Plain (varsOf regs (programOps out)) op where
  wellFormed := h.wellFormed op hop
  dest _ hv := h.mem_of_opDest hop hv
  operand _ hv := h.mem_of_operand hop hv
  size := (h.measured op hop).operand
  mixed := h.reads op hop
  direct := (h.measured op hop).direct

theorem plainLines : PlainLines (varsOf regs (programOps out)) ast.lines where
  code a ops hline op hop := h.plain (h.code a ops hline op hop)
  test c hline := by
    obtain ⟨target, hop⟩ := h.test c hline
    exact ⟨h.wellFormed _ hop, h.mem_of_operand hop (List.mem_singleton_self c)⟩

/-- The printed text is that of a function in C, and its body ends as the tree does, with the
same values in the variables. -/
theorem printed {text : String} (htext : generate out = .ok text) :
    ∃ ident, sanitizeIdent out.name = .ok ident ∧
      text = header out.name ++ (toC out ident ast).text ∧
      ∀ outer : String → IntType, (∀ v ∈ regs, outer (nameOf v) = .unsigned v.size.toNat) →
      ∀ callee callee', SameCalls (varsOf regs (programOps out)) callee callee' →
      ∀ ρ σ, Holds (varsOf regs (programOps out)) ρ σ → σ.Bounded →
      ∀ code σ', AstRuns callee ast (.run [ast], σ) (code, σ') →
        ∃ ρ', Runs ((toC out ident ast).typeOf outer) callee' (body ast) (.run (body ast), ρ)
          (codeBody code, ρ') ∧ Holds (varsOf regs (programOps out)) ρ' σ' := by
  obtain ⟨ident, hident, htext⟩ := generate_eq_text h.types h.tree htext
  refine ⟨ident, hident, htext, ?_⟩
  intro outer houter callee callee' hcalls ρ σ hρ hσ code σ' hruns
  have hstart : codeBody (.run [ast]) = .run (body ast) := by
    rw [codeBody, nodesBody, nodesBody, List.append_nil]
  have hplain : PlainCode (varsOf regs (programOps out)) (.run [ast]) :=
    h.plainLines.mono fun line hline => by simpa [nodeLines] using hline
  rw [← hstart]
  exact runs_astRuns (h.scope ident houter) hcalls h.plainLines (x := (_, _)) (y := (_, _)) hplain
    hρ hσ hruns

end Rendered

theorem Arch.size_registers (arch : Arch) : ∀ v ∈ arch.registers, v.size.toNat ∈ sizes := by
  cases arch with
  | x86 => decide
  | arm => decide

theorem Output.Holds.vars_register {regs : List Varnode} {ops : List Instruction} {ρ : Env Bytes}
    {σ : State} (h : Holds (varsOf regs ops) ρ σ) (hregs : RegisterFile regs) {v : Varnode}
    (hv : v ∈ regs) : ρ.vars (nameOf v) = σ.read v := by
  rw [h.vars v (.inl hv), State.read, if_neg (by simp [hregs.register v hv])]

theorem Analysed.rendered {arch : Arch} {name : String} {bytes : List UInt8} {base : Address}
    {flat : List LiftedInstruction}
    (hf : arch.processFunction name bytes base = .ok (.ofStream name base flat))
    {g out : Function} {r : Dataflow.DataflowResult ConstState} {ast : HighLevelAst}
    (h : Analysed flat g out r ast) : Rendered arch.registers out ast := by
  obtain ⟨flat', heq, -, hnamed⟩ := Arch.processFunction_wellNamed hf
  obtain rfl : flat = flat' := by
    rw [← stream_ofStream name base flat, heq, stream_ofStream]
  have hmeasured := Arch.processFunction_measured hf
  have hops : programOps g = flat.flatMap LiftedInstruction.ops := by
    rw [← h.graph.cfg.split.flatten, List.flatMap_assoc]
    rfl
  have hflat : programOps (.ofStream name base flat) = flat.flatMap LiftedInstruction.ops := by
    simp [programOps, Function.ofStream, BasicBlock.ops]
  have hout : programOps out = programOps (rewrite g r) := by
    rw [programOps, programOps, h.blocks]
  rw [← hops] at hnamed hflat
  rw [hflat] at hmeasured
  have hrun : ConstProp.run g = .ok (rewrite g r) := by rw [ConstProp.run, h.solved]; rfl
  have hwf : ∀ b ∈ g.blocks, ∀ op ∈ b.ops, op.WellFormed := by
    intro b hb op hop
    have hmem : op ∈ programOps g := List.mem_flatMap.mpr ⟨b, hb, hop⟩
    rw [hops] at hmem
    obtain ⟨li, hli, hop⟩ := List.mem_flatMap.mp hmem
    exact (h.lifted.shaped li hli).wellFormed op hop
  have hrewritten : ∀ op ∈ programOps (rewrite g r), (op.WellFormed ∧ Reads op) ∧ Measured op := by
    intro op hop
    obtain ⟨b, hb, hop⟩ := List.mem_flatMap.mp hop
    refine ⟨wellFormed_of_run hwf hrun b hb op hop, ?_⟩
    obtain ⟨b₀, hb₀, op₀, hop₀, s, -, rfl⟩ := exists_of_mem_run hwf hrun hb hop
    exact measured_substituteAndFold (hmeasured op₀ (List.mem_flatMap.mpr ⟨b₀, hb₀, hop₀⟩)) s
  have htypes : out.types = ∅ := by
    have hnone := Types.run_of_unaccessed (f := rewrite g r) h.untyped fun op hop =>
      (hrewritten op hop).2.access
    have hsame := congrArg Function.types (Except.ok.inj (h.inferred.symm.trans hnone))
    exact hsame.trans h.untyped
  obtain ⟨hcode, htest⟩ := ops_of_lines h.passable h.structured
  exact ⟨arch.registerFile, arch.size_registers, hout ▸ wellNamed_rewrite hnamed r,
    fun op hop => (hrewritten op (hout ▸ hop)).1.1, fun op hop => (hrewritten op (hout ▸ hop)).1.2,
    fun op hop => (hrewritten op (hout ▸ hop)).2, htypes, h.ast, hcode, htest⟩

/-- Behind a decode loop without an overflow the pseudocode is the text of a function in C. Where
the registers that it does not declare have their unsigned types, its body ends as the syntax tree
does, from any variables that hold the state. -/
theorem pseudocode_ends_as_tree (arch : Arch) (name : String) (bytes : List UInt8)
    (base : Address) : arch.processFunction name bytes base = .error .addressOverflow ∨
      ∃ f out text ident ast, arch.processFunction name bytes base = .ok f ∧
        runPhase2 f = .ok (out, text) ∧ out.ast = some ast ∧ sanitizeIdent out.name = .ok ident ∧
        text = header out.name ++ (toC out ident ast).text ∧
        ∀ outer : String → IntType,
        (∀ v ∈ arch.registers, outer (nameOf v) = .unsigned v.size.toNat) →
        ∀ callee callee', SameCalls (varsOf arch.registers (programOps out)) callee callee' →
        ∀ ρ σ, Holds (varsOf arch.registers (programOps out)) ρ σ → σ.Bounded →
        ∀ code σ', AstRuns callee ast (.run [ast], σ) (code, σ') →
          ∃ ρ', Runs ((toC out ident ast).typeOf outer) callee' (body ast) (.run (body ast), ρ)
            (codeBody code, ρ') ∧ Holds (varsOf arch.registers (programOps out)) ρ' σ' := by
  rcases arch.overflows_or_ok name bytes base with herror | ⟨f, hf⟩
  · exact .inl herror
  right
  obtain ⟨flat, rfl, hflat⟩ := Arch.processFunction_eq_ok hf
  have hready := @ready_ofStream name base flat hflat
  obtain ⟨g, hg, -, -⟩ := hready.build
  obtain ⟨out, text, hout⟩ := hready.exists_runPhase2
  obtain ⟨-, r, ast, han⟩ := analysed_of_runPhase2 hflat hg hout
  obtain ⟨ident, hident, htext, hruns⟩ := (han.rendered hf).printed (passes_of_runPhase2 hout).2
  exact ⟨_, out, text, ident, ast, hf, hout, han.ast, hident, htext, hruns⟩

namespace X86

/-- Where the processor, on recorded addresses so far, executes an instruction by which it returns
or leaves the function, the printed function ends in the same way, with the registers and the zero
flag in the variables of their names. -/
theorem pseudocode_ends_as_cpu {name : String} {bytes : List UInt8} {base : Address}
    {f g out : Function} {text : String} (hf : Arch.x86.processFunction name bytes base = .ok f)
    (hg : build f = .ok g) (hout : runPhase2 f = .ok (out, text))
    {callee : BranchTarget → State → State} {cpuCallee : Address → Cpu → Cpu}
    {callee' : String → Env Bytes → Env Bytes} (hcallee : SameEffect callee cpuCallee)
    (hcalls : SameCalls (varsOf registers (programOps out)) callee callee')
    {outer : String → IntType}
    (houter : ∀ v ∈ registers, outer (nameOf v) = .unsigned v.size.toNat)
    {ρ : Env Bytes} {σ : State} {c : Cpu} (hρ : Holds (varsOf registers (programOps out)) ρ σ)
    (hm : Matches σ c) (hfollowed : Followed callee g out σ) {pc : Address} {c' : Cpu}
    (hpc : pc ∈ (stream f).map LiftedInstruction.address)
    (hruns : Relation.ReflTransGen (RecordedStep cpuCallee bytes base (stream f)) (base, c)
      (pc, c')) {i : X86Instruction} {length : ℕ} (hfetch : Fetches bytes base pc i length)
    {c'' : Cpu} {control : Control} (hexec : i.exec cpuCallee pc length c' = (c'', control))
    {code : Structurer.Code}
    (hends : Ends ((stream f).map LiftedInstruction.address) control code) :
    ∃ ident ast, text = header out.name ++ (toC out ident ast).text ∧
      ∃ ρ', Runs ((toC out ident ast).typeOf outer) callee' (toC out ident ast).body
          (.run (toC out ident ast).body, ρ) (codeBody code, ρ') ∧
        (∀ r : Reg32, ρ'.vars r.name = (c''.regs r).toNat) ∧
        ρ'.vars "ZF" = if c''.zf then 1 else 0 := by
  obtain ⟨r, ast, han, σ', htree, hm'⟩ :=
    exists_astRuns hf hg hout hcallee hm hfollowed hpc hruns hfetch hexec hends
  obtain ⟨lis, heq, -⟩ := processFunction_decodes hf
  obtain rfl : f = .ofStream name base lis := heq
  rw [stream_ofStream] at han
  obtain ⟨ident, -, htext, hprinted⟩ := (han.rendered hf).printed (passes_of_runPhase2 hout).2
  obtain ⟨ρ', hend, hρ'⟩ :=
    hprinted outer houter callee callee' hcalls ρ σ hρ hfollowed.bounded code σ' htree
  refine ⟨ident, ast, htext, ρ', hend, fun r => ?_, ?_⟩
  · rw [← hm'.regs r]
    exact hρ'.vars_register registerFile ((known_reg r).resolve_right nofun)
  · have hzf := hρ'.vars_register registerFile (known_zf.resolve_right nofun)
    rw [hm'.zf] at hzf
    rw [show "ZF" = nameOf zfVarnode from rfl, hzf]
    split <;> rfl

def outerType (name : String) : IntType := if name = "ZF" then .unsigned 1 else .unsigned 4

theorem outerType_registers :
    ∀ v ∈ registers, outerType (nameOf v) = .unsigned v.size.toNat := by
  decide

theorem pseudocode_ends_as_cpu_fiveTest :
    ∃ f, Arch.x86.processFunction "input" fiveTest 0x1000 = .ok f ∧
      ∃ out text, runPhase2 f = .ok (out, text) ∧
        ∃ ident ast, text = header out.name ++ (toC out ident ast).text ∧
          ∃ Γ ρ', Runs Γ (fun _ ρ => ρ) (body ast)
              (.run (body ast), (⟨fun _ => 0, State.zero.memory⟩ : Env Bytes)) (.finished, ρ') ∧
            ρ'.vars "EAX" = 5 := by
  obtain ⟨f, g, out, text, hf, hg, hout, hfollowed, hpc, hruns⟩ := runs_fiveTest
  have heffect : SameEffect (fun _ σ => σ) fun _ c => c := fun _ _ _ h => h
  obtain ⟨ident, ast, htext, ρ', hend, hregs, -⟩ := pseudocode_ends_as_cpu hf hg hout heffect
    (.id _) outerType_registers (.zero _) matches_zero hfollowed hpc hruns fetches_fiveTest_ret rfl
    .returns
  exact ⟨f, hf, out, text, hout, ident, ast, htext, _, ρ', hend, hregs .eax⟩

end X86

namespace Arm

/-- The same for words, up to an instruction other than `B.NE` that returns or leaves. -/
theorem pseudocode_ends_as_words {name : String} {bytes : List UInt8} {base : Address}
    {f g out : Function} {text : String} (hf : Arch.arm.processFunction name bytes base = .ok f)
    (hg : build f = .ok g) (hout : runPhase2 f = .ok (out, text))
    {callee : BranchTarget → State → State} {cpuCallee : Address → Cpu → Cpu}
    {callee' : String → Env Bytes → Env Bytes} (hcallee : SameEffect callee cpuCallee)
    (hcalls : SameCalls (varsOf registers (programOps out)) callee callee')
    {outer : String → IntType}
    (houter : ∀ v ∈ registers, outer (nameOf v) = .unsigned v.size.toNat)
    {ρ : Env Bytes} {σ : State} {c : Cpu} (hρ : Holds (varsOf registers (programOps out)) ρ σ)
    (hm : Matches σ c) (hfollowed : Followed callee g out σ) {pc : Address} {c' : Cpu}
    (hpc : pc ∈ (stream f).map LiftedInstruction.address)
    (hruns : Relation.ReflTransGen (RecordedStep cpuCallee bytes base (stream f)) (some base, c)
      (some pc, c')) {i : ArmInstruction} (hfetch : Fetches bytes base pc i)
    (hi : ∀ rel, i ≠ .bne rel) {c'' : Cpu} {control : Control}
    (hexec : i.exec cpuCallee pc c' = some (c'', control)) {code : Structurer.Code}
    (hends : Ends ((stream f).map LiftedInstruction.address) control code) :
    ∃ ident ast, text = header out.name ++ (toC out ident ast).text ∧
      ∃ ρ', Runs ((toC out ident ast).typeOf outer) callee' (toC out ident ast).body
          (.run (toC out ident ast).body, ρ) (codeBody code, ρ') ∧
        (∀ r : Reg64, ρ'.vars r.display = (c''.regs r).toNat) ∧
        ∀ e, c''.equal = some e → ρ'.vars "NZCV" = if e then 1 else 0 := by
  obtain ⟨r, ast, han, σ', htree, hm'⟩ :=
    exists_astRuns hf hg hout hcallee hm hfollowed hpc hruns hfetch hi hexec hends
  obtain ⟨lis, heq, -⟩ := processFunction_decodes hf
  obtain rfl : f = .ofStream name base lis := heq
  rw [stream_ofStream] at han
  obtain ⟨ident, -, htext, hprinted⟩ := (han.rendered hf).printed (passes_of_runPhase2 hout).2
  obtain ⟨ρ', hend, hρ'⟩ :=
    hprinted outer houter callee callee' hcalls ρ σ hρ hfollowed.bounded code σ' htree
  refine ⟨ident, ast, htext, ρ', hend, fun r => ?_, fun e he => ?_⟩
  · rw [← hm'.regs r]
    exact hρ'.vars_register registerFile ((known_reg r).resolve_right nofun)
  · have hflags := hρ'.vars_register registerFile (known_flags.resolve_right nofun)
    rw [hm'.flags e he] at hflags
    rw [show "NZCV" = nameOf Arm.flags from rfl, hflags]
    split <;> rfl

def outerType (name : String) : IntType := if name = "NZCV" then .unsigned 4 else .unsigned 8

theorem outerType_registers :
    ∀ v ∈ registers, outerType (nameOf v) = .unsigned v.size.toNat := by
  decide

theorem pseudocode_ends_as_words_onesTest :
    ∃ f, Arch.arm.processFunction "input" onesTest 0x1000 = .ok f ∧
      ∃ out text, runPhase2 f = .ok (out, text) ∧
        ∃ ident ast, text = header out.name ++ (toC out ident ast).text ∧
          ∃ Γ ρ', Runs Γ (fun _ ρ => ρ) (body ast)
              (.run (body ast), (⟨fun _ => 0, State.zero.memory⟩ : Env Bytes)) (.finished, ρ') ∧
            ρ'.vars "X0" = 1 := by
  obtain ⟨f, g, out, text, hf, hg, hout, hfollowed, hpc, hruns⟩ := runs_onesTest
  have heffect : SameEffect (fun _ σ => σ) fun _ c => c := fun _ _ _ h => h
  obtain ⟨ident, ast, htext, ρ', hend, hregs, -⟩ := pseudocode_ends_as_words hf hg hout heffect
    (.id _) outerType_registers (.zero _) matches_zero hfollowed hpc hruns fetches_onesTest_ret
    nofun rfl .returns
  exact ⟨f, hf, out, text, hout, ident, ast, htext, _, ρ', hend, hregs ⟨0⟩⟩

end Arm

end Decompiler
