import Decompiler.Cli.Totality
import Decompiler.Passes.Order

/-! # No order of the passes faults

What every pass needs and leaves, whether or not the graph has been built: so a manager can be
given any passes, and its result can be printed at any point.
-/

namespace Decompiler

open Cfg Structurer

section Rewriting

open ConstProp Dataflow

theorem ConstProp.isAbsolute_substituteAndFold (op : Instruction) (s : ConstState) :
    (substituteAndFold op s).isAbsolute = op.isAbsolute := by
  have hfold : ∀ {bin : Varnode → Varnode → Varnode → Instruction} {dest lhs rhs f},
      (∀ a b, (bin dest a b).isAbsolute) → (foldBinop bin dest lhs rhs s f).isAbsolute := by
    intro bin dest lhs rhs f hbin
    unfold foldBinop foldOrKeep
    split
    · rfl
    · exact hbin _ _
  cases op with
  | intAdd => exact hfold fun _ _ => rfl
  | intSub => exact hfold fun _ _ => rfl
  | intEqual => exact hfold fun _ _ => rfl
  | intNotEqual => exact hfold fun _ _ => rfl
  | intSless => exact hfold fun _ _ => rfl
  | intSlessEqual => exact hfold fun _ _ => rfl
  | branch target => cases target <;> rfl
  | cbranch condition target => cases target <;> rfl
  | _ => rfl

theorem ConstProp.exists_of_mem_stream_rewrite {f : Function} {r : DataflowResult ConstState}
    {li : LiftedInstruction} (hli : li ∈ stream (rewrite f r)) :
    ∃ li₀ ∈ stream f, ∃ s, li = { li₀ with ops := rewriteOps li₀.ops s } := by
  have hlis : ∀ (lis : List LiftedInstruction) (s : ConstState), li ∈ rewriteInstructions lis s →
      ∃ li₀ ∈ lis, ∃ s, li = { li₀ with ops := rewriteOps li₀.ops s } := by
    intro lis
    induction lis with
    | nil =>
      intro s h
      cases h
    | cons li₀ lis ih =>
      intro s h
      rcases List.mem_cons.mp h with rfl | h
      · exact ⟨li₀, List.mem_cons_self, s, rfl⟩
      · obtain ⟨li₁, hmem, s', rfl⟩ := ih _ h
        exact ⟨li₁, List.mem_cons_of_mem _ hmem, s', rfl⟩
  rw [stream, rewrite_blocks] at hli
  obtain ⟨b', hb', hli⟩ := List.mem_flatMap.mp hli
  obtain ⟨b, hb, rfl⟩ := List.mem_map.mp hb'
  obtain ⟨li₀, hmem, s, rfl⟩ := hlis _ _ hli
  exact ⟨li₀, List.mem_flatMap.mpr ⟨b, hb, hmem⟩, s, rfl⟩

theorem ConstProp.isYielded_rewrite {f : Function} {entry : Address}
    (h : IsYielded entry (stream f)) (r : DataflowResult ConstState) :
    IsYielded entry (stream (rewrite f r)) where
  sorted := by
    rw [map_address_stream_rewrite]
    exact h.sorted
  head li hli := by
    have haddr := congrArg List.head? (map_address_stream_rewrite f r)
    rw [List.head?_map, List.head?_map, Option.mem_def.mp hli] at haddr
    obtain ⟨li₀, hli₀, haddr⟩ := Option.map_eq_some_iff.mp haddr.symm
    exact haddr ▸ h.head li₀ hli₀
  one_terminator li hli := by
    obtain ⟨li₀, hmem, s, rfl⟩ := exists_of_mem_stream_rewrite hli
    have hflow := map_flow_rewriteOps li₀.ops s
    have hlen : ∀ ops : List Instruction, (ops.filter Instruction.isTerminator).length =
        ((ops.map Instruction.flow).filter Prod.fst).length := by
      intro ops
      rw [List.filter_map, List.length_map]
      rfl
    rw [hlen, hflow, ← hlen]
    exact h.one_terminator li₀ hmem
  absolute li hli op hop := by
    obtain ⟨li₀, hmem, s, rfl⟩ := exists_of_mem_stream_rewrite hli
    obtain ⟨i, hi⟩ := List.getElem?_of_mem hop
    rw [getElem?_rewriteOps] at hi
    obtain ⟨op₀, hop₀, rfl⟩ := Option.map_eq_some_iff.mp hi
    rw [isAbsolute_substituteAndFold]
    exact h.absolute li₀ hmem op₀ (List.mem_of_getElem? hop₀)

end Rewriting

structure Ready (f : Function) : Prop where
  passable : Passable f
  yielded : IsYielded f.entry (stream f)
  /-- the construction does not touch the index of an empty stream -/
  unindexed : stream f = [] → f.blockIndex = ∅
  printable : ∀ ast, f.ast = some ast → Output.Printable ast.lines

abbrev Built (f : Function) : Prop := IsCfg (stream f) f.entry f.blocks

namespace Ready

variable {f : Function} (h : Ready f)

include h

theorem build : ∃ g, Cfg.build f = .ok g ∧ Ready g ∧ Built g := by
  obtain ⟨bs, hbs, hbuild⟩ := build_eq_ok f h.yielded.nodup
  have hops : ∀ b ∈ bs, ∀ op ∈ b.ops, op.Writable := by
    intro b hb op hop
    obtain ⟨li, hli, hop⟩ := mem_ops.mp hop
    obtain ⟨c, hc, hli⟩ := List.mem_flatMap.mp (hbs.mem_flat hb hli)
    exact h.passable.writable c hc op (mem_ops.mpr ⟨li, hli, hop⟩)
  have hready : ∀ g : Function, g.blocks = bs → g.entry = f.entry → g.ast = f.ast →
      (∀ a, g.blockAt a = .ok (blockStarting g.blocks a)) →
      (stream f = [] → g.blockIndex = ∅) → Ready g ∧ Built g := by
    intro g hblocks hentry hast hat hindex
    have hstream : stream g = stream f := by rw [stream, hblocks, hbs.split.flatten]
    have hgraph : IsGraphOf (stream f) g := ⟨h.yielded.nodup, by rwa [hblocks, hentry], hat⟩
    have hyielded : IsYielded g.entry (stream g) := by
      rw [hstream, hentry]
      exact h.yielded
    refine ⟨⟨⟨hgraph.linked, by rwa [hblocks], exists_entry hgraph (hstream ▸ hyielded)⟩, hyielded,
      by rwa [hstream], ?_⟩, by rwa [Built, hstream, hentry, hblocks]⟩
    rw [hast]
    exact h.printable
  refine ⟨_, hbuild, ?_⟩
  split
  case isTrue hnil =>
    have hempty := h.unindexed hnil
    refine hready _ rfl rfl rfl (fun a => ?_) fun _ => hempty
    rw [Function.blockAt, if_pos (by simp [hempty])]
    rfl
  case isFalse hne =>
    exact hready _ rfl rfl rfl
      (fun a => @blockAt_rebuildIndex { f with blocks := bs } (hbs.nodup_starts h.yielded.nodup) a)
      fun hnil => absurd hnil hne

theorem propagate : ∃ g, ConstProp.run f = .ok g ∧ Ready g ∧ (Built f → Built g) := by
  obtain ⟨r, hr⟩ := ConstProp.solveForward_eq_ok f
  refine ⟨ConstProp.rewrite f r, by rw [ConstProp.run, hr]; rfl, ⟨h.passable.rewrite r,
    ConstProp.isYielded_rewrite h.yielded r, fun hnil => h.unindexed ?_, h.printable⟩,
    fun hbuilt => ConstProp.isCfg_rewrite hbuilt r⟩
  have haddr := ConstProp.map_address_stream_rewrite f r
  rw [hnil] at haddr
  simpa using haddr.symm

theorem infer : ∃ g, Types.run f = .ok g ∧ Ready g ∧ (Built f → Built g) := by
  obtain ⟨types, hrun⟩ := Types.run_eq_ok f
  exact ⟨_, hrun, ⟨h.passable.withTypes types, h.yielded, h.unindexed, h.printable⟩, id⟩

theorem structured : ∃ g, Structurer.run f = .ok g ∧ Ready g ∧ (Built f → Built g) := by
  obtain ⟨ast, hrun, hprint⟩ := h.passable.exists_ast
  refine ⟨_, hrun, ⟨h.passable.withAst (some ast), h.yielded, h.unindexed, ?_⟩, id⟩
  intro ast' hast'
  obtain rfl := Option.some.inj hast'
  exact hprint

/-- Each pass returns and leaves a function for the next one. -/
theorem run_pass (pass : Builtin) : ∃ g, pass.pass.run f = .ok g ∧ Ready g ∧
    (Built f ∨ pass = .cfgBuilder → Built g) := by
  cases pass with
  | cfgBuilder =>
    obtain ⟨g, hrun, hready, hbuilt⟩ := h.build
    exact ⟨g, hrun, hready, fun _ => hbuilt⟩
  | constantPropagation =>
    obtain ⟨g, hrun, hready, hbuilt⟩ := h.propagate
    exact ⟨g, hrun, hready, fun hf => hbuilt (hf.resolve_right nofun)⟩
  | typeInference =>
    obtain ⟨g, hrun, hready, hbuilt⟩ := h.infer
    exact ⟨g, hrun, hready, fun hf => hbuilt (hf.resolve_right nofun)⟩
  | structurer =>
    obtain ⟨g, hrun, hready, hbuilt⟩ := h.structured
    exact ⟨g, hrun, hready, fun hf => hbuilt (hf.resolve_right nofun)⟩

theorem run_passes (ps : List Builtin) : ∃ g, (PassManager.ofBuiltins ps).run f = .ok g ∧
    Ready g ∧ (.cfgBuilder ∈ ps → Built g) := by
  induction ps using List.reverseRecOn with
  | nil => exact ⟨f, rfl, h, fun hmem => absurd hmem List.not_mem_nil⟩
  | append_singleton ps pass ih =>
    obtain ⟨g, hg, hready, hbuilt⟩ := ih
    obtain ⟨g', hg', hready', hbuilt'⟩ := hready.run_pass pass
    have hlast : PassManager.ofBuiltins (ps ++ [pass]) =
        (PassManager.ofBuiltins ps).withPass pass.pass := by
      simp [PassManager.ofBuiltins]
    refine ⟨g', ?_, hready', fun hmem => hbuilt' ?_⟩
    · rw [hlast, PassManager.run_withPass, hg]
      exact hg'
    · rcases List.mem_append.mp hmem with hmem | hmem
      · exact Or.inl (hbuilt hmem)
      · exact Or.inr (List.mem_singleton.mp hmem).symm

theorem exists_text : ∃ text, Output.generate f = .ok text := by
  cases hast : f.ast with
  | some ast => exact Output.generate_eq_ok hast (h.printable ast hast)
  | none =>
    obtain ⟨ast, hrun, hprint⟩ := h.passable.exists_ast
    obtain ⟨text, htext⟩ := Output.generate_eq_ok (f := { f with ast := some ast }) rfl hprint
    obtain ⟨ast', hast', heq⟩ := Fallible.bind_eq_ok.mp hrun
    have hfound : ast' = ast := Option.some.inj (congrArg Function.ast (Except.ok.inj heq))
    have hsame : Output.generate f = Output.generate { f with ast := some ast } := by
      simp only [Output.generate, hast, hast', hfound]
      rfl
    exact ⟨text, hsame.trans htext⟩

/-- The passes of the command line tool and its printer return. -/
theorem exists_runPhase2 : ∃ g text, runPhase2 f = .ok (g, text) := by
  obtain ⟨g₁, h₁, hready₁, -⟩ := h.build
  obtain ⟨g₂, h₂, hready₂, -⟩ := hready₁.propagate
  obtain ⟨g₃, h₃, hready₃, -⟩ := hready₂.infer
  obtain ⟨g₄, h₄, hready₄, -⟩ := hready₃.structured
  obtain ⟨text, htext⟩ := hready₄.exists_text
  exact ⟨g₄, text, by simp [runPhase2, runPasses, passes, h₁, h₂, h₃, h₄, htext]⟩

end Ready

theorem passes_of_runPhase2 {f out : Function} {text : String}
    (h : runPhase2 f = .ok (out, text)) :
    (∃ g p t, build f = .ok g ∧ ConstProp.run g = .ok p ∧ Types.run p = .ok t ∧
      Structurer.run t = .ok out) ∧ Output.generate out = .ok text := by
  obtain ⟨out', hpasses, h⟩ := Fallible.bind_eq_ok.mp h
  obtain ⟨text', htext, h⟩ := Fallible.bind_eq_ok.mp h
  obtain ⟨rfl, rfl⟩ := Prod.mk.inj (Except.ok.inj h)
  obtain ⟨g, hg, hpasses⟩ := Fallible.bind_eq_ok.mp hpasses
  obtain ⟨p, hp, hpasses⟩ := Fallible.bind_eq_ok.mp hpasses
  obtain ⟨t, ht, hpasses⟩ := Fallible.bind_eq_ok.mp hpasses
  obtain ⟨s, hs, hpasses⟩ := Fallible.bind_eq_ok.mp hpasses
  obtain rfl := Except.ok.inj hpasses
  exact ⟨⟨g, p, t, hg, hp, ht, hs⟩, htext⟩

theorem Cfg.eq_of_build {f g : Function} (h : build f = .ok g) :
    g = { f with blocks := g.blocks, blockIndex := g.blockIndex } := by
  rw [build] at h
  split at h
  · obtain rfl := Except.ok.inj h
    rfl
  · obtain ⟨leaders, -, h⟩ := Fallible.bind_eq_ok.mp h
    obtain ⟨blocks, -, h⟩ := Fallible.bind_eq_ok.mp h
    obtain ⟨blocks', -, h⟩ := Fallible.bind_eq_ok.mp h
    obtain rfl := Except.ok.inj h
    rfl

theorem stream_ofStream (name : String) (entry : Address) (flat : List LiftedInstruction) :
    stream (.ofStream name entry flat) = flat := by
  simp [stream, Function.ofStream, Function.new]

theorem ready_ofStream {name : String} {entry : Address} {flat : List LiftedInstruction}
    (hflat : IsLifted entry flat) : Ready (.ofStream name entry flat) := by
  refine ⟨⟨⟨by simp [Function.ofStream], fun a => ?_, ?_, ?_⟩, (sane_ofStream hflat).writable,
    fun _ => ⟨_, List.mem_singleton.mpr rfl, rfl⟩⟩, ?_, fun _ => rfl, ?_⟩
  · rw [Function.blockAt, if_pos (by rfl)]
    rfl
  · intro b hb
    obtain rfl := List.mem_singleton.mp hb
    exact List.nodup_nil
  · intro b hb a ha
    obtain rfl := List.mem_singleton.mp hb
    cases ha
  · rw [stream_ofStream]
    exact hflat.isYielded
  · intro ast hast
    cases hast

theorem Arch.overflows_or_ok (arch : Arch) (name : String) (bytes : List UInt8) (base : Address) :
    arch.processFunction name bytes base = .error .addressOverflow ∨
      ∃ f, arch.processFunction name bytes base = .ok f := by
  cases arch with
  | x86 => exact (processFunction_failsOnly X86.lawful name).eq_error_or_ok
  | arm => exact (processFunction_failsOnly Arm.lawful name).eq_error_or_ok

/-- Behind a decode loop without an overflow a manager may run any passes in any order, with or
without the construction of the graph: it never faults, the lookups find what a scan finds, the
edges are those of the operations once the graph has been built, and the result is printed. -/
theorem passManager_total (arch : Arch) (name : String) (bytes : List UInt8) (base : Address)
    (ps : List Builtin) :
    arch.processFunction name bytes base = .error .addressOverflow ∨
      ∃ f, arch.processFunction name bytes base = .ok f ∧
        ∃ g, (PassManager.ofBuiltins ps).run f = .ok g ∧
          (∀ a, g.blockAt a = .ok (blockStarting g.blocks a)) ∧
          (.cfgBuilder ∈ ps → IsCfg (stream g) g.entry g.blocks) ∧
          ∃ text, Output.generate g = .ok text := by
  rcases arch.overflows_or_ok name bytes base with herror | ⟨f, hok⟩
  · exact Or.inl herror
  · right
    obtain ⟨flat, rfl, hflat⟩ := Arch.processFunction_eq_ok hok
    obtain ⟨g, hrun, hready, hbuilt⟩ := (@ready_ofStream name base flat hflat).run_passes ps
    exact ⟨_, hok, g, hrun, hready.passable.linked.blockAt, hbuilt, hready.exists_text⟩

end Decompiler
