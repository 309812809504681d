import Decompiler.Cli.Pipeline
import Decompiler.Cli.Tiling
import Decompiler.ConstProp.Shape
import Decompiler.ConstProp.Termination
import Decompiler.Output.Printing
import Decompiler.Structurer.Emission
import Decompiler.Types.Termination

/-! # The pipeline never faults

Behind a decode loop without an overflow, every pass returns and the result is printed. Each
pass leaves a function whose index points inside its blocks and whose operations assign no
constant; that is what the index lookups and the printer rely on.
-/

namespace Decompiler

open Cfg Dataflow

/-- The index points inside the blocks, and no operation assigns a constant. -/
structure Function.Sane (f : Function) : Prop where
  index_lt : ∀ a i, f.blockIndex.lookup a = some i → i < f.blocks.length
  writable : ∀ b ∈ f.blocks, ∀ op ∈ b.ops, op.Writable

theorem Instruction.WellFormed.writable {op : Instruction} (h : op.WellFormed) : op.Writable :=
  fun _ hdest => h.dest_ne_constant hdest

namespace ConstProp

theorem writable_rewrite {f : Function} (hw : ∀ b ∈ f.blocks, ∀ op ∈ b.ops, op.Writable)
    (r : DataflowResult ConstState) : ∀ b ∈ (rewrite f r).blocks, ∀ op ∈ b.ops, op.Writable := by
  rw [rewrite_blocks]
  intro b' hb' op hop dest hdest
  obtain ⟨b, hb, rfl⟩ := List.mem_map.mp hb'
  rw [BasicBlock.ops, rewriteBlock, flatMap_rewriteInstructions] at hop
  obtain ⟨original, horiginal, hsame, -⟩ := exists_of_mem_rewriteOps hop
  exact hw b hb original horiginal dest (hsame ▸ hdest)

end ConstProp

theorem Cfg.IsLinked.index_lt {f : Function} (h : IsLinked f) {a : Address} {i : ℕ}
    (hi : f.blockIndex.lookup a = some i) : i < f.blocks.length := by
  have hne : f.blockIndex.keys ≠ ∅ := by
    have hmem : a ∈ f.blockIndex := Finmap.lookup_isSome.mp (hi ▸ rfl)
    exact Finset.ne_empty_of_mem (Finmap.mem_keys.mpr hmem)
  have hat := h.blockAt a
  rw [Function.blockAt, if_neg hne, hi] at hat
  dsimp only at hat
  unfold index at hat
  by_contra hge
  rw [List.getElem?_eq_none (Nat.not_lt.mp hge)] at hat
  cases hat

/-- What every pass behind the construction of the graph keeps. -/
structure Passable (f : Function) : Prop where
  linked : IsLinked f
  writable : ∀ b ∈ f.blocks, ∀ op ∈ b.ops, op.Writable
  entry : f.blocks ≠ [] → ∃ b ∈ f.blocks, b.startAddress = f.entry

namespace Passable

variable {f : Function} (h : Passable f)

include h

theorem sane : f.Sane := ⟨fun _ _ => h.linked.index_lt, h.writable⟩

theorem rewrite (r : DataflowResult ConstProp.ConstState) : Passable (ConstProp.rewrite f r) where
  linked := ConstProp.linked_rewrite h.linked r
  writable := ConstProp.writable_rewrite h.writable r
  entry hne := by
    obtain ⟨b, hb, hentry⟩ := h.entry fun hnil => hne (by
      rw [ConstProp.rewrite_blocks, hnil]
      rfl)
    exact ⟨_, List.mem_map_of_mem hb, hentry⟩

theorem withTypes (types : Finmap fun _ : Location => DataType) :
    Passable { f with types := types } :=
  ⟨⟨h.linked.nodup_starts, h.linked.blockAt, h.linked.nodup_successors, h.linked.successor⟩,
    h.writable, h.entry⟩

theorem withAst (ast : Option HighLevelAst) : Passable { f with ast := ast } :=
  ⟨⟨h.linked.nodup_starts, h.linked.blockAt, h.linked.nodup_successors, h.linked.successor⟩,
    h.writable, h.entry⟩

open Structurer in
theorem exists_ast : ∃ ast, Structurer.run f = .ok { f with ast := some ast } ∧
    Output.Printable ast.lines := by
  by_cases hnil : f.blocks = []
  · refine ⟨.seq [], ?_, ?_⟩
    · rw [Structurer.run, doStructure, if_pos hnil]
      rfl
    · intro a ops hcode
      cases hcode
  · obtain ⟨backEdges, r, -, -, -, hexp, hast⟩ := doStructure_eq_ok h.linked (h.entry hnil)
    refine ⟨wrapNodes r.nodes, by rw [Structurer.run, hast]; rfl, ?_⟩
    intro a ops hcode op hop
    rw [lines_wrapNodes_nodes] at hcode
    obtain ⟨b, hb, -, rfl⟩ := Region.exists_taken_of_code hcode
    exact h.writable b (hexp.mem_of_mem_taken hb) op (List.mem_filter.mp hop).1

end Passable

theorem Cfg.IsGraphOf.passable {flat : List LiftedInstruction} {g : Function}
    (hg : IsGraphOf flat g) (hflat : IsLifted g.entry flat) : Passable g where
  linked := hg.linked
  writable _ hb _ hop := (hg.wellFormed hflat hb hop).writable
  entry hne := Structurer.exists_entry hg hflat.isYielded hne

/-- The passes return one after the other on a stream as the decode loop yields it. -/
theorem passes_ofStream {name : String} {entry : Address} {flat : List LiftedInstruction}
    (hflat : IsLifted entry flat) : ∃ g₁ g₂ g₃ ast,
      build (.ofStream name entry flat) = .ok g₁ ∧ Passable g₁ ∧
      ConstProp.run g₁ = .ok g₂ ∧ Passable g₂ ∧ Types.run g₂ = .ok g₃ ∧ Passable g₃ ∧
      Structurer.run g₃ = .ok { g₃ with ast := some ast } ∧ Output.Printable ast.lines := by
  obtain ⟨g, hbuild, rfl, hgraph⟩ := @build_ofStream name entry flat hflat.nodup
  have hpass := hgraph.passable hflat
  obtain ⟨r, -, hprop, -⟩ := ConstProp.run_eq_ok hgraph.nodup_starts hgraph.edgesReversed
  obtain ⟨types, htypes⟩ := Types.run_eq_ok (ConstProp.rewrite g r)
  have hpass₃ := (hpass.rewrite r).withTypes types
  obtain ⟨ast, hast, hprint⟩ := hpass₃.exists_ast
  exact ⟨g, _, _, ast, hbuild, hpass, hprop, hpass.rewrite r, htypes, hpass₃, hast, hprint⟩

theorem sane_ofStream {name : String} {entry : Address} {flat : List LiftedInstruction}
    (hflat : IsLifted entry flat) : (Function.ofStream name entry flat).Sane where
  index_lt _ _ hi := nomatch hi
  writable b hb op hop := by
    obtain rfl := List.mem_singleton.mp hb
    obtain ⟨li, hli, hop⟩ := List.mem_flatMap.mp hop
    exact ((hflat.shaped li hli).wellFormed op hop).writable

/-- Behind a decode loop without an overflow nothing faults: every sequence of passes up to a
point of the pipeline returns a sane function, and the whole result is printed. -/
theorem pipeline_total (arch : Arch) (name : String) (bytes : List UInt8) (base : Address) :
    arch.processFunction name bytes base = .error .addressOverflow ∨
      ∃ f, arch.processFunction name bytes base = .ok f ∧
        (∀ n, ∃ g, runPasses (passes.take n) f = .ok g ∧ g.Sane) ∧
        ∃ g text, runPhase2 f = .ok (g, text) := by
  rcases arch.processFunction_tiles name bytes base with herror | ⟨lis, hok, -⟩
  · exact Or.inl herror
  · right
    obtain ⟨flat, hf, hflat⟩ := Arch.processFunction_eq_ok hok
    rw [hf] at hok
    obtain ⟨g₁, g₂, g₃, ast, h₁, hp₁, h₂, hp₂, h₃, hp₃, h₄, hprint⟩ :=
      @passes_ofStream name base flat hflat
    refine ⟨_, hok, ?_, ?_⟩
    · rintro (_ | _ | _ | _ | n)
      · exact ⟨_, rfl, sane_ofStream hflat⟩
      · exact ⟨g₁, by simp [runPasses, passes, h₁], hp₁.sane⟩
      · exact ⟨g₂, by simp [runPasses, passes, h₁, h₂], hp₂.sane⟩
      · exact ⟨g₃, by simp [runPasses, passes, h₁, h₂, h₃], hp₃.sane⟩
      · exact ⟨_, by simp [runPasses, passes, h₁, h₂, h₃, h₄], (hp₃.withAst (some ast)).sane⟩
    · obtain ⟨text, htext⟩ := Output.generate_eq_ok (f := { g₃ with ast := some ast }) rfl hprint
      exact ⟨{ g₃ with ast := some ast }, text, by
        simp [runPhase2, runPasses, passes, h₁, h₂, h₃, h₄, htext]⟩

end Decompiler
