import Decompiler.Cli.Registers
import Decompiler.Cli.Totality
import Decompiler.Output.Origins

/-! # What the pseudocode declares

The names in the body are those of operations in the blocks, and the declarations are those of
the locations that the operations assign. A register that is only read is not declared.
-/

namespace Decompiler

open Output

theorem assignedTemps_eq_filterMap (ops : List Instruction) : assignedTemps ops =
    (ops.map Instruction.opDest).filterMap fun dest? =>
      match dest? with
      | some dest => if dest.space = .unique then some dest.offset else none
      | none => none := by
  rw [List.filterMap_map]
  rfl

namespace Output

theorem Assigned.congr {ops ops' : List Instruction} {l : Location}
    (hdests : ops.map Instruction.opDest = ops'.map Instruction.opDest) (h : Assigned ops l) :
    Assigned ops' l := by
  obtain ⟨op, hop, dest, hdest, hdecl⟩ := h
  have hmem : some dest ∈ ops'.map Instruction.opDest := by
    rw [← hdests]
    exact List.mem_map.mpr ⟨op, hop, hdest⟩
  obtain ⟨op', hop', hdest'⟩ := List.mem_map.mp hmem
  exact ⟨op', hop', dest, hdest', hdecl⟩

/-- Operations stay well named when they keep what they assign and read nothing new but
literals. -/
theorem WellNamed.rewritten {regs : List Varnode} {ops ops' : List Instruction}
    (h : WellNamed regs ops)
    (hdests : ops.map Instruction.opDest = ops'.map Instruction.opDest)
    (hreads : ∀ op' ∈ ops', ∃ op ∈ ops, op'.opDest = op.opDest ∧
      ∀ v ∈ op'.operands, v.space = .constant ∨ v ∈ op.operands) : WellNamed regs ops' where
  uses op' hop' := by
    obtain ⟨op, hop, hdest, hoperands⟩ := hreads op' hop'
    refine ⟨fun v hv => (h.uses op hop).dest v (hdest ▸ hv), fun v hv => ?_⟩
    exact (hoperands v hv).elim .inl ((h.uses op hop).operand v)
  single := by
    rw [assignedTemps_eq_filterMap, ← hdests, ← assignedTemps_eq_filterMap]
    exact h.single
  assigned op' hop' v hv hspace := by
    obtain ⟨op, hop, -, hoperands⟩ := hreads op' hop'
    have hv' : v ∈ op.operands := (hoperands v hv).resolve_left (by simp [hspace])
    exact (h.assigned op hop v hv' hspace).congr hdests

end Output

namespace ConstProp

open Dataflow

theorem wellNamed_rewrite {regs : List Varnode} {f : Function}
    (h : WellNamed regs (f.blocks.flatMap BasicBlock.ops)) (r : DataflowResult ConstState) :
    WellNamed regs ((rewrite f r).blocks.flatMap BasicBlock.ops) := by
  have hops : ∀ b, ∃ s, (rewriteBlock r b).ops = rewriteOps b.ops s := fun b =>
    ⟨_, flatMap_rewriteInstructions _ _⟩
  refine h.rewritten ?_ ?_
  · rw [rewrite_blocks, List.flatMap_map, List.map_flatMap, List.map_flatMap]
    congr 1
    ext1 b
    obtain ⟨s, hs⟩ := hops b
    rw [hs, map_opDest_rewriteOps]
  · rw [rewrite_blocks]
    intro op' hop'
    obtain ⟨b', hb', hop'⟩ := List.mem_flatMap.mp hop'
    obtain ⟨b, hb, rfl⟩ := List.mem_map.mp hb'
    obtain ⟨s, hs⟩ := hops b
    rw [hs] at hop'
    obtain ⟨op, hop, hsame⟩ := exists_of_mem_rewriteOps hop'
    exact ⟨op, List.mem_flatMap.mpr ⟨b, hb, hop⟩, hsame⟩

end ConstProp

namespace Output

def bodyPieces (g : Function) : List Piece :=
  match g.ast with
  | some ast => astPieces g.types 1 ast
  | none => []

def declaredNames (g : Function) : List String :=
  (declared (g.blocks.flatMap BasicBlock.ops)).map nameOf

def Occurs (g : Function) (v : Varnode) : Prop :=
  Declarable v ∧ (.target v ∈ bodyPieces g ∨ .operand v ∈ bodyPieces g)

/-- Every name in the body is declared once, and no two declarations have the same name. -/
def DeclaresUsed (g : Function) : Prop :=
  (declaredNames g).Nodup ∧ ∀ v, Occurs g v → (declaredNames g).count (nameOf v) = 1

/-- No two declarations have the same name, and a name in the body is declared if some operation
assigns it; targets and temporaries are. -/
structure DeclaresAssigned (g : Function) : Prop where
  nodup : (declaredNames g).Nodup
  count : ∀ v, Occurs g v → (declaredNames g).count (nameOf v) =
    if Assigned (g.blocks.flatMap BasicBlock.ops) v.location then 1 else 0
  target : ∀ v, .target v ∈ bodyPieces g →
    Declarable v ∧ Assigned (g.blocks.flatMap BasicBlock.ops) v.location
  temporary : ∀ v, .operand v ∈ bodyPieces g → v.space = .unique →
    Assigned (g.blocks.flatMap BasicBlock.ops) v.location

/-- The text of an analysed function has a declaration for each of the names, and behind them
the pieces of the body. -/
def Shows (g : Function) (text : String) : Prop :=
  ∃ head body, printPieces (bodyPieces g) = .ok body ∧
    text = head ++ String.join ((declared (g.blocks.flatMap BasicBlock.ops)).map fun v =>
      "    " ++ (declaredCtype g.types v ++ " " ++ nameOf v) ++ ";\n") ++ "\n" ++ body ++ "\x7d\n"

theorem declarations_eq (g : Function) : declarations g =
    .ok ((declared (g.blocks.flatMap BasicBlock.ops)).map fun v =>
      declaredCtype g.types v ++ " " ++ nameOf v) := by
  refine Fallible.mapM_eq_ok fun v hv => ?_
  obtain ⟨op, -, -, hdecl⟩ := exists_of_mem_declared hv
  rw [declaration_eq, varName_eq_nameOf hdecl]
  rfl

theorem shows_of_generate {g : Function} {ast : HighLevelAst} {text : String}
    (hast : g.ast = some ast) (h : generate g = .ok text) : Shows g text := by
  rw [generate, hast, declarations_eq] at h
  obtain ⟨ident, -, h⟩ := Fallible.bind_eq_ok.mp h
  rw [Fallible.ok_bind] at h
  dsimp only at h
  rw [Fallible.ok_bind] at h
  obtain ⟨body, hbody, h⟩ := Fallible.bind_eq_ok.mp h
  obtain rfl := Except.ok.inj h
  rw [List.map_map]
  refine ⟨_, body, ?_, rfl⟩
  rw [bodyPieces, hast]
  exact printPieces_ast g.types hbody

/-- What the pieces of a body name is assigned or read by operations of the blocks. -/
def Founded (g : Function) : Prop :=
  ∀ p ∈ bodyPieces g, (∃ s, p = .text s) ∨ ∃ op ∈ g.blocks.flatMap BasicBlock.ops,
    (∀ v, p = .target v → op.opDest = some v) ∧ ∀ v, p = .operand v → v ∈ op.operands

theorem Founded.declaresAssigned {regs : List Varnode} (hregs : RegisterFile regs) {g : Function}
    (h : Founded g) (hnamed : WellNamed regs (g.blocks.flatMap BasicBlock.ops)) :
    DeclaresAssigned g := by
  have htarget : ∀ v, .target v ∈ bodyPieces g → Declarable v ∧ Known regs v ∧
      Assigned (g.blocks.flatMap BasicBlock.ops) v.location := by
    intro v hv
    rcases h _ hv with ⟨s, hs⟩ | ⟨op, hop, hdest, -⟩
    · cases hs
    · have hknown := (hnamed.uses op hop).dest v (hdest v rfl)
      have hdecl : Declarable v := hknown.imp_left (hregs.register v)
      exact ⟨hdecl, hknown, op, hop, v, hdest v rfl, hdecl, rfl⟩
  have hoperand : ∀ v, .operand v ∈ bodyPieces g → (v.space = .constant ∨ Known regs v) ∧
      (v.space = .unique → Assigned (g.blocks.flatMap BasicBlock.ops) v.location) := by
    intro v hv
    rcases h _ hv with ⟨s, hs⟩ | ⟨op, hop, -, hread⟩
    · cases hs
    · exact ⟨(hnamed.uses op hop).operand v (hread v rfl), hnamed.assigned op hop v (hread v rfl)⟩
  refine ⟨hnamed.nodup_names hregs, ?_, ?_, ?_⟩
  · rintro v ⟨hdecl, hv | hv⟩
    · obtain ⟨-, hknown, hassigned⟩ := htarget v hv
      exact hnamed.count_nameOf hregs hknown fun _ => hassigned
    · obtain ⟨hknown, hassigned⟩ := hoperand v hv
      refine hnamed.count_nameOf hregs (hknown.resolve_left ?_) hassigned
      rcases hdecl with hspace | hspace <;> simp [hspace]
  · intro v hv
    obtain ⟨hdecl, -, hassigned⟩ := htarget v hv
    exact ⟨hdecl, hassigned⟩
  · intro v hv
    exact (hoperand v hv).2

open Structurer in
theorem founded_of_structured {f : Function} (h : Passable f) {ast : HighLevelAst}
    (hrun : Structurer.run f = .ok { f with ast := some ast }) :
    Founded { f with ast := some ast } := by
  obtain ⟨tree, htree, hast⟩ := Fallible.bind_eq_ok.mp hrun
  have heq : tree = ast := by
    have hfun := congrArg Function.ast (Except.ok.inj hast)
    exact Option.some.inj hfun
  subst heq
  intro p hp
  rcases standsIn_ast f.types hp with htext | ⟨line, hline, hpiece⟩
  · exact .inl htext
  right
  by_cases hnil : f.blocks = []
  · rw [doStructure, if_pos hnil] at htree
    obtain rfl := Except.ok.inj htree
    cases hline
  · obtain ⟨backEdges, r, -, -, -, hexp, hast⟩ := doStructure_eq_ok h.linked (h.entry hnil)
    obtain rfl := Except.ok.inj (hast.symm.trans htree)
    rw [lines_wrapNodes_nodes] at hline
    exact exists_op_of_line f.types hexp hline hpiece

end Output

/-- Behind a decode loop without an overflow the pseudocode declares what the function assigns. -/
theorem pseudocode_declares_assigned (arch : Arch) (name : String) (bytes : List UInt8)
    (base : Address) : arch.processFunction name bytes base = .error .addressOverflow ∨
      ∃ f g text, arch.processFunction name bytes base = .ok f ∧ runPhase2 f = .ok (g, text) ∧
        Shows g text ∧ DeclaresAssigned g := by
  rcases arch.processFunction_tiles name bytes base with herror | ⟨lis, hok, -⟩
  · exact .inl herror
  right
  obtain ⟨flat, hf, hflat, hnamed⟩ := Arch.processFunction_wellNamed hok
  rw [hf] at hok
  obtain ⟨g, g₂, g₃, ast, h₁, -, h₂, -, h₃, hp₃, h₄, hprint⟩ :=
    @passes_ofStream name base flat hflat
  obtain ⟨g', hbuild, -, hgraph⟩ := @Cfg.build_ofStream name base flat hflat.nodup
  obtain rfl := Except.ok.inj (hbuild.symm.trans h₁)
  obtain ⟨r, -, hr⟩ := Fallible.bind_eq_ok.mp h₂
  obtain rfl := Except.ok.inj hr
  obtain ⟨types, -, ht⟩ := Fallible.bind_eq_ok.mp h₃
  obtain rfl := Except.ok.inj ht
  have hops : g'.blocks.flatMap BasicBlock.ops = flat.flatMap LiftedInstruction.ops := by
    rw [← hgraph.cfg.split.flatten, List.flatMap_assoc]
    rfl
  rw [← hops] at hnamed
  have hnamed₃ := ConstProp.wellNamed_rewrite hnamed r
  obtain ⟨text, htext⟩ := generate_eq_ok (f := { ConstProp.rewrite g' r with
    types := types, ast := some ast }) rfl hprint
  refine ⟨_, { ConstProp.rewrite g' r with types := types, ast := some ast }, text, hok, ?_, ?_, ?_⟩
  · simp [runPhase2, runPasses, passes, h₁, h₂, h₃, h₄, htext]
  · exact shows_of_generate rfl htext
  · exact (founded_of_structured hp₃ h₄).declaresAssigned arch.registerFile hnamed₃

def comparison : List UInt8 := [0x39, 0xC8, 0xC3]

/-- The compared registers are read in the body and not declared. -/
theorem not_declaresUsed_comparison :
    ∃ f g text, Arch.x86.processFunction "input" comparison 0x1000 = .ok f ∧
      runPhase2 f = .ok (g, text) ∧ ¬ DeclaresUsed g := by
  have hrun : ∃ f, Arch.x86.processFunction "input" comparison 0x1000 = .ok f ∧
      ∃ r, runPhase2 f = .ok r ∧ .operand (X86.regVarnode .eax) ∈ bodyPieces r.1 ∧
        (declaredNames r.1).count "EAX" = 0 := by decide +kernel
  obtain ⟨f, hf, ⟨g, text⟩, hphase, hmem, hnone⟩ := hrun
  refine ⟨f, g, text, hf, hphase, ?_⟩
  rintro ⟨-, hcount⟩
  have hone := hcount (X86.regVarnode .eax) ⟨.inl rfl, .inr hmem⟩
  have hname : nameOf (X86.regVarnode .eax) = "EAX" := rfl
  rw [hname, hnone] at hone
  cases hone

end Decompiler
