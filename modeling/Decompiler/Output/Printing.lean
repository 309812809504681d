import Decompiler.Output.Declarations
import Decompiler.Structurer.Text

/-! # The printer never faults

Only a destination in the constant space has no name. A function whose operations assign
no such varnode is printed.
-/

namespace Decompiler

def Instruction.Writable (op : Instruction) : Prop :=
  ∀ dest, op.opDest = some dest → dest.space ≠ .constant

namespace Output

theorem varName_eq_ok {v : Varnode} (h : v.space ≠ .constant) : ∃ s, varName v = .ok s := by
  unfold varName
  cases hv : v.space with
  | constant => exact absurd hv h
  | _ => exact ⟨_, rfl⟩

theorem operand_eq_ok (v : Varnode) : ∃ s, operand v = .ok s := by
  unfold operand
  cases hv : v.space with
  | constant | memory => exact ⟨_, rfl⟩
  | register | unique =>
    apply varName_eq_ok
    rw [hv]
    exact nofun

theorem binaryStatement_eq_ok {dest : Varnode} (h : dest.space ≠ .constant) (lhs rhs : Varnode)
    (before operator after : String) :
    ∃ s, binaryStatement dest lhs rhs before operator after = .ok s := by
  obtain ⟨d, hd⟩ := varName_eq_ok h
  obtain ⟨l, hl⟩ := operand_eq_ok lhs
  obtain ⟨r, hr⟩ := operand_eq_ok rhs
  exact ⟨_, by rw [binaryStatement, hd, hl, hr]; rfl⟩

variable (types : Finmap fun _ : Location => DataType)

theorem statement_eq_ok {op : Instruction} (h : op.Writable) :
    ∃ s, statement types op = .ok s := by
  cases op with
  | copy dest src | load dest src =>
    obtain ⟨d, hd⟩ := varName_eq_ok (h dest rfl)
    obtain ⟨s, hs⟩ := operand_eq_ok src
    exact ⟨_, by simp only [statement, hd, hs]; rfl⟩
  | store addr src =>
    obtain ⟨a, ha⟩ := operand_eq_ok addr
    obtain ⟨s, hs⟩ := operand_eq_ok src
    exact ⟨_, by simp only [statement, ha, hs]; rfl⟩
  | intAdd dest lhs rhs | intSub dest lhs rhs | intEqual dest lhs rhs | intNotEqual dest lhs rhs
  | intSless dest lhs rhs | intSlessEqual dest lhs rhs =>
    have hbinary := binaryStatement_eq_ok (h dest rfl) lhs rhs
    dsimp only [statement]
    obtain ⟨s, hs⟩ := hbinary _ _ _
    exact ⟨_, by rw [hs]; rfl⟩
  | cbranch condition target =>
    obtain ⟨c, hc⟩ := operand_eq_ok condition
    exact ⟨_, by simp only [statement, hc]; rfl⟩
  | call target => cases target <;> exact ⟨_, rfl⟩
  | phi dest srcs =>
    obtain ⟨d, hd⟩ := varName_eq_ok (h dest rfl)
    obtain ⟨ss, hss⟩ := Fallible.exists_mapM_eq_ok fun v (_ : v ∈ srcs) => operand_eq_ok v
    exact ⟨_, by simp only [statement, hd, hss]; rfl⟩
  | branch | ret | nop => exact ⟨_, rfl⟩

def Printable (lines : List Line) : Prop :=
  ∀ a ops, .code a ops ∈ lines → ∀ op ∈ ops, op.Writable

theorem Printable.mono {l m : List Line} (h : Printable m) (hsub : l ⊆ m) : Printable l :=
  fun a ops hcode => h a ops (hsub hcode)

mutual

theorem printAst_eq_ok (indent : ℕ) (ast : HighLevelAst) (h : Printable ast.lines) :
    ∃ s, printAst types indent ast = .ok s := by
  cases ast with
  | block a ops =>
    obtain ⟨lines, hlines⟩ := Fallible.exists_mapM_eq_ok fun op hop =>
      statement_eq_ok types (h a ops (List.mem_singleton_self _) op hop)
    exact ⟨_, by rw [printAst, hlines]; rfl⟩
  | seq nodes =>
    rw [printAst]
    exact printNodes_eq_ok indent nodes h
  | ifElse cond thenBody elseBody =>
    obtain ⟨c, hc⟩ := operand_eq_ok cond
    obtain ⟨t, ht⟩ := printAst_eq_ok (indent + 1) thenBody (h.mono fun line hline => by
      simp [HighLevelAst.lines, hline])
    obtain ⟨e, he⟩ := printElse_eq_ok indent elseBody (h.mono fun line hline => by
      simp [HighLevelAst.lines, hline])
    exact ⟨_, by rw [printAst, hc, ht, he]; rfl⟩
  | whileDo cond body =>
    obtain ⟨c, hc⟩ := operand_eq_ok cond
    obtain ⟨t, ht⟩ := printAst_eq_ok (indent + 1) body (h.mono fun line hline => by
      simp [HighLevelAst.lines, hline])
    exact ⟨_, by rw [printAst, hc, ht]; rfl⟩
  | goto target => exact ⟨_, by rw [printAst]; rfl⟩
  | label a => exact ⟨_, by rw [printAst]; rfl⟩
  | ret => exact ⟨_, by rw [printAst]; rfl⟩

theorem printNodes_eq_ok (indent : ℕ) (nodes : List HighLevelAst)
    (h : Printable (nodeLines nodes)) : ∃ s, printNodes types indent nodes = .ok s := by
  cases nodes with
  | nil => exact ⟨_, by rw [printNodes]; rfl⟩
  | cons node nodes =>
    obtain ⟨s, hs⟩ := printAst_eq_ok indent node (h.mono fun line hline => by
      simp [nodeLines, hline])
    obtain ⟨t, ht⟩ := printNodes_eq_ok indent nodes (h.mono fun line hline => by
      simp [nodeLines, hline])
    exact ⟨_, by rw [printNodes, hs, ht]; rfl⟩

theorem printElse_eq_ok (indent : ℕ) (els : Option HighLevelAst)
    (h : Printable (elseLines els)) : ∃ s, printElse types indent els = .ok s := by
  cases els with
  | none => exact ⟨_, by rw [printElse]; rfl⟩
  | some els =>
    obtain ⟨s, hs⟩ := printAst_eq_ok (indent + 1) els (h.mono fun line hline => by
      simp [elseLines, hline])
    exact ⟨_, by rw [printElse, hs]; rfl⟩

end

theorem declaration_eq_ok {v : Varnode} (h : v.space ≠ .constant) :
    ∃ s, declaration types v = .ok s := by
  obtain ⟨n, hn⟩ := varName_eq_ok h
  rw [declaration, hn, Fallible.ok_bind]
  split <;> exact ⟨_, rfl⟩

theorem declarations_eq_ok (f : Function) : ∃ ss, declarations f = .ok ss := by
  refine Fallible.exists_mapM_eq_ok fun v hv => declaration_eq_ok f.types ?_
  obtain ⟨op, -, -, hspace⟩ := exists_of_mem_declared hv
  rcases hspace with hspace | hspace <;> rw [hspace] <;> exact nofun

theorem sanitizeIdent_eq_ok (name : String) : ∃ s, sanitizeIdent name = .ok s := by
  unfold sanitizeIdent
  dsimp only
  split
  case isTrue => exact ⟨_, rfl⟩
  case isFalse hne =>
    obtain ⟨c, hc⟩ := Option.isSome_iff_exists.mp (List.isSome_head?.mpr hne)
    rw [hc]
    exact ⟨_, rfl⟩

/-- A function with a syntax tree is printed. -/
theorem generate_eq_ok {f : Function} {ast : HighLevelAst} (hast : f.ast = some ast)
    (h : Printable ast.lines) : ∃ text, generate f = .ok text := by
  obtain ⟨ident, hident⟩ := sanitizeIdent_eq_ok f.name
  obtain ⟨decls, hdecls⟩ := declarations_eq_ok f
  obtain ⟨body, hbody⟩ := printAst_eq_ok f.types 1 ast h
  exact ⟨_, by simp only [generate, hident, hdecls, hast, hbody, Fallible.ok_bind]; rfl⟩

end Output

end Decompiler
