import Decompiler.Cli.Declared
import Decompiler.Library.CLanguage
import Decompiler.Output.Ctypes

/-! # The syntax of the printed text

The text that is printed for a function without inferred types is that of a function in C:
operations become statements, and the nodes of the syntax tree the statements that they
are named after.
-/

namespace Decompiler.Output

open CLanguage

def wordType (size : UInt8) : IntType := .unsigned (wordBytes size)

def signedType (size : UInt8) : IntType := ⟨wordBytes size, true⟩

def targetName (v : Varnode) : String :=
  if v.space = .memory then "mem_0x" ++ hex v.offset else nameOf v

def operandExpr (v : Varnode) : Expr :=
  match v.space with
  | .constant => .literal v.offset.toNat
  | .memory => .var ("MEM[0x" ++ hex v.offset ++ "]")
  | .register | .unique => .var (nameOf v)

def statements : Instruction → List Stmt
  | .copy dest src => [.assign (targetName dest) (operandExpr src)]
  | .load dest addr => [.assign (targetName dest) (.load (wordType dest.size) (operandExpr addr))]
  | .store addr src => [.store (wordType src.size) (operandExpr addr) (operandExpr src)]
  | .intAdd dest lhs rhs =>
    [.assign (targetName dest) (.binary .add (operandExpr lhs) (operandExpr rhs))]
  | .intSub dest lhs rhs =>
    [.assign (targetName dest) (.binary .sub (operandExpr lhs) (operandExpr rhs))]
  | .intEqual dest lhs rhs =>
    [.assign (targetName dest) (.binary .eq (operandExpr lhs) (operandExpr rhs))]
  | .intNotEqual dest lhs rhs =>
    [.assign (targetName dest) (.binary .ne (operandExpr lhs) (operandExpr rhs))]
  | .intSless dest lhs rhs =>
    [.assign (targetName dest) (.binary .lt (.cast (signedType lhs.size) (operandExpr lhs))
      (.cast (signedType lhs.size) (operandExpr rhs)))]
  | .intSlessEqual dest lhs rhs =>
    [.assign (targetName dest) (.binary .le (.cast (signedType lhs.size) (operandExpr lhs))
      (.cast (signedType lhs.size) (operandExpr rhs)))]
  | .branch target => [.goto (branchTarget target)]
  | .cbranch condition target => [.ifGoto (operandExpr condition) (branchTarget target)]
  | .call (.absolute addr) => [.call ("sub_0x" ++ hex addr)]
  | .call .indirect => [.comment "indirect call"]
  | .ret => [.ret]
  | .nop => []
  | .phi dest srcs =>
    [.comment (targetName dest ++ " = φ(" ++ ", ".intercalate (srcs.map fun v =>
      (operandExpr v).text) ++ ")")]

mutual

def body : HighLevelAst → List Stmt
  | .block _ instructions => instructions.flatMap statements
  | .seq nodes => nodesBody nodes
  | .ifElse cond thenBody elseBody =>
    [.ifElse (operandExpr cond) (body thenBody) (elseBodyOf elseBody)]
  | .whileDo cond loop => [.whileDo (operandExpr cond) (body loop)]
  | .goto target => [.goto (branchTarget (.absolute target))]
  | .label addr => [.label (branchTarget (.absolute addr))]
  | .ret => [.ret]

def nodesBody : List HighLevelAst → List Stmt
  | [] => []
  | node :: nodes => body node ++ nodesBody nodes

def elseBodyOf : Option HighLevelAst → Option (List Stmt)
  | none => none
  | some els => some (body els)

end

theorem nodesBody_eq_flatMap (nodes : List HighLevelAst) :
    nodesBody nodes = nodes.flatMap body := by
  induction nodes with
  | nil => rfl
  | cons node nodes ih => rw [nodesBody, ih, List.flatMap_cons]

section Statements

theorem wordType_name (size : UInt8) : (wordType size).name = unsignedCtype size := by
  unfold wordType wordBytes unsignedCtype
  split <;> split <;> first | contradiction | omega | decide

theorem signedType_name (size : UInt8) : (signedType size).name = signedCtype size := by
  unfold signedType wordBytes signedCtype
  split <;> split <;> first | contradiction | omega | decide

theorem varName_eq_targetName {v : Varnode} {s : String} (h : varName v = .ok s) :
    s = targetName v := by
  unfold varName at h
  cases hspace : v.space with
  | register | unique | memory =>
    rw [hspace] at h
    obtain rfl := Except.ok.inj h
    simp [targetName, nameOf, hspace]
  | constant =>
    rw [hspace] at h
    cases h

theorem operand_eq (v : Varnode) : operand v = .ok (operandExpr v).text := by
  unfold operand operandExpr
  cases hspace : v.space with
  | constant | memory => rfl
  | register => exact varName_eq_nameOf (.inl hspace)
  | unique => exact varName_eq_nameOf (.inr hspace)

theorem binaryStatement_eq {dest lhs rhs : Varnode} {before operator after s : String}
    (h : binaryStatement dest lhs rhs before operator after = .ok s) :
    s = targetName dest ++ " = " ++ before ++ (operandExpr lhs).text ++ operator ++
      (operandExpr rhs).text ++ after := by
  obtain ⟨d, hd, h⟩ := Fallible.bind_eq_ok.mp h
  rw [operand_eq, operand_eq] at h
  rw [← varName_eq_targetName hd]
  exact (Except.ok.inj h).symm

theorem accessCtype_empty (addr accessed : Varnode) :
    accessCtype ∅ addr accessed = (wordType accessed.size).name := by
  rw [wordType_name]
  rfl

@[simp] theorem bodyText_singleton (indent : ℕ) (s : Stmt) :
    bodyText indent [s] = s.text indent := by
  simp [bodyText]

/-- The line for an operation. -/
theorem statements_text {op : Instruction} {stmt : String} (h : statement ∅ op = .ok (some stmt))
    (indent : ℕ) : bodyText indent (statements op) = pad indent ++ stmt ++ "\n" := by
  have hpad : indentation indent = pad indent := rfl
  apply String.toList_inj.mp
  cases op with
  | copy dest src =>
    obtain ⟨d, hd, h⟩ := Fallible.bind_eq_ok.mp h
    rw [operand_eq] at h
    obtain rfl := Option.some.inj (Except.ok.inj h)
    rw [varName_eq_targetName hd]
    simp [statements, Stmt.text, hpad]
  | load dest addr =>
    obtain ⟨d, hd, h⟩ := Fallible.bind_eq_ok.mp h
    rw [operand_eq] at h
    obtain rfl := Option.some.inj (Except.ok.inj h)
    rw [varName_eq_targetName hd]
    simp [statements, Stmt.text, Expr.text, accessCtype_empty, hpad]
  | store addr src =>
    rw [statement, operand_eq, operand_eq] at h
    obtain rfl := Option.some.inj (Except.ok.inj h)
    simp [statements, Stmt.text, accessCtype_empty, hpad]
  | intAdd dest lhs rhs | intSub dest lhs rhs | intEqual dest lhs rhs | intNotEqual dest lhs rhs
  | intSless dest lhs rhs | intSlessEqual dest lhs rhs =>
    obtain ⟨s, hs, h⟩ := Fallible.bind_eq_ok.mp h
    obtain rfl := Option.some.inj (Except.ok.inj h)
    rw [binaryStatement_eq hs]
    simp [statements, Stmt.text, Expr.text, BinaryOp.symbol, BinaryOp.isComparison, hpad,
      signedType_name]
  | cbranch condition target =>
    rw [statement, operand_eq] at h
    obtain rfl := Option.some.inj (Except.ok.inj h)
    simp [statements, Stmt.text, hpad]
  | phi dest srcs =>
    have hsrcs : srcs.mapM operand = .ok (srcs.map fun v => (operandExpr v).text) :=
      Fallible.mapM_eq_ok fun v _ => operand_eq v
    rw [statement, hsrcs, Fallible.ok_bind] at h
    obtain ⟨d, hd, h⟩ := Fallible.bind_eq_ok.mp h
    obtain rfl := Option.some.inj (Except.ok.inj h)
    rw [varName_eq_targetName hd]
    simp [statements, Stmt.text, hpad]
  | call target =>
    cases target with
    | absolute addr =>
      obtain rfl := Option.some.inj (Except.ok.inj h)
      simp [statements, Stmt.text, hpad]
    | indirect =>
      obtain rfl := Option.some.inj (Except.ok.inj h)
      simp [statements, Stmt.text, hpad]
  | branch target =>
    obtain rfl := Option.some.inj (Except.ok.inj h)
    simp [statements, Stmt.text, hpad]
  | ret =>
    obtain rfl := Option.some.inj (Except.ok.inj h)
    simp [statements, Stmt.text, hpad]
  | nop => cases h

theorem statements_eq_nil {op : Instruction} (h : statement ∅ op = .ok none) :
    statements op = [] := by
  cases op with
  | nop => rfl
  | call target => cases target <;> cases h
  | branch | ret => cases h
  | copy | load =>
    obtain ⟨d, -, h⟩ := Fallible.bind_eq_ok.mp h
    rw [operand_eq] at h
    cases h
  | store | cbranch =>
    simp only [statement, operand_eq] at h
    cases h
  | phi =>
    obtain ⟨d, -, h⟩ := Fallible.bind_eq_ok.mp h
    obtain ⟨e, -, h⟩ := Fallible.bind_eq_ok.mp h
    cases h
  | _ =>
    obtain ⟨d, -, h⟩ := Fallible.bind_eq_ok.mp h
    cases h

theorem join_lines {ops : List Instruction} {lines : List (Option String)}
    (h : ops.mapM (statement ∅) = .ok lines) {indent : ℕ} {g : Option String → String}
    (hsome : ∀ stmt, g (some stmt) = pad indent ++ stmt ++ "\n") (hnone : g none = "") :
    String.join (lines.map g) = bodyText indent (ops.flatMap statements) := by
  induction ops generalizing lines with
  | nil =>
    obtain rfl := Except.ok.inj h
    rfl
  | cons op ops ih =>
    rw [List.mapM_cons] at h
    obtain ⟨line, hline, h⟩ := Fallible.bind_eq_ok.mp h
    obtain ⟨rest, hrest, h⟩ := Fallible.bind_eq_ok.mp h
    obtain rfl := Except.ok.inj h
    rw [List.map_cons, String.join_cons, List.flatMap_cons, bodyText_append, ih hrest]
    cases line with
    | none => rw [hnone, statements_eq_nil hline, bodyText]
    | some stmt => rw [hsome, statements_text hline]

end Statements

mutual

/-- The printed text is the text of the statements. -/
theorem text_of_printAst {indent : ℕ} (ast : HighLevelAst) {text : String}
    (h : printAst ∅ indent ast = .ok text) : text = bodyText indent (body ast) := by
  have hpad : indentation indent = pad indent := rfl
  cases ast with
  | block a ops =>
    rw [printAst] at h
    obtain ⟨lines, hlines, h⟩ := Fallible.bind_eq_ok.mp h
    obtain rfl := Except.ok.inj h
    exact join_lines hlines (fun stmt => rfl) rfl
  | seq nodes =>
    rw [printAst] at h
    exact text_of_printNodes nodes h
  | ifElse cond thenBody elseBody =>
    rw [printAst, operand_eq, Fallible.ok_bind] at h
    obtain ⟨b, hb, h⟩ := Fallible.bind_eq_ok.mp h
    obtain ⟨e, he, h⟩ := Fallible.bind_eq_ok.mp h
    obtain rfl := Except.ok.inj h
    rw [text_of_printAst thenBody hb, text_of_printElse elseBody he, body, bodyText_singleton,
      Stmt.text, hpad]
  | whileDo cond loop =>
    rw [printAst, operand_eq, Fallible.ok_bind] at h
    obtain ⟨b, hb, h⟩ := Fallible.bind_eq_ok.mp h
    obtain rfl := Except.ok.inj h
    rw [text_of_printAst loop hb, body, bodyText_singleton, Stmt.text, hpad]
  | goto target =>
    rw [printAst] at h
    obtain rfl := Except.ok.inj h
    rw [body, bodyText_singleton, Stmt.text, hpad]
    apply String.toList_inj.mp
    simp [branchTarget]
  | label a =>
    rw [printAst] at h
    obtain rfl := Except.ok.inj h
    have hleft : indentation (indent - 1) = pad (indent - 1) := rfl
    rw [body, bodyText_singleton, Stmt.text, hleft]
    apply String.toList_inj.mp
    simp [branchTarget]
  | ret =>
    rw [printAst] at h
    obtain rfl := Except.ok.inj h
    rw [body, bodyText_singleton, Stmt.text, hpad]
    apply String.toList_inj.mp
    simp

theorem text_of_printNodes {indent : ℕ} (nodes : List HighLevelAst) {text : String}
    (h : printNodes ∅ indent nodes = .ok text) : text = bodyText indent (nodesBody nodes) := by
  cases nodes with
  | nil =>
    rw [printNodes] at h
    obtain rfl := Except.ok.inj h
    rw [nodesBody, bodyText]
  | cons node nodes =>
    rw [printNodes] at h
    obtain ⟨b, hb, h⟩ := Fallible.bind_eq_ok.mp h
    obtain ⟨e, he, h⟩ := Fallible.bind_eq_ok.mp h
    obtain rfl := Except.ok.inj h
    rw [text_of_printAst node hb, text_of_printNodes nodes he, nodesBody, bodyText_append]

theorem text_of_printElse {indent : ℕ} (els : Option HighLevelAst) {text : String}
    (h : printElse ∅ indent els = .ok text) : text = elseText indent (elseBodyOf els) := by
  have hpad : indentation indent = pad indent := rfl
  cases els with
  | none =>
    rw [printElse] at h
    obtain rfl := Except.ok.inj h
    rw [elseBodyOf, elseText]
  | some els =>
    rw [printElse] at h
    obtain ⟨b, hb, h⟩ := Fallible.bind_eq_ok.mp h
    obtain rfl := Except.ok.inj h
    rw [text_of_printAst els hb, elseBodyOf, elseText, hpad]

end

/-- The function in C that is printed for a function with a syntax tree. -/
def toC (g : Function) (ident : String) (ast : HighLevelAst) : CFunction where
  name := ident
  decls := (declared (g.blocks.flatMap BasicBlock.ops)).map fun v => (wordType v.size, nameOf v)
  body := body ast

theorem declaredCtype_empty (v : Varnode) : declaredCtype ∅ v = (wordType v.size).name := by
  rw [wordType_name]
  rfl

def header (name : String) : String :=
  "// Phase 4 pseudocode for " ++ "\x60" ++ name ++ "\x60 -- structured (if/while)\n"

/-- The pseudocode of a function without inferred types is a comment and a function in C. -/
theorem generate_eq_text {g : Function} (htypes : g.types = ∅) {ast : HighLevelAst}
    (hast : g.ast = some ast) {text : String} (h : generate g = .ok text) :
    ∃ ident, sanitizeIdent g.name = .ok ident ∧
      text = header g.name ++ (toC g ident ast).text := by
  rw [generate, hast, declarations_eq, htypes] at h
  obtain ⟨ident, hident, h⟩ := Fallible.bind_eq_ok.mp h
  rw [Fallible.ok_bind] at h
  dsimp only at h
  rw [Fallible.ok_bind] at h
  obtain ⟨text', hbody, h⟩ := Fallible.bind_eq_ok.mp h
  obtain rfl := Except.ok.inj h
  refine ⟨ident, hident, ?_⟩
  rw [text_of_printAst ast hbody]
  delta header
  simp only [toC, CFunction.text, List.map_map, Function.comp_def, declaredCtype_empty]
  apply String.toList_inj.mp
  simp

end Decompiler.Output
