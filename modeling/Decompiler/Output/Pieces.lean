import Decompiler.Ir.Semantics
import Decompiler.Library.Fallible
import Decompiler.Output.C
import Decompiler.Structurer.Text

/-! # The text in pieces

The body of a function is fixed text between the names of the varnodes that it assigns and
the operands that it reads. The pieces of a body are those of the operations and conditions
in the lines of its syntax tree.
-/

namespace Decompiler.Output

inductive Piece where
  | text (s : String)
  /-- what an operation assigns -/
  | target (v : Varnode)
  /-- what an operation or a condition reads -/
  | operand (v : Varnode)
  deriving DecidableEq

def Piece.print : Piece → Except Fault String
  | text s => .ok s
  | target v => varName v
  | operand v => Output.operand v

def printPieces : List Piece → Except Fault String
  | [] => .ok ""
  | p :: ps => do return (← p.print) ++ (← printPieces ps)

variable (types : Finmap fun _ : Location => DataType)

def binaryPieces (dest lhs rhs : Varnode) (before operator after : String) : List Piece :=
  [.target dest, .text (" = " ++ before), .operand lhs, .text operator, .operand rhs, .text after]

def statementPieces : Instruction → List Piece
  | .copy dest src => [.target dest, .text " = ", .operand src, .text ";"]
  | .load dest addr =>
    [.target dest, .text (" = *(" ++ accessCtype types addr dest ++ "*)(uintptr_t)"), .operand addr,
      .text ";"]
  | .store addr src =>
    [.text ("*(" ++ accessCtype types addr src ++ "*)(uintptr_t)"), .operand addr, .text " = ",
      .operand src, .text ";"]
  | .intAdd dest lhs rhs => binaryPieces dest lhs rhs "" " + " ";"
  | .intSub dest lhs rhs => binaryPieces dest lhs rhs "" " - " ";"
  | .intEqual dest lhs rhs => binaryPieces dest lhs rhs "(" " == " ");"
  | .intNotEqual dest lhs rhs => binaryPieces dest lhs rhs "(" " != " ");"
  | .intSless dest lhs rhs =>
    let ct := signedCtype lhs.size
    binaryPieces dest lhs rhs ("((" ++ ct ++ ")") (" < (" ++ ct ++ ")") ");"
  | .intSlessEqual dest lhs rhs =>
    let ct := signedCtype lhs.size
    binaryPieces dest lhs rhs ("((" ++ ct ++ ")") (" <= (" ++ ct ++ ")") ");"
  | .branch target => [.text ("goto " ++ branchTarget target ++ ";")]
  | .cbranch condition target =>
    [.text "if (", .operand condition, .text (") goto " ++ branchTarget target ++ ";")]
  | .call (.absolute addr) => [.text ("sub_0x" ++ hex addr ++ "();")]
  | .call .indirect => [.text "/* indirect call */"]
  | .ret => [.text "return;"]
  | .nop => []
  | .phi dest srcs =>
    [.text "/* ", .target dest, .text " = φ("] ++ (srcs.map .operand).intersperse (.text ", ") ++
      [.text ") */"]

theorem printPieces_append {ps qs : List Piece} {s t : String} (hp : printPieces ps = .ok s)
    (hq : printPieces qs = .ok t) : printPieces (ps ++ qs) = .ok (s ++ t) := by
  induction ps generalizing s with
  | nil =>
    obtain rfl := Except.ok.inj hp
    simpa using hq
  | cons p ps ih =>
    obtain ⟨a, ha, hp⟩ := Fallible.bind_eq_ok.mp hp
    obtain ⟨b, hb, hp⟩ := Fallible.bind_eq_ok.mp hp
    obtain rfl := Except.ok.inj hp
    rw [List.cons_append, printPieces, ha, Fallible.ok_bind, ih hb, String.append_assoc]
    rfl

theorem printPieces_binary {dest lhs rhs : Varnode} {before operator after s : String}
    (h : binaryStatement dest lhs rhs before operator after = .ok s) :
    printPieces (binaryPieces dest lhs rhs before operator after) = .ok s := by
  obtain ⟨d, hd, h⟩ := Fallible.bind_eq_ok.mp h
  obtain ⟨l, hl, h⟩ := Fallible.bind_eq_ok.mp h
  obtain ⟨r, hr, h⟩ := Fallible.bind_eq_ok.mp h
  obtain rfl := Except.ok.inj h
  simp [binaryPieces, printPieces, Piece.print, hd, hl, hr, String.append_assoc]

theorem printPieces_operands {srcs : List Varnode} {ss : List String}
    (h : srcs.mapM operand = .ok ss) :
    printPieces ((srcs.map Piece.operand).intersperse (.text ", ")) =
      .ok (", ".intercalate ss) := by
  induction srcs generalizing ss with
  | nil =>
    obtain rfl := Except.ok.inj h
    rfl
  | cons v srcs ih =>
    rw [List.mapM_cons] at h
    obtain ⟨s, hs, h⟩ := Fallible.bind_eq_ok.mp h
    obtain ⟨ss', hss, h⟩ := Fallible.bind_eq_ok.mp h
    obtain rfl := Except.ok.inj h
    have hrest := ih hss
    cases srcs with
    | nil =>
      obtain rfl := Except.ok.inj hss
      simp [printPieces, Piece.print, hs]
    | cons w srcs =>
      rw [List.mapM_cons] at hss
      obtain ⟨t, -, hss⟩ := Fallible.bind_eq_ok.mp hss
      obtain ⟨ts, -, hss⟩ := Fallible.bind_eq_ok.mp hss
      obtain rfl := Except.ok.inj hss
      simp only [List.map_cons] at hrest ⊢
      rw [List.intersperse_cons_cons, printPieces, printPieces, hrest, Piece.print, Piece.print, hs]
      simp [String.append_assoc]

theorem statement_eq_none {op : Instruction} (h : statement types op = .ok none) : op = .nop := by
  cases op with
  | nop => rfl
  | copy | load | store | phi =>
    obtain ⟨_, -, h⟩ := Fallible.bind_eq_ok.mp h
    obtain ⟨_, -, h⟩ := Fallible.bind_eq_ok.mp h
    cases h
  | intAdd | intSub | intEqual | intNotEqual | intSless | intSlessEqual | cbranch =>
    obtain ⟨_, -, h⟩ := Fallible.bind_eq_ok.mp h
    cases h
  | call target => cases target <;> cases h
  | branch | ret => cases h

theorem printPieces_statement {op : Instruction} {stmt : Option String}
    (h : statement types op = .ok stmt) :
    printPieces (statementPieces types op) = .ok (stmt.getD "") := by
  cases op with
  | copy dest src | load dest src =>
    obtain ⟨d, hd, h⟩ := Fallible.bind_eq_ok.mp h
    obtain ⟨s, hs, h⟩ := Fallible.bind_eq_ok.mp h
    obtain rfl := Except.ok.inj h
    simp [statementPieces, printPieces, Piece.print, hd, hs, String.append_assoc]
  | store addr src =>
    obtain ⟨a, ha, h⟩ := Fallible.bind_eq_ok.mp h
    obtain ⟨s, hs, h⟩ := Fallible.bind_eq_ok.mp h
    obtain rfl := Except.ok.inj h
    simp [statementPieces, printPieces, Piece.print, ha, hs, String.append_assoc]
  | intAdd dest lhs rhs | intSub dest lhs rhs | intEqual dest lhs rhs | intNotEqual dest lhs rhs
  | intSless dest lhs rhs | intSlessEqual dest lhs rhs =>
    obtain ⟨s, hs, h⟩ := Fallible.bind_eq_ok.mp h
    obtain rfl := Except.ok.inj h
    exact printPieces_binary hs
  | cbranch condition target =>
    obtain ⟨c, hc, h⟩ := Fallible.bind_eq_ok.mp h
    obtain rfl := Except.ok.inj h
    simp [statementPieces, printPieces, Piece.print, hc, String.append_assoc]
  | call target =>
    cases target <;>
    · obtain rfl := Except.ok.inj h
      simp [statementPieces, printPieces, Piece.print]
  | phi dest srcs =>
    obtain ⟨ss, hss, h⟩ := Fallible.bind_eq_ok.mp h
    obtain ⟨d, hd, h⟩ := Fallible.bind_eq_ok.mp h
    obtain rfl := Except.ok.inj h
    have hfront : printPieces [.text "/* ", .target dest, .text " = φ("] =
        .ok ("/* " ++ d ++ " = φ(") := by
      simp [printPieces, Piece.print, hd, String.append_assoc]
    exact printPieces_append (printPieces_append hfront (printPieces_operands hss)) rfl
  | branch | ret | nop =>
    obtain rfl := Except.ok.inj h
    simp [statementPieces, printPieces, Piece.print]

/-- The line of an operation; some have none. -/
def operationPieces (indent : ℕ) (op : Instruction) : List Piece :=
  if op = .nop then [] else .text (pad indent) :: (statementPieces types op ++ [.text "\n"])

mutual

def astPieces (indent : ℕ) : HighLevelAst → List Piece
  | .block _ instructions => instructions.flatMap (operationPieces types indent)
  | .seq nodes => nodesPieces indent nodes
  | .ifElse cond thenBody elseBody =>
    [.text (pad indent ++ "if ("), .operand cond, .text ") \x7b\n"] ++
      astPieces (indent + 1) thenBody ++ elsePieces indent elseBody ++
      [.text (pad indent ++ "\x7d\n")]
  | .whileDo cond body =>
    [.text (pad indent ++ "while ("), .operand cond, .text ") \x7b\n"] ++
      astPieces (indent + 1) body ++ [.text (pad indent ++ "\x7d\n")]
  | .goto target => [.text (pad indent ++ "goto label_0x" ++ hex target ++ ";\n")]
  | .label addr => [.text (pad (indent - 1) ++ "label_0x" ++ hex addr ++ ":\n")]
  | .ret => [.text (pad indent ++ "return;\n")]

def nodesPieces (indent : ℕ) : List HighLevelAst → List Piece
  | [] => []
  | node :: nodes => astPieces indent node ++ nodesPieces indent nodes

def elsePieces (indent : ℕ) : Option HighLevelAst → List Piece
  | none => []
  | some els => .text (pad indent ++ "\x7d else \x7b\n") :: astPieces (indent + 1) els

end

theorem printPieces_text (s : String) : printPieces [.text s] = .ok s := by
  simp [printPieces, Piece.print]

theorem printPieces_operations {indent : ℕ} {ops : List Instruction} {stmts : List (Option String)}
    (h : ops.mapM (statement types) = .ok stmts) :
    printPieces (ops.flatMap (operationPieces types indent)) =
      .ok (String.join (stmts.map fun stmt =>
        match stmt with
        | some stmt => pad indent ++ stmt ++ "\n"
        | none => "")) := by
  induction ops generalizing stmts with
  | nil =>
    obtain rfl := Except.ok.inj h
    rfl
  | cons op ops ih =>
    rw [List.mapM_cons] at h
    obtain ⟨stmt, hstmt, h⟩ := Fallible.bind_eq_ok.mp h
    obtain ⟨stmts', hstmts, h⟩ := Fallible.bind_eq_ok.mp h
    obtain rfl := Except.ok.inj h
    rw [List.flatMap_cons, List.map_cons, String.join_cons]
    refine printPieces_append ?_ (ih hstmts)
    cases stmt with
    | none =>
      obtain rfl := statement_eq_none types hstmt
      rfl
    | some stmt =>
      have hop : op ≠ .nop := by
        rintro rfl
        cases hstmt
      rw [operationPieces, if_neg hop]
      exact printPieces_append (printPieces_append (printPieces_text _)
        (printPieces_statement types hstmt)) (printPieces_text _)

theorem printPieces_head {indent : ℕ} {cond : Varnode} {c : String} (hc : operand cond = .ok c)
    (keyword : String) :
    printPieces [.text (pad indent ++ keyword), .operand cond, .text ") \x7b\n"] =
      .ok (pad indent ++ keyword ++ c ++ ") \x7b\n") := by
  simp [printPieces, Piece.print, hc, String.append_assoc]

theorem append_pad (s t : String) (indent : ℕ) : s ++ pad indent ++ t = s ++ (pad indent ++ t) :=
  String.append_assoc

mutual

/-- The body is printed as its pieces. -/
theorem printPieces_ast {indent : ℕ} {ast : HighLevelAst} {s : String}
    (h : printAst types indent ast = .ok s) : printPieces (astPieces types indent ast) = .ok s := by
  cases ast with
  | block a ops =>
    rw [printAst] at h
    obtain ⟨stmts, hstmts, h⟩ := Fallible.bind_eq_ok.mp h
    obtain rfl := Except.ok.inj h
    rw [astPieces]
    exact printPieces_operations types hstmts
  | seq nodes =>
    rw [printAst] at h
    rw [astPieces]
    exact printPieces_nodes h
  | ifElse cond thenBody elseBody =>
    rw [printAst] at h
    obtain ⟨c, hc, h⟩ := Fallible.bind_eq_ok.mp h
    obtain ⟨body, hbody, h⟩ := Fallible.bind_eq_ok.mp h
    obtain ⟨els, hels, h⟩ := Fallible.bind_eq_ok.mp h
    obtain rfl := Except.ok.inj h
    rw [astPieces, append_pad]
    refine printPieces_append (printPieces_append (printPieces_append ?_ (printPieces_ast hbody))
      (printPieces_else hels)) (printPieces_text _)
    exact printPieces_head hc _
  | whileDo cond body =>
    rw [printAst] at h
    obtain ⟨c, hc, h⟩ := Fallible.bind_eq_ok.mp h
    obtain ⟨text, htext, h⟩ := Fallible.bind_eq_ok.mp h
    obtain rfl := Except.ok.inj h
    rw [astPieces, append_pad]
    refine printPieces_append (printPieces_append ?_ (printPieces_ast htext)) (printPieces_text _)
    exact printPieces_head hc _
  | goto target | label addr | ret =>
    rw [printAst] at h
    obtain rfl := Except.ok.inj h
    rw [astPieces]
    exact printPieces_text _

theorem printPieces_nodes {indent : ℕ} {nodes : List HighLevelAst} {s : String}
    (h : printNodes types indent nodes = .ok s) :
    printPieces (nodesPieces types indent nodes) = .ok s := by
  cases nodes with
  | nil =>
    rw [printNodes] at h
    obtain rfl := Except.ok.inj h
    rw [nodesPieces]
    rfl
  | cons node nodes =>
    rw [printNodes] at h
    obtain ⟨s₁, hs₁, h⟩ := Fallible.bind_eq_ok.mp h
    obtain ⟨s₂, hs₂, h⟩ := Fallible.bind_eq_ok.mp h
    obtain rfl := Except.ok.inj h
    rw [nodesPieces]
    exact printPieces_append (printPieces_ast hs₁) (printPieces_nodes hs₂)

theorem printPieces_else {indent : ℕ} {els : Option HighLevelAst} {s : String}
    (h : printElse types indent els = .ok s) :
    printPieces (elsePieces types indent els) = .ok s := by
  cases els with
  | none =>
    rw [printElse] at h
    obtain rfl := Except.ok.inj h
    rw [elsePieces]
    rfl
  | some els =>
    rw [printElse] at h
    obtain ⟨s₁, hs₁, h⟩ := Fallible.bind_eq_ok.mp h
    obtain rfl := Except.ok.inj h
    rw [elsePieces]
    exact printPieces_append (printPieces_text _) (printPieces_ast hs₁)

end

/-! ## Where the names come from -/

theorem mem_operandPieces {srcs : List Varnode} {p : Piece}
    (h : p ∈ (srcs.map Piece.operand).intersperse (.text ", ")) :
    p = .text ", " ∨ ∃ v ∈ srcs, p = .operand v := by
  induction srcs with
  | nil => cases h
  | cons v srcs ih =>
    cases srcs with
    | nil => exact .inr ⟨v, List.mem_singleton_self v, List.mem_singleton.mp h⟩
    | cons w srcs =>
      rw [List.map_cons, List.map_cons, List.intersperse_cons_cons, ← List.map_cons] at h
      rcases List.mem_cons.mp h with rfl | h
      · exact .inr ⟨v, List.mem_cons_self, rfl⟩
      · rcases List.mem_cons.mp h with rfl | h
        · exact .inl rfl
        · exact (ih h).imp_right fun ⟨u, hu, heq⟩ => ⟨u, List.mem_cons_of_mem v hu, heq⟩

theorem opDest_of_target {op : Instruction} {v : Varnode}
    (h : .target v ∈ statementPieces types op) : op.opDest = some v := by
  cases op with
  | call target => cases target <;> simp [statementPieces] at h
  | phi dest srcs =>
    have hnot : Piece.target v ∉ (srcs.map Piece.operand).intersperse (.text ", ") := by
      intro hmem
      rcases mem_operandPieces hmem with h | ⟨u, -, h⟩ <;> cases h
    simp_all [statementPieces, Instruction.opDest]
  | _ => simp_all [statementPieces, binaryPieces, Instruction.opDest]

theorem mem_operands_of_operand {op : Instruction} {v : Varnode}
    (h : .operand v ∈ statementPieces types op) : v ∈ op.operands := by
  cases op with
  | call target => cases target <;> simp [statementPieces] at h
  | phi dest srcs =>
    have hmem : Piece.operand v ∈ (srcs.map Piece.operand).intersperse (.text ", ") := by
      simpa [statementPieces] using h
    rcases mem_operandPieces hmem with h | ⟨u, hu, h⟩
    · cases h
    · exact Piece.operand.inj h ▸ hu
  | _ => simp_all [statementPieces, binaryPieces, Instruction.operands]

def linePieces : Line → List Piece
  | .code _ ops => ops.flatMap (statementPieces types)
  | .test cond => [.operand cond]
  | .orElse | .close | .goto _ | .label _ | .ret => []

def StandsIn (lines : List Line) (p : Piece) : Prop :=
  (∃ s, p = .text s) ∨ ∃ line ∈ lines, p ∈ linePieces types line

theorem StandsIn.mono {l m : List Line} {p : Piece} (h : StandsIn types l p) (hsub : l ⊆ m) :
    StandsIn types m p := by
  rcases h with h | ⟨line, hline, hp⟩
  · exact .inl h
  · exact .inr ⟨line, hsub hline, hp⟩

theorem standsIn_of_mem_operation {indent : ℕ} {a : Address} {ops : List Instruction} {p : Piece}
    (h : p ∈ ops.flatMap (operationPieces types indent)) : StandsIn types [.code a ops] p := by
  obtain ⟨op, hop, h⟩ := List.mem_flatMap.mp h
  unfold operationPieces at h
  split at h
  case isTrue => cases h
  case isFalse =>
    rcases List.mem_cons.mp h with rfl | h
    · exact .inl ⟨_, rfl⟩
    · rcases List.mem_append.mp h with h | h
      · exact .inr ⟨_, List.mem_singleton_self _, List.mem_flatMap.mpr ⟨op, hop, h⟩⟩
      · exact .inl ⟨_, List.mem_singleton.mp h⟩

mutual

theorem standsIn_ast {indent : ℕ} {ast : HighLevelAst} {p : Piece}
    (h : p ∈ astPieces types indent ast) : StandsIn types ast.lines p := by
  cases ast with
  | block a ops =>
    rw [astPieces] at h
    exact standsIn_of_mem_operation types h
  | seq nodes =>
    rw [astPieces] at h
    exact standsIn_nodes h
  | ifElse cond thenBody elseBody =>
    rw [astPieces] at h
    simp only [List.mem_append, List.mem_cons, List.not_mem_nil, or_false] at h
    rw [HighLevelAst.lines]
    rcases h with (((rfl | rfl | rfl) | h) | h) | rfl
    · exact .inl ⟨_, rfl⟩
    · exact .inr ⟨_, List.mem_cons_self, List.mem_singleton_self _⟩
    · exact .inl ⟨_, rfl⟩
    · exact (standsIn_ast h).mono types fun line hline => by simp [hline]
    · exact (standsIn_else h).mono types fun line hline => by simp [hline]
    · exact .inl ⟨_, rfl⟩
  | whileDo cond body =>
    rw [astPieces] at h
    simp only [List.mem_append, List.mem_cons, List.not_mem_nil, or_false] at h
    rw [HighLevelAst.lines]
    rcases h with ((rfl | rfl | rfl) | h) | rfl
    · exact .inl ⟨_, rfl⟩
    · exact .inr ⟨_, List.mem_cons_self, List.mem_singleton_self _⟩
    · exact .inl ⟨_, rfl⟩
    · exact (standsIn_ast h).mono types fun line hline => by simp [hline]
    · exact .inl ⟨_, rfl⟩
  | goto target | label addr | ret =>
    rw [astPieces] at h
    exact .inl ⟨_, List.mem_singleton.mp h⟩

theorem standsIn_nodes {indent : ℕ} {nodes : List HighLevelAst} {p : Piece}
    (h : p ∈ nodesPieces types indent nodes) : StandsIn types (nodeLines nodes) p := by
  cases nodes with
  | nil =>
    rw [nodesPieces] at h
    cases h
  | cons node nodes =>
    rw [nodesPieces] at h
    rw [nodeLines]
    rcases List.mem_append.mp h with h | h
    · exact (standsIn_ast h).mono types (List.subset_append_left _ _)
    · exact (standsIn_nodes h).mono types (List.subset_append_right _ _)

theorem standsIn_else {indent : ℕ} {els : Option HighLevelAst} {p : Piece}
    (h : p ∈ elsePieces types indent els) : StandsIn types (elseLines els) p := by
  cases els with
  | none =>
    rw [elsePieces] at h
    cases h
  | some els =>
    rw [elsePieces] at h
    rw [elseLines]
    rcases List.mem_cons.mp h with rfl | h
    · exact .inl ⟨_, rfl⟩
    · exact (standsIn_ast h).mono types (List.subset_cons_self _ _)

end

end Decompiler.Output
