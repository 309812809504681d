import Decompiler.Structurer.Region

/-! # C-like pseudocode

The printer of a function: declarations of the assigned registers and
temporaries, then the syntax tree. Naming a varnode of the constant space is the
`unreachable!` of the source.
-/

namespace Decompiler.Output

/-- `{:x}` -/
def hex (n : UInt64) : String := String.ofList (Nat.toDigits 16 n.toNat)

def unsignedCtype (size : UInt8) : String :=
  match size.toNat with
  | 1 => "uint8_t"
  | 2 => "uint16_t"
  | 4 => "uint32_t"
  | 8 => "uint64_t"
  | _ => "uint64_t"

def signedCtype (size : UInt8) : String :=
  match size.toNat with
  | 1 => "int8_t"
  | 2 => "int16_t"
  | 4 => "int32_t"
  | 8 => "int64_t"
  | _ => "int64_t"

def formatType : DataType → String
  | .primitive size signed => if signed then signedCtype size else unsignedCtype size
  | .pointer inner => formatType inner ++ "*"
  | .array inner len => formatType inner ++ "[" ++ toString len.toNat ++ "]"

def varName (v : Varnode) : Except Fault String :=
  match v.space with
  | .register => .ok (v.name.getD ("reg_0x" ++ hex v.offset))
  | .unique => .ok ("t" ++ toString v.offset.toNat)
  | .memory => .ok ("mem_0x" ++ hex v.offset)
  | .constant => .error .unreachable

def operand (v : Varnode) : Except Fault String :=
  match v.space with
  | .constant => .ok (toString v.offset.toNat)
  | .memory => .ok ("MEM[0x" ++ hex v.offset ++ "]")
  | .register | .unique => varName v

def branchTarget : BranchTarget → String
  | .absolute addr => "label_0x" ++ hex addr
  | .indirect => "/* unresolved indirect target */"

variable (types : Finmap fun _ : Location => DataType)

/-- The C type that an access of `accessed` through `addr` dereferences. -/
def accessCtype (addr accessed : Varnode) : String :=
  match types.lookup addr.location with
  | some (.pointer inner) => formatType inner
  | _ => unsignedCtype accessed.size

/-- `dest = lhs <operator> rhs;` -/
def binaryStatement (dest lhs rhs : Varnode) (before operator after : String) :
    Except Fault String := do
  return (← varName dest) ++ " = " ++ before ++ (← operand lhs) ++ operator ++ (← operand rhs)
    ++ after

def statement (op : Instruction) : Except Fault (Option String) := do
  match op with
  | .copy dest src => return some ((← varName dest) ++ " = " ++ (← operand src) ++ ";")
  | .load dest addr =>
    return some ((← varName dest) ++ " = *(" ++ accessCtype types addr dest ++ "*)(uintptr_t)"
      ++ (← operand addr) ++ ";")
  | .store addr src =>
    return some ("*(" ++ accessCtype types addr src ++ "*)(uintptr_t)" ++ (← operand addr) ++ " = "
      ++ (← operand src) ++ ";")
  | .intAdd dest lhs rhs => return some (← binaryStatement dest lhs rhs "" " + " ";")
  | .intSub dest lhs rhs => return some (← binaryStatement dest lhs rhs "" " - " ";")
  | .intEqual dest lhs rhs => return some (← binaryStatement dest lhs rhs "(" " == " ");")
  | .intNotEqual dest lhs rhs => return some (← binaryStatement dest lhs rhs "(" " != " ");")
  | .intSless dest lhs rhs =>
    let ct := signedCtype lhs.size
    return some (← binaryStatement dest lhs rhs ("((" ++ ct ++ ")") (" < (" ++ ct ++ ")") ");")
  | .intSlessEqual dest lhs rhs =>
    let ct := signedCtype lhs.size
    return some (← binaryStatement dest lhs rhs ("((" ++ ct ++ ")") (" <= (" ++ ct ++ ")") ");")
  | .branch target => return some ("goto " ++ branchTarget target ++ ";")
  | .cbranch condition target =>
    return some ("if (" ++ (← operand condition) ++ ") goto " ++ branchTarget target ++ ";")
  | .call (.absolute addr) => return some ("sub_0x" ++ hex addr ++ "();")
  | .call .indirect => return some "/* indirect call */"
  | .ret => return some "return;"
  | .nop => return none
  | .phi dest srcs =>
    let srcs ← srcs.mapM operand
    return some ("/* " ++ (← varName dest) ++ " = φ(" ++ ", ".intercalate srcs ++ ") */")

/-- `"    ".repeat(indent)` -/
def pad (indent : ℕ) : String := String.join (List.replicate indent "    ")

mutual

def printAst (indent : ℕ) : HighLevelAst → Except Fault String
  | .block _ instructions => do
    let lines ← instructions.mapM (statement types)
    return String.join (lines.map fun line =>
      match line with
      | some stmt => pad indent ++ stmt ++ "\n"
      | none => "")
  | .seq nodes => printNodes indent nodes
  | .ifElse cond thenBody elseBody => do
    let head := pad indent ++ "if (" ++ (← operand cond) ++ ") \x7b\n"
    let body ← printAst (indent + 1) thenBody
    let els ← printElse indent elseBody
    return head ++ body ++ els ++ pad indent ++ "\x7d\n"
  | .whileDo cond body => do
    let head := pad indent ++ "while (" ++ (← operand cond) ++ ") \x7b\n"
    let body ← printAst (indent + 1) body
    return head ++ body ++ pad indent ++ "\x7d\n"
  | .goto target => return pad indent ++ "goto label_0x" ++ hex target ++ ";\n"
  | .label addr => return pad (indent - 1) ++ "label_0x" ++ hex addr ++ ":\n"
  | .ret => return pad indent ++ "return;\n"

def printNodes (indent : ℕ) : List HighLevelAst → Except Fault String
  | [] => return ""
  | node :: nodes => do return (← printAst indent node) ++ (← printNodes indent nodes)

def printElse (indent : ℕ) : Option HighLevelAst → Except Fault String
  | none => return ""
  | some els => do
    return pad indent ++ "\x7d else \x7b\n" ++ (← printAst (indent + 1) els)

end

/-- The order of the keys of `seen`. -/
def keyBefore (a b : Location) : Bool :=
  match compare a.space b.space with
  | .lt => true
  | .gt => false
  | .eq => a.offset < b.offset || (a.offset == b.offset && a.size < b.size)

/-- `seen.entry(key).or_insert_with(|| dest.clone())` on a list sorted by key. -/
def orInsert (dest : Varnode) : List Varnode → List Varnode
  | [] => [dest]
  | v :: seen =>
    if v.location = dest.location then v :: seen
    else if keyBefore dest.location v.location then dest :: v :: seen
    else v :: orInsert dest seen

def seeDest (seen : List Varnode) (op : Instruction) : List Varnode :=
  match op.opDest with
  | some dest =>
    if dest.space = .register ∨ dest.space = .unique then orInsert dest seen else seen
  | none => seen

def declaration (v : Varnode) : Except Fault String := do
  let name ← varName v
  match types.lookup v.location with
  | some dt => return formatType dt ++ " " ++ name
  | none => return unsignedCtype v.size ++ " " ++ name

def declarations (f : Function) : Except Fault (List String) :=
  ((f.blocks.flatMap BasicBlock.ops).foldl seeDest []).mapM (declaration f.types)

def sanitizeIdent (name : String) : Except Fault String := do
  let out := name.toList.map fun c => if c.isAlphanum || c == '_' then c else '_'
  if out = [] then return String.ofList ('_' :: out)
  let first ← unwrap out.head?
  return String.ofList (if first.isDigit then '_' :: out else out)

def generate (f : Function) : Except Fault String := do
  let ident ← sanitizeIdent f.name
  let decls ← declarations f
  let ast ← match f.ast with
    | some ast => .ok ast
    | none => Structurer.doStructure f
  let body ← printAst f.types 1 ast
  return "// Phase 4 pseudocode for " ++ "\x60" ++ f.name ++ "\x60 -- structured (if/while)\n"
    ++ "void " ++ ident ++ "(void) \x7b\n"
    ++ String.join (decls.map fun decl => "    " ++ decl ++ ";\n") ++ "\n" ++ body ++ "\x7d\n"

end Decompiler.Output
