import Mathlib.Computability.StateTransition
import Mathlib.Data.Int.Notation
import Mathlib.Logic.Function.Basic

/-! # A fragment of C

Expressions over integer variables under the usual conversions, for an `int` of four and
a `long` of eight bytes, and statements with loops, conditionals, labels and jumps. What
C leaves undefined has no value. The bodies of other functions and the memory are
parameters.
-/

namespace CLanguage

/-- `intN_t` or `uintN_t` for a number of bytes. -/
structure IntType where
  bytes : ℕ
  signed : Bool
  deriving DecidableEq, Repr

namespace IntType

def int : IntType := ⟨4, true⟩

def long : IntType := ⟨8, true⟩

def unsigned (bytes : ℕ) : IntType := ⟨bytes, false⟩

def name (t : IntType) : String :=
  (if t.signed then "int" else "uint") ++ toString (8 * t.bytes) ++ "_t"

def convert (t : IntType) (n : ℤ) : ℤ :=
  if t.signed then n.bmod (2 ^ (8 * t.bytes)) else n % 2 ^ (8 * t.bytes)

def promote (t : IntType) : IntType := if t.bytes < int.bytes then int else t

/-- The usual arithmetic conversions. -/
def common (s t : IntType) : IntType :=
  if s.promote.bytes < t.promote.bytes then t.promote
  else if t.promote.bytes < s.promote.bytes then s.promote
  else ⟨s.promote.bytes, s.promote.signed && t.promote.signed⟩

/-- The type of a decimal literal; the largest ones are unsigned. -/
def ofLiteral (n : ℕ) : IntType :=
  if n < 2 ^ 31 then int else if n < 2 ^ 63 then long else unsigned 8

/-- The result of an operation in a type: the overflow of a signed type is undefined. -/
def result (t : IntType) (n : ℤ) : Option ℤ :=
  if t.signed then if t.convert n = n then some n else none else some (t.convert n)

end IntType

inductive BinaryOp where
  | add
  | sub
  | eq
  | ne
  | lt
  | le
  deriving DecidableEq, Repr

inductive Expr where
  | var (name : String)
  | literal (n : ℕ)
  | cast (t : IntType) (e : Expr)
  /-- `*(T*)(uintptr_t)e` -/
  | load (t : IntType) (addr : Expr)
  | binary (o : BinaryOp) (l r : Expr)
  deriving Repr

inductive Stmt where
  | assign (name : String) (e : Expr)
  /-- `*(T*)(uintptr_t)addr = e;` -/
  | store (t : IntType) (addr e : Expr)
  | call (name : String)
  | comment (text : String)
  | ifElse (cond : Expr) (thenBody : List Stmt) (elseBody : Option (List Stmt))
  | whileDo (cond : Expr) (body : List Stmt)
  | ifGoto (cond : Expr) (label : String)
  | goto (label : String)
  | label (name : String)
  | ret

section Text

namespace BinaryOp

def symbol : BinaryOp → String
  | .add => " + "
  | .sub => " - "
  | .eq => " == "
  | .ne => " != "
  | .lt => " < "
  | .le => " <= "

/-- Sums stand without parentheses, comparisons within. -/
def isComparison : BinaryOp → Bool
  | .add | .sub => false
  | _ => true

end BinaryOp

namespace Expr

def text : Expr → String
  | .var name => name
  | .literal n => toString n
  | .cast t e => "(" ++ t.name ++ ")" ++ e.text
  | .load t addr => "*(" ++ t.name ++ "*)(uintptr_t)" ++ addr.text
  | .binary o l r =>
    if o.isComparison then "(" ++ l.text ++ o.symbol ++ r.text ++ ")"
    else l.text ++ o.symbol ++ r.text

end Expr

def indentation (indent : ℕ) : String := String.join (List.replicate indent "    ")

mutual

/-- A statement, each line of it with its line break. A label stands one level further left. -/
def Stmt.text (indent : ℕ) : Stmt → String
  | .assign name e => indentation indent ++ (name ++ " = " ++ e.text ++ ";") ++ "\n"
  | .store t addr e =>
    indentation indent ++ ("*(" ++ t.name ++ "*)(uintptr_t)" ++ addr.text ++ " = " ++ e.text ++ ";")
      ++ "\n"
  | .call name => indentation indent ++ (name ++ "();") ++ "\n"
  | .comment text => indentation indent ++ ("/* " ++ text ++ " */") ++ "\n"
  | .ifElse cond thenBody elseBody =>
    indentation indent ++ "if (" ++ cond.text ++ ") \x7b\n" ++ bodyText (indent + 1) thenBody
      ++ elseText indent elseBody ++ indentation indent ++ "\x7d\n"
  | .whileDo cond body =>
    indentation indent ++ "while (" ++ cond.text ++ ") \x7b\n" ++ bodyText (indent + 1) body
      ++ indentation indent ++ "\x7d\n"
  | .ifGoto cond label =>
    indentation indent ++ ("if (" ++ cond.text ++ ") goto " ++ label ++ ";") ++ "\n"
  | .goto label => indentation indent ++ ("goto " ++ label ++ ";") ++ "\n"
  | .label name => indentation (indent - 1) ++ (name ++ ":") ++ "\n"
  | .ret => indentation indent ++ "return;" ++ "\n"

def bodyText (indent : ℕ) : List Stmt → String
  | [] => ""
  | s :: body => s.text indent ++ bodyText indent body

def elseText (indent : ℕ) : Option (List Stmt) → String
  | none => ""
  | some body => indentation indent ++ "\x7d else \x7b\n" ++ bodyText (indent + 1) body

end

theorem bodyText_append (indent : ℕ) (l m : List Stmt) :
    bodyText indent (l ++ m) = bodyText indent l ++ bodyText indent m := by
  induction l with
  | nil => simp [bodyText]
  | cons s l ih => simp [bodyText, ih, String.append_assoc]

end Text

structure CFunction where
  name : String
  decls : List (IntType × String)
  body : List Stmt

namespace CFunction

def text (f : CFunction) : String :=
  "void " ++ f.name ++ "(void) \x7b\n"
    ++ String.join (f.decls.map fun d => "    " ++ (d.1.name ++ " " ++ d.2) ++ ";\n") ++ "\n"
    ++ bodyText 1 f.body ++ "\x7d\n"

/-- The type of a name in the body of the function: the one it is declared with there, or that
of the surrounding scope. -/
def typeOf (f : CFunction) (outer : String → IntType) (name : String) : IntType :=
  ((f.decls.find? (·.2 == name)).map Prod.fst).getD (outer name)

end CFunction

/-- Access to a memory of bytes: a number of bytes at an address, as one value. -/
class Memory (M : Type*) where
  read : M → (addr bytes : ℕ) → ℕ
  write : M → (addr bytes value : ℕ) → M

structure Env (M : Type*) where
  vars : String → ℤ
  memory : M

section Semantics

variable {M : Type*} [Memory M]

namespace BinaryOp

/-- The type and value of an operation on operands that have been converted to a type. -/
def apply (o : BinaryOp) (t : IntType) (a b : ℤ) : Option (IntType × ℤ) :=
  match o with
  | .add => (t.result (a + b)).map (t, ·)
  | .sub => (t.result (a - b)).map (t, ·)
  | .eq => some (.int, if a = b then 1 else 0)
  | .ne => some (.int, if a ≠ b then 1 else 0)
  | .lt => some (.int, if a < b then 1 else 0)
  | .le => some (.int, if a ≤ b then 1 else 0)

end BinaryOp

variable (Γ : String → IntType)

namespace Expr

def eval (ρ : Env M) : Expr → Option (IntType × ℤ)
  | .var name => some (Γ name, ρ.vars name)
  | .literal n => if n < 2 ^ 64 then some (.ofLiteral n, n) else none
  | .cast t e => (e.eval ρ).map fun x => (t, t.convert x.2)
  | .load t addr =>
    (addr.eval ρ).map fun x =>
      (t, t.convert (Memory.read ρ.memory ((IntType.unsigned 8).convert x.2).toNat t.bytes))
  | .binary o l r =>
    (l.eval ρ).bind fun x => (r.eval ρ).bind fun y =>
      o.apply (x.1.common y.1) ((x.1.common y.1).convert x.2) ((x.1.common y.1).convert y.2)

end Expr

namespace Env

def assign (ρ : Env M) (name : String) (n : ℤ) : Env M :=
  { ρ with vars := Function.update ρ.vars name ((Γ name).convert n) }

def store (ρ : Env M) (addr : ℤ) (bytes : ℕ) (n : ℤ) : Env M :=
  { ρ with
    memory := Memory.write ρ.memory ((IntType.unsigned 8).convert addr).toNat bytes
      ((IntType.unsigned bytes).convert n).toNat }

end Env

mutual

/-- What follows a label, given what follows the statement; a body is followed by its loop. -/
def Stmt.after (name : String) (k : List Stmt) : Stmt → Option (List Stmt)
  | .label l => if l = name then some k else none
  | .ifElse _ thenBody elseBody => (afterIn name k thenBody).or (afterElse name k elseBody)
  | .whileDo cond body => afterIn name (.whileDo cond body :: k) body
  | .assign _ _ | .store _ _ _ | .call _ | .comment _ | .ifGoto _ _ | .goto _ | .ret => none

def afterIn (name : String) (k : List Stmt) : List Stmt → Option (List Stmt)
  | [] => none
  | s :: body => (s.after name (body ++ k)).or (afterIn name k body)

def afterElse (name : String) (k : List Stmt) : Option (List Stmt) → Option (List Stmt)
  | none => none
  | some body => afterIn name k body

end

theorem afterIn_append (name : String) (k l m : List Stmt) :
    afterIn name k (l ++ m) = (afterIn name (m ++ k) l).or (afterIn name k m) := by
  induction l with
  | nil => rfl
  | cons s l ih => simp [afterIn, ih, Option.or_assoc]

/-- What is left to execute of a body, a label that it does not have, or its end. -/
inductive Code where
  | run (body : List Stmt)
  | left (label : String)
  | finished

def jump (body : List Stmt) (label : String) : Code :=
  ((afterIn label [] body).map Code.run).getD (.left label)

/-- One statement of a body. A condition holds when it is not zero. -/
def step (callee : String → Env M → Env M) (body : List Stmt) :
    Code × Env M → Option (Code × Env M)
  | (.left _, _) | (.finished, _) => none
  | (.run [], ρ) => some (.finished, ρ)
  | (.run (.assign name e :: k), ρ) => (e.eval Γ ρ).map fun x => (.run k, ρ.assign Γ name x.2)
  | (.run (.store t addr e :: k), ρ) =>
    (addr.eval Γ ρ).bind fun a => (e.eval Γ ρ).map fun x => (.run k, ρ.store a.2 t.bytes x.2)
  | (.run (.call name :: k), ρ) => some (.run k, callee name ρ)
  | (.run (.comment _ :: k), ρ) => some (.run k, ρ)
  | (.run (.ifElse cond thenBody elseBody :: k), ρ) =>
    (cond.eval Γ ρ).map fun x =>
      (.run (if x.2 ≠ 0 then thenBody ++ k else elseBody.getD [] ++ k), ρ)
  | (.run (.whileDo cond loop :: k), ρ) =>
    (cond.eval Γ ρ).map fun x => (.run (if x.2 ≠ 0 then loop ++ .whileDo cond loop :: k else k), ρ)
  | (.run (.ifGoto cond label :: k), ρ) =>
    (cond.eval Γ ρ).map fun x => (if x.2 ≠ 0 then jump body label else .run k, ρ)
  | (.run (.goto label :: _), ρ) => some (jump body label, ρ)
  | (.run (.label _ :: k), ρ) => some (.run k, ρ)
  | (.run (.ret :: _), ρ) => some (.finished, ρ)

abbrev Runs (callee : String → Env M → Env M) (body : List Stmt) :
    Code × Env M → Code × Env M → Prop :=
  StateTransition.Reaches (step Γ callee body)

end Semantics

end CLanguage
