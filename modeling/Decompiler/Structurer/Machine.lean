import Decompiler.Library.Simulation
import Decompiler.Structurer.Text

/-! # Executing graphs and syntax trees

Two machines that perform operations without interpreting them. The outcomes of the
conditions are given from outside, in the order in which the conditions are tested: one
machine goes from block to block of a graph, the other one through the text of a syntax
tree.
-/

namespace Decompiler.Structurer

open Cfg

/-- Where a machine is, the number of conditions it has tested and the operations it has
performed. -/
structure Config (κ : Type) where
  control : κ
  tests : ℕ
  trace : List Instruction
  deriving DecidableEq

/-- Before a block, outside of the function at an address, or at the end. -/
inductive Place where
  | block (address : Address)
  | left (address : Address)
  | finished
  deriving DecidableEq

section Graph

variable (bs : List BasicBlock)

def branchTo (a : Address) : Place := if a ∈ starts bs then .block a else .left a

def fallFrom (a : Address) : Place := (nextAfter bs a).elim .finished .block

/-- The operations of a block up to its terminator, and then the terminator. -/
def graphStep (outcomes : ℕ → Bool) (c : Config Place) : Config Place :=
  match c.control with
  | .left _ | .finished => c
  | .block a =>
    match blockStarting bs a with
    | none => { c with control := .left a }
    | some b =>
      let trace := c.trace ++ b.ops.takeWhile fun op => !op.isTerminator
      match b.terminator? with
      | some (.cbranch _ (.absolute t)) =>
        ⟨bif outcomes c.tests then branchTo bs t else fallFrom bs a, c.tests + 1, trace⟩
      | some (.branch (.absolute t)) => ⟨branchTo bs t, c.tests, trace⟩
      | some _ => ⟨.finished, c.tests, trace⟩
      | none => ⟨fallFrom bs a, c.tests, trace⟩

end Graph

/-- The run of a function through its graph. Without blocks there is nothing to run. -/
def graphRun (g : Function) (outcomes : ℕ → Bool) (n : ℕ) : Config Place :=
  (graphStep g.blocks outcomes)^[n]
    ⟨if g.blocks = [] then .finished else .block g.entry, 0, []⟩

/-- What is left to execute of a syntax tree, outside of it at an address, or the end. -/
inductive Code where
  | run (nodes : List HighLevelAst)
  | left (address : Address)
  | finished

mutual

/-- What follows a label, given what follows the node; a body is followed by its loop. -/
def afterLabel (a : Address) (k : List HighLevelAst) :
    HighLevelAst → Option (List HighLevelAst)
  | .label b => if b = a then some k else none
  | .seq nodes => afterLabelIn a k nodes
  | .ifElse _ thenBody elseBody => (afterLabel a k thenBody).or (afterLabelElse a k elseBody)
  | .whileDo cond body => afterLabel a (.whileDo cond body :: k) body
  | .block _ _ | .goto _ | .ret => none

def afterLabelIn (a : Address) (k : List HighLevelAst) :
    List HighLevelAst → Option (List HighLevelAst)
  | [] => none
  | node :: nodes => (afterLabel a (nodes ++ k) node).or (afterLabelIn a k nodes)

def afterLabelElse (a : Address) (k : List HighLevelAst) :
    Option HighLevelAst → Option (List HighLevelAst)
  | none => none
  | some elseBody => afterLabel a k elseBody

end

/-- One node of a syntax tree. A `goto` without a label leaves the tree. -/
def astStep (ast : HighLevelAst) (outcomes : ℕ → Bool) (c : Config Code) : Config Code :=
  match c.control with
  | .left _ | .finished => c
  | .run [] => { c with control := .finished }
  | .run (node :: k) =>
    match node with
    | .block _ ops => { c with control := .run k, trace := c.trace ++ ops }
    | .seq nodes => { c with control := .run (nodes ++ k) }
    | .ifElse _ thenBody elseBody =>
      { c with
        control := .run (bif outcomes c.tests then thenBody :: k else elseBody.toList ++ k)
        tests := c.tests + 1 }
    | .whileDo cond body =>
      { c with
        control := .run (bif outcomes c.tests then body :: .whileDo cond body :: k else k)
        tests := c.tests + 1 }
    | .goto a => { c with control := ((afterLabel a [] ast).map Code.run).getD (.left a) }
    | .label _ => { c with control := .run k }
    | .ret => { c with control := .finished }

section Step

variable (ast : HighLevelAst) (outcomes : ℕ → Bool) (k : List HighLevelAst) (tests : ℕ)
  (trace : List Instruction)

@[simp] theorem astStep_nil :
    astStep ast outcomes ⟨.run [], tests, trace⟩ = ⟨.finished, tests, trace⟩ := rfl

@[simp] theorem astStep_block (a : Address) (ops : List Instruction) :
    astStep ast outcomes ⟨.run (.block a ops :: k), tests, trace⟩ =
      ⟨.run k, tests, trace ++ ops⟩ := rfl

@[simp] theorem astStep_seq (nodes : List HighLevelAst) :
    astStep ast outcomes ⟨.run (.seq nodes :: k), tests, trace⟩ =
      ⟨.run (nodes ++ k), tests, trace⟩ := rfl

@[simp] theorem astStep_ifElse (cond : Varnode) (thenBody : HighLevelAst) :
    astStep ast outcomes ⟨.run (.ifElse cond thenBody none :: k), tests, trace⟩ =
      ⟨.run (bif outcomes tests then thenBody :: k else k), tests + 1, trace⟩ := rfl

@[simp] theorem astStep_whileDo (cond : Varnode) (body : HighLevelAst) :
    astStep ast outcomes ⟨.run (.whileDo cond body :: k), tests, trace⟩ =
      ⟨.run (bif outcomes tests then body :: .whileDo cond body :: k else k), tests + 1,
        trace⟩ := rfl

@[simp] theorem astStep_goto (a : Address) :
    astStep ast outcomes ⟨.run (.goto a :: k), tests, trace⟩ =
      ⟨((afterLabel a [] ast).map Code.run).getD (.left a), tests, trace⟩ := rfl

@[simp] theorem astStep_label (a : Address) :
    astStep ast outcomes ⟨.run (.label a :: k), tests, trace⟩ = ⟨.run k, tests, trace⟩ := rfl

@[simp] theorem astStep_ret :
    astStep ast outcomes ⟨.run (.ret :: k), tests, trace⟩ = ⟨.finished, tests, trace⟩ := rfl

end Step

def astRun (ast : HighLevelAst) (outcomes : ℕ → Bool) (n : ℕ) : Config Code :=
  (astStep ast outcomes)^[n] ⟨.run [ast], 0, []⟩

end Decompiler.Structurer
