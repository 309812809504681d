import Decompiler.Cli.Pipeline
import Decompiler.Library.Fallible

/-! # The pass manager

A pass has a name and works on a function. A manager runs its passes in the order in which they
were added; the verbose run prints the name of each pass as it starts.
-/

namespace Decompiler

/-- An `AnalysisPass`: what it is called, and its effect on a function. -/
structure AnalysisPass where
  name : String
  run : Function → Except Fault Function

structure PassManager where
  passes : List AnalysisPass

namespace PassManager

def new : PassManager := ⟨[]⟩

def withPass (m : PassManager) (pass : AnalysisPass) : PassManager := ⟨m.passes ++ [pass]⟩

def run (m : PassManager) (f : Function) : Except Fault Function :=
  m.passes.foldlM (fun f pass => pass.run f) f

/-- `run_verbose`: the lines printed on the way, and the function. -/
def runVerbose (m : PassManager) (f : Function) : Except Fault (List String × Function) :=
  m.passes.foldlM (fun s pass => do
    let lines := s.1 ++ ["  -- running pass: " ++ pass.name]
    return (lines, ← pass.run s.2)) ([], f)

end PassManager

inductive Builtin where
  | cfgBuilder
  | constantPropagation
  | typeInference
  | structurer
  deriving DecidableEq, Repr

def Builtin.pass : Builtin → AnalysisPass
  | .cfgBuilder => ⟨"cfg-construction", Cfg.build⟩
  | .constantPropagation => ⟨"constant-propagation", ConstProp.run⟩
  | .typeInference => ⟨"type-inference", Types.run⟩
  | .structurer => ⟨"structurer", Structurer.run⟩

/-- The manager that has been given these passes one after the other. -/
def PassManager.ofBuiltins (ps : List Builtin) : PassManager :=
  ps.foldl (fun m p => m.withPass p.pass) .new

def phase2 : List Builtin := [.cfgBuilder, .constantPropagation, .typeInference, .structurer]

namespace PassManager

theorem passes_ofBuiltins (ps : List Builtin) :
    (ofBuiltins ps).passes = ps.map Builtin.pass := by
  induction ps using List.reverseRecOn with
  | nil => rfl
  | append_singleton ps p ih =>
    have hlast : ofBuiltins (ps ++ [p]) = (ofBuiltins ps).withPass p.pass := by
      simp [ofBuiltins]
    rw [hlast, withPass, ih, List.map_append, List.map_singleton]

theorem run_withPass (m : PassManager) (pass : AnalysisPass) (f : Function) :
    (m.withPass pass).run f = m.run f >>= pass.run := by
  rw [run, withPass, List.foldlM_append]
  cases hm : m.run f with
  | error e =>
    rw [run] at hm
    rw [hm]
    rfl
  | ok g =>
    rw [run] at hm
    rw [hm, Fallible.ok_bind, Fallible.ok_bind, List.foldlM_cons]
    exact bind_pure (pass.run g)

end PassManager

end Decompiler
