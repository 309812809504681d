import Decompiler.Cfg.Build
import Decompiler.Cli.ProcessFunction
import Decompiler.ConstProp.Pass
import Decompiler.Output.C
import Decompiler.Types.Inference

/-! # The pipeline of the command line tool -/

namespace Decompiler

def passes : List (Function → Except Fault Function) :=
  [Cfg.build, ConstProp.run, Types.run, Structurer.run]

/-- `PassManager::run` -/
def runPasses (passes : List (Function → Except Fault Function)) (f : Function) :
    Except Fault Function :=
  passes.foldlM (fun f pass => pass f) f

/-- `run_phase2`: the analysed function and its pseudocode. -/
def runPhase2 (f : Function) : Except Fault (Function × String) := do
  let f ← runPasses passes f
  return (f, ← Output.generate f)

end Decompiler
