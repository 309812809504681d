import Decompiler.Ir.Varnode
import Decompiler.Ir.Instruction
import Decompiler.Core.Fault
import Decompiler.Core.Types
import Decompiler.Core.Traits
import Decompiler.X86.Registers
import Decompiler.X86.Decoder
import Decompiler.X86.Lifter
import Decompiler.Arm.Registers
import Decompiler.Arm.Decoder
import Decompiler.Arm.Lifter
import Decompiler.Cli.ProcessFunction
import Decompiler.Cfg.Build
import Decompiler.Dataflow.Solver
import Decompiler.ConstProp.Lattice
import Decompiler.ConstProp.Pass
import Decompiler.Structurer.Region
import Decompiler.Types.Inference
import Decompiler.Output.C
import Decompiler.Cli.Pipeline
import Decompiler.Cfg.Leaders
import Decompiler.Library.Fallible
import Decompiler.Cfg.Partition
import Decompiler.Cfg.Correctness
import Decompiler.Cfg.Runs
import Decompiler.Dataflow.Termination
import Decompiler.Dataflow.Greatest
import Decompiler.ConstProp.Order
import Decompiler.ConstProp.Termination
import Decompiler.Ir.Semantics
import Decompiler.ConstProp.Folding
import Decompiler.Cli.Decoded
import Decompiler.Cli.Backends
import Decompiler.Cfg.Machine
import Decompiler.ConstProp.Carried
import Decompiler.Cfg.Lifted
import Decompiler.ConstProp.Preservation
import Decompiler.ConstProp.Calls
import Decompiler.Library.Simulation
import Decompiler.X86.Machine
import Decompiler.X86.Refinement
import Decompiler.Library.DepthFirst
import Decompiler.Structurer.BackEdges
import Decompiler.Structurer.Exits
import Decompiler.Structurer.Walk
import Decompiler.Structurer.Text
import Decompiler.Structurer.Machine
import Decompiler.Structurer.Sites
import Decompiler.Structurer.Emission
import Decompiler.Structurer.Simulation
import Decompiler.Structurer.Kept
import Decompiler.Structurer.Behaviour
import Decompiler.Output.Printing
import Decompiler.Types.Termination
import Decompiler.Cli.Tiling
import Decompiler.Cli.Totality
import Decompiler.Cfg.Maximal
import Decompiler.Cfg.Index
import Decompiler.ConstProp.Laws
import Decompiler.ConstProp.Straight
import Decompiler.Arm.Encoding
import Decompiler.Arm.Machine
import Decompiler.Arm.Refinement
import Decompiler.ConstProp.Idempotence
import Decompiler.Library.Saturation
import Decompiler.Types.Saturation
import Decompiler.Types.Pointers
import Decompiler.Types.Evidence
import Decompiler.Types.Constraints
import Decompiler.Output.Ctypes
import Decompiler.Output.Accesses
import Decompiler.Output.Declarations
import Decompiler.Output.Arithmetic
import Decompiler.Library.PrefixCode
import Decompiler.Cli.PrefixCodes
import Decompiler.Cli.Overflow
import Decompiler.Cli.Temporaries
import Decompiler.Library.Utf8
import Decompiler.Cli.Hex
import Decompiler.Output.Pieces
import Decompiler.Output.Origins
import Decompiler.Cli.Names
import Decompiler.Cli.Registers
import Decompiler.Cli.Declared
import Decompiler.Library.Fuel
import Decompiler.Library.Visiting
import Decompiler.Structurer.Search
import Decompiler.Structurer.Termination
import Decompiler.Passes.Manager
import Decompiler.Passes.Order
import Decompiler.Passes.Safety
import Decompiler.Cfg.Execution
import Decompiler.Structurer.Execution
import Decompiler.Structurer.Evaluation
import Decompiler.Cli.EndToEnd
import Decompiler.Dataflow.Paths
import Decompiler.Dataflow.Instructions
import Decompiler.ConstProp.Wellformed
import Decompiler.Library.CLanguage
import Decompiler.Output.Translation
import Decompiler.Output.Variables
import Decompiler.Output.Faithful
import Decompiler.Output.Meaning
import Decompiler.Output.Execution
import Decompiler.Cli.Measured
import Decompiler.Cli.Printed
import Decompiler.Relocation.Rename
import Decompiler.Relocation.Passes
import Decompiler.Relocation.Base
import Decompiler.Cli.Display
import Decompiler.Cli.Listing
import Decompiler.Cli.Columns
import Decompiler.Cli.Run
import Decompiler.Cli.Endless
