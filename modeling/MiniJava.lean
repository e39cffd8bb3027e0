import MiniJava.Main
import MiniJava.Json.Writer
import MiniJava.Proofs.Semantics.Source
import MiniJava.Proofs.Semantics.Refinement
import MiniJava.Proofs.Optimizer.Expressions
import MiniJava.Proofs.Optimizer.Folding
import MiniJava.Proofs.Optimizer.Facts
import MiniJava.Proofs.Optimizer.Propagation
import MiniJava.Proofs.Optimizer.Meaning
import MiniJava.Proofs.Semantics.Machine
import MiniJava.Proofs.Semantics.Intermediate
import MiniJava.Proofs.Lowering.Inversion
import MiniJava.Proofs.Lowering.Layout
import MiniJava.Proofs.Lowering.Simulation
import MiniJava.Proofs.Lowering.Expressions
import MiniJava.Proofs.Lowering.Arrays
import MiniJava.Proofs.Lowering.Calls
import MiniJava.Proofs.Lowering.Trees
import MiniJava.Proofs.Lowering.Statements
import MiniJava.Proofs.Lowering.Meaning
import MiniJava.Proofs.Semantics.StackMachine
import MiniJava.Proofs.Emission.Code
import MiniJava.Proofs.Emission.Depth
import MiniJava.Proofs.Emission.Faults
import MiniJava.Proofs.Emission.Layout
import MiniJava.Proofs.Lowering.Registers
import MiniJava.Proofs.Emission.Operands
import MiniJava.Proofs.Emission.Values
import MiniJava.Proofs.Emission.Instructions
import MiniJava.Proofs.Semantics.Rules
import MiniJava.Proofs.Paths
import MiniJava.Proofs.Lowering.Code
import MiniJava.Proofs.Lowering.Nodes
import MiniJava.Proofs.Lowering.Shape
import MiniJava.Proofs.Lowering.Bodies
import MiniJava.Proofs.Lowering.Labels
import MiniJava.Proofs.Lowering.Temporaries
import MiniJava.Proofs.Lowering.Validation
import MiniJava.Proofs.Lowering.Failures
import MiniJava.Proofs.Emission.Blocks
import MiniJava.Proofs.Emission.Labels
import MiniJava.Proofs.Lowering.Raising
import MiniJava.Proofs.Lowering.Modules
import MiniJava.Proofs.Lowering.Histories
import MiniJava.Proofs.DottedNames
import MiniJava.Proofs.Imports
import MiniJava.Proofs.Symbols
import MiniJava.Proofs.Emission.Descriptors
import MiniJava.Proofs.Emission.Reader
import MiniJava.Proofs.Emission.Text
import MiniJava.Proofs.Emission.Legibility
import MiniJava.Proofs.Emission.Calls
import MiniJava.Proofs.Emission.Meaning
import MiniJava.Proofs.Optimizer.Simplification
import MiniJava.Proofs.Optimizer.Rules
import MiniJava.Proofs.Emission.Replay
import MiniJava.Proofs.Emission.Arity
import MiniJava.Proofs.Interchange
import MiniJava.Proofs.Lowering.Allocations
import MiniJava.Proofs.Compilation
import MiniJava.Proofs.Emission.Limits
import MiniJava.Proofs.Emission.StackBounds
import MiniJava.Proofs.Emission.Registers
import MiniJava.Proofs.Emission.Refusals
import MiniJava.Proofs.Emission.Acceptance
import MiniJava.Proofs.Optimizer.Acceptance
import MiniJava.Proofs.Acceptance
import MiniJava.Proofs.Emission.Kinds
import MiniJava.Proofs.Emission.Holdings
import MiniJava.Proofs.Optimizer.Typing
import MiniJava.Proofs.Emission.Typing
import MiniJava.Proofs.KindSafety
import MiniJava.Proofs.WellTyped
import MiniJava.Proofs.Optimizer.Idempotence
import MiniJava.Proofs.Optimizer.Exhaustion
import MiniJava.Proofs.Optimizer.Weight
import MiniJava.Proofs.Optimizer.FixedPoint
import MiniJava.Proofs.Optimizer.ConstantValues
import MiniJava.Proofs.Ir.Reachable
import MiniJava.Proofs.Ir.VarTables
import MiniJava.Proofs.Ir.Installation
import MiniJava.Proofs.Emission.Locals
import MiniJava.Proofs.Emission.OwnCalls
import MiniJava.Proofs.Lowering.Packing
import MiniJava.Proofs.Lowering.Literals
import MiniJava.Proofs.Initialization
import MiniJava.Proofs.Emission.Members
import MiniJava.Proofs.MemberUses
