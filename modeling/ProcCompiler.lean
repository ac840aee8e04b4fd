import ProcCompiler.Instr
import ProcCompiler.Instr.Word
import ProcCompiler.Wire
import ProcCompiler.BitSet
import ProcCompiler.Signature
import ProcCompiler.ForeignTable
import ProcCompiler.Token
import ProcCompiler.Token.ByteLiteral
import ProcCompiler.Token.Lexer
import ProcCompiler.Syntax
import ProcCompiler.Syntax.ParseError
import ProcCompiler.Syntax.Input
import ProcCompiler.Syntax.Parser
import ProcCompiler.Operand
import ProcCompiler.Block
import ProcCompiler.Violation
import ProcCompiler.Routine
import ProcCompiler.Routine.Builder
import ProcCompiler.Routine.Text
import ProcCompiler.Exploration
import ProcCompiler.FlowGraph
import ProcCompiler.Needs
import ProcCompiler.Bytecode
import ProcCompiler.Bytecode.Text
import ProcCompiler.Bytecode.Verify
import ProcCompiler.Lowering.SingleExit
import ProcCompiler.Lowering.Joins
import ProcCompiler.Lowering.Arguments
import ProcCompiler.Lowering.Check
import ProcCompiler.Lowering.Delivery
import ProcCompiler.Lowering.Layout
import ProcCompiler.Lowering
import ProcCompiler.Draft
import ProcCompiler.Compilation
import ProcCompiler.Folder
import ProcCompiler.Command
import ProcCompiler.Main
import ProcCompiler.Proofs.Outcome
import ProcCompiler.Proofs.BitSet
import ProcCompiler.Proofs.BitSet.Refinement
import ProcCompiler.Proofs.Graph.Reach
import ProcCompiler.Proofs.Graph.Search
import ProcCompiler.Proofs.Graph.Analyze
import ProcCompiler.Proofs.Graph.Survey
import ProcCompiler.Proofs.Graph.BreadthFirst
import ProcCompiler.Proofs.Graph.Needs
import ProcCompiler.Proofs.Graph.NeedTables
import ProcCompiler.Proofs.Graph.Liveness
import ProcCompiler.Proofs.Block.Receive
import ProcCompiler.Proofs.Block.Arrivals
import ProcCompiler.Proofs.Lowering.SingleExit
import ProcCompiler.Proofs.Lowering.Joins
import ProcCompiler.Proofs.Lowering.Arguments
import ProcCompiler.Proofs.Lowering.SplitGraph
import ProcCompiler.Proofs.Lowering.SplitNeeds
import ProcCompiler.Proofs.Lowering.Delivery
import ProcCompiler.Proofs.Lowering.Ready
import ProcCompiler.Proofs.Lowering.Layout
import ProcCompiler.Proofs.Lowering.Settled
import ProcCompiler.Proofs.Lowering.Verified
import ProcCompiler.Proofs.Lowering.Complete
import ProcCompiler.Proofs.Lowering.Transit
import ProcCompiler.Proofs.Lowering.AnyQueue
import ProcCompiler.Proofs.Lowering.Stages
import ProcCompiler.Proofs.Routine.Builder
import ProcCompiler.Proofs.Lowering.Calls
import ProcCompiler.Proofs.Routine.Session
import ProcCompiler.Proofs.Routine.History
import ProcCompiler.Proofs.Routine.Made
import ProcCompiler.Proofs.Routine.Emission
import ProcCompiler.Proofs.Lowering.OwnBindings
import ProcCompiler.Proofs.Lowering.AnyOrder
import ProcCompiler.Proofs.Lowering.Worklists
import ProcCompiler.Proofs.Routine.Handover
import ProcCompiler.Proofs.Draft.Sketch
import ProcCompiler.Proofs.Draft.Steps
import ProcCompiler.Proofs.Draft.Body
import ProcCompiler.Proofs.Draft.Plan
import ProcCompiler.Proofs.Draft.Procedure
import ProcCompiler.Proofs.Draft.Exposure
import ProcCompiler.Proofs.Syntax.Grammar
import ProcCompiler.Proofs.Syntax.Derivation
import ProcCompiler.Proofs.Syntax.Spelling
import ProcCompiler.Proofs.Syntax.RoundTrip
import ProcCompiler.Proofs.Syntax.Tiling
import ProcCompiler.Proofs.Syntax.Offsets
import ProcCompiler.Proofs.Syntax.Standing
import ProcCompiler.Proofs.Syntax.Placement
import ProcCompiler.Proofs.Syntax.Places
import ProcCompiler.Proofs.Compilation.Procedures
import ProcCompiler.Proofs.Compilation.Accepted
import ProcCompiler.Proofs.Semantics.Code
import ProcCompiler.Proofs.Semantics.Statements
import ProcCompiler.Proofs.Semantics.Detours
import ProcCompiler.Proofs.Semantics.Registers
import ProcCompiler.Proofs.Semantics.Layout
import ProcCompiler.Proofs.Semantics.Preservation
import ProcCompiler.Proofs.Semantics.Initialized
import ProcCompiler.Proofs.Semantics.Verification
import ProcCompiler.Proofs.Signature
import ProcCompiler.Proofs.Names.Lowering
import ProcCompiler.Proofs.Names.Draft
import ProcCompiler.Proofs.Names.Compilation
import ProcCompiler.Proofs.Renaming.Graph
import ProcCompiler.Proofs.Renaming.Block
import ProcCompiler.Proofs.Renaming.Routine
import ProcCompiler.Proofs.Renaming.Joins
import ProcCompiler.Proofs.Renaming.Layout
import ProcCompiler.Proofs.Renaming.Delivery
import ProcCompiler.Proofs.Renaming.Invariance
import ProcCompiler.Proofs.Lowering.Subdivision
import ProcCompiler.Proofs.Lowering.Resplit
import ProcCompiler.Proofs.Semantics.ParallelMoves
import ProcCompiler.Proofs.Semantics.Refinement
import ProcCompiler.Proofs.Lowering.Unsplit
import ProcCompiler.Proofs.Lowering.OneReturn
import ProcCompiler.Proofs.Lowering.Allocation
import ProcCompiler.Proofs.Lowering.Numbering
import ProcCompiler.Proofs.Lowering.Retry
import ProcCompiler.Proofs.Syntax.Legible
import ProcCompiler.Proofs.Text.Reading
import ProcCompiler.Proofs.Text.Program
import ProcCompiler.Proofs.Draft.SingleAssignment
import ProcCompiler.Proofs.Lowering.Owners
import ProcCompiler.Proofs.Lowering.Assignment
