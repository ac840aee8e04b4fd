import ProcCompiler.Lowering.Arguments
import ProcCompiler.Lowering.Check
import ProcCompiler.Lowering.Delivery
import ProcCompiler.Lowering.Joins
import ProcCompiler.Lowering.Layout
import ProcCompiler.Lowering.SingleExit
/-!
# Lowering

From a routine to bytecode: one exit, split joins, bound arguments, delivered registers, layout. The
flow graph is taken anew after each change to it; the needs are those before the joins are split.
This is the pipeline of section 10 of the specification.
-/
namespace ProcCompiler

/-- The result of lowering: the code, the exit block and the blocks on the edges into joins
(`Lowered`). -/
structure Lowered where
  code : Bytecode
  locals : Nat
  exit : BlockId
  edges : List BlockId
deriving DecidableEq

/-- Lowers a routine (`Lower`). Where the arguments do not suffice, the routine is left as it was by
then. -/
def Routine.lower (f : Routine) (slots : List Slot) :
    Except Violation (Routine × Except SignatureError Lowered) := do
  let (f, exit) := f.addExit (← f.analyze)
  let g ← f.analyze
  let n ← f.needs g
  let (f, edges) ← f.splitJoins g n
  let g ← f.analyze
  match ← f.bindArguments n slots with
  | (f, some e) => return (f, .error e)
  | (f, none) =>
    f.checkNeeds g n
    let f ← f.deliverAll g
    let (code, locals) ← f.layout g
    return (f, .ok { code, locals, exit, edges })

end ProcCompiler
