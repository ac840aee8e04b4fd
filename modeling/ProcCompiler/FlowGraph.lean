import ProcCompiler.BitSet
import ProcCompiler.Exploration
import ProcCompiler.Routine
import ProcCompiler.Violation
/-!
# Flow graphs

The graph of jumps between the blocks of a routine, taken at one moment: the successors of every
block, and the blocks that the entry reaches, in breadth-first order. This is the flow analyzer,
section 3 of the specification, whose names are given in parentheses.
-/
namespace ProcCompiler

/-- What is known of the jumps of a routine (`CFG`). -/
structure FlowGraph where
  /-- The successors of each block, reachable or not. -/
  table : Array (List BlockId)
  /-- The reachable blocks, the entry first. -/
  order : List BlockId
deriving DecidableEq

namespace FlowGraph

/-- The blocks that a block jumps to (`Succs`). -/
def succs (g : FlowGraph) (b : BlockId) : List BlockId := g.table.getD b []

/-- The reachable blocks that jump to `b`, in order (`Preds`). -/
def preds (g : FlowGraph) (b : BlockId) : List BlockId := g.order.filter (b ∈ g.succs ·)

/-- The place of a block in the order (`Index`). -/
def index? (g : FlowGraph) (b : BlockId) : Option Nat := g.order.idxOf? b

/-- The reachable blocks as a set (`IsReachable`). -/
def reachable (g : FlowGraph) : BitSet := BitSet.ofList g.order

/-- The block that a label names, if it is one of the graph. -/
def find? (g : FlowGraph) : Label → Option BlockId
  | .ofNat b => if b < g.table.size then some b else none
  | .negSucc _ => none

/-- The graph with the given successors. -/
def ofTable (table : Array (List BlockId)) : FlowGraph :=
  { table
    order := explore (fun b => table.getD b []) [entry]
      (.ofList ((List.range table.size).erase entry)) }

end FlowGraph

namespace Routine

/-- Where a block leads. The open entry goes on to the route. -/
def labels (f : Routine) (b : BlockId) : Except Violation (List Label) :=
  match (f.block b).exit with
  | some e => .ok e.labels
  | none => if b = entry then .ok [f.route] else .error (.notTerminated f.name b)

/-- A target that is a block other than the entry. -/
def target (f : Routine) (b : BlockId) (l : Label) : Except Violation BlockId :=
  match f.find? l with
  | some t => if t = entry then .error (.jumpsToEntry f.name b) else .ok t
  | none => .error (.jumpsToUnknown f.name b l)

/-- The successors of a block. -/
def successors (f : Routine) (b : BlockId) : Except Violation (List BlockId) := do
  (← f.labels b).mapM (f.target b)

/-- The flow graph of a routine with a body in which every block but the entry is complete
(`Analyze`). -/
def analyze (f : Routine) : Except Violation FlowGraph :=
  if f.blocks.size < 2 then .error (.noUserBlocks f.name)
  else do return .ofTable (← (List.range f.blocks.size).mapM f.successors).toArray

end Routine

end ProcCompiler
