import ProcCompiler.Needs
/-!
# Joins

A block with several predecessors that needs something is a join. Each edge into a join is split by
a new block, which moves what comes along the edge into registers shared by all edges. The join then
gets each variable in one register. In section 5 of the specification the new blocks are phantoms.
-/
namespace ProcCompiler

/-- The block on an edge: it waits for the variables and moves them into the shared registers. -/
def edgeBlock (vars : List Var) (shared : List Reg) (target : BlockId) : Block :=
  { params := vars
    body := shared.zipIdx.map fun (r, i) => .move r (.param i)
    exit := some (.jump target)
    bindings := .ofList (vars.zip shared) }

namespace Block

/-- Several values arrive. -/
def receiveAll (b : Block) (arrivals : List (Var × Reg)) : Block :=
  arrivals.foldl (fun b (v, r) => b.receive v r) b

end Block

namespace Routine

/-- What jumped from `jumper` to `old` goes to `new` (`redirect`). The open entry has a route in
place of an exit. -/
def redirect (f : Routine) (jumper old new : BlockId) : Except Violation Routine :=
  if jumper = entry ∧ (f.block entry).isComplete = false then
    if f.route = old then .ok { f with route := new } else .error (.entryRoute f.name f.route old)
  else .ok (f.modifyBlock jumper (·.retarget old new))

/-- A register for each variable, and the registers. -/
def shareRegs (f : Routine) (vars : List Var) : Routine × List Reg :=
  (vars.foldl (fun f v => f.pushReg { var := v }) f,
    (List.range vars.length).map fun i => ((f.regs.size + i : Nat) : Reg))

/-- Splits the edge from `jumper` to `target`, and notes the new block. -/
def splitEdge (vars : List Var) (shared : List Reg) (target : BlockId) :
    Routine × List BlockId → BlockId → Except Violation (Routine × List BlockId)
  | (f, edges), jumper => do
    let edge := f.blocks.size
    let f ← (f.pushBlock (edgeBlock vars shared target)).redirect jumper target edge
    return (f, edges ++ [edge])

/-- Splits the edges into `target` if it is a join (`join`). -/
def splitJoin (g : FlowGraph) (n : Needs) :
    Routine × List BlockId → BlockId → Except Violation (Routine × List BlockId)
  | (f, edges), target =>
    let preds := g.preds target
    let vars := n.of target
    if preds.length < 2 ∨ vars = [] then .ok (f, edges)
    else do
      let (f, shared) := f.shareRegs vars
      let (f, edges) ← preds.foldlM (splitEdge vars shared target) (f, edges)
      return (f.modifyBlock target (·.receiveAll (vars.zip shared)), edges)

/-- Splits the edges into all joins (`GeneratePhantoms`). The new blocks are listed in the order of
their making. -/
def splitJoins (f : Routine) (g : FlowGraph) (n : Needs) :
    Except Violation (Routine × List BlockId) :=
  g.order.foldlM (splitJoin g n) (f, [])

end Routine

end ProcCompiler
