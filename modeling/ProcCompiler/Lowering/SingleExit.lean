import ProcCompiler.FlowGraph
/-!
# The single exit

Every return in a reachable block becomes a jump to one new block, which returns: the final block of
section 6 of the specification.
-/
namespace ProcCompiler

/-- A return becomes a jump to `exit`. -/
def Block.redirectReturn (exit : BlockId) (b : Block) : Block :=
  match b.exit with
  | some .ret => { b with exit := some (.jump exit) }
  | _ => b

/-- The routine with one exit block, and that block's place (`GenerateFinalBlock`). -/
def Routine.addExit (f : Routine) (g : FlowGraph) : Routine × BlockId :=
  let exit := f.blocks.size
  let redirected := g.order.foldl (fun f b => f.modifyBlock b (·.redirectReturn exit)) f
  (redirected.pushBlock { exit := some .ret }, exit)

end ProcCompiler
