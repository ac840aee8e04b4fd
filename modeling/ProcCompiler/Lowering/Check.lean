import ProcCompiler.Needs
/-!
# Check before delivery

The needs found before joins were split are held against the graph after it: the entry and every
join bind what they needed, and a join waits for nothing. Blocks with one predecessor are left to
delivery. This is the needs validator, section 7 of the specification.
-/
namespace ProcCompiler.Routine

/-- The block binds all the variables. -/
def checkBound (f : Routine) (b : BlockId) (vars : List Var) : Except Violation Unit :=
  match vars.find? fun v => ((f.block b).binding? v).isNone with
  | some v => .error (.unpopulated f.name b (f.varName v))
  | none => .ok ()

/-- The check of one block. -/
def checkBlock (f : Routine) (g : FlowGraph) (n : Needs) (b : BlockId) : Except Violation Unit :=
  let vars := n.of b
  let preds := g.preds b
  let params := (f.block b).params
  if vars = [] then .ok ()
  else if b = entry then
    if preds = [] then f.checkBound b vars else .error (.entryHasPreds f.name preds)
  else if 1 < preds.length then
    if params = [] then f.checkBound b vars else .error (.paramsAtJoin f.name b preds.length params)
  else .ok ()

/-- The check of all reachable blocks (`ValidateNeeds`). -/
def checkNeeds (f : Routine) (g : FlowGraph) (n : Needs) : Except Violation Unit :=
  g.order.forM (f.checkBlock g n)

end ProcCompiler.Routine
