import ProcCompiler.Operand
/-!
# Violations

What the builder and the stages of lowering refuse. A violation is a broken contract between the
parts of the compiler, never a fault of the text that is compiled.
-/
namespace ProcCompiler

inductive Violation where
  | noSuchBlock (b : Label)
  | writeToComplete (var : String) (b : Label)
  | addToComplete (op : String) (b : Label)
  | noUserBlocks (routine : String)
  | notTerminated (routine : String) (b : BlockId)
  | jumpsToEntry (routine : String) (b : BlockId)
  | jumpsToUnknown (routine : String) (b : BlockId) (target : Label)
  /-- A set of needs holds no negative variable. -/
  | negativeVariable (v : Var)
  | entryRoute (routine : String) (route target : BlockId)
  | entryBound (routine : String)
  | entryHasPreds (routine : String) (preds : List BlockId)
  | paramsAtJoin (routine : String) (b : BlockId) (preds : Nat) (params : List Var)
  | unpopulated (routine : String) (b : BlockId) (var : String)
  | twoSources (routine : String) (b : BlockId) (var : String) (first second : Reg)
  | noRegister (routine : String) (b : BlockId) (var : String)
  | stillWaits (routine : String) (b : BlockId) (var : String)
  | paramLeft (routine : String) (i pc : Nat)
  | unreachableTarget (routine : String) (target : Label)
deriving DecidableEq

def blockText (b : Label) : String := "b" ++ toString b

/-- Items in brackets with a blank between them. -/
def listText (items : List String) : String := "[" ++ " ".intercalate items ++ "]"

namespace Violation

def cause : Violation → String
  | noSuchBlock b => "no such block: " ++ blockText b
  | writeToComplete var b => "write " ++ var ++ " to complete block " ++ blockText b
  | addToComplete op b => "add " ++ op ++ " to complete block " ++ blockText b
  | noUserBlocks routine => routine ++ ": no user blocks"
  | notTerminated routine b => routine ++ ": block " ++ blockText b ++ " is not terminated"
  | jumpsToEntry routine b => routine ++ ": block " ++ blockText b ++ " jumps to the entry block"
  | jumpsToUnknown routine b target =>
    routine ++ ": block " ++ blockText b ++ " jumps to unknown block " ++ blockText target
  | negativeVariable v => "negative variable: " ++ toString v
  | entryRoute routine route target =>
    routine ++ ": entry routes to " ++ blockText route ++ ", not " ++ blockText target
  | entryBound routine => routine ++ ": entry block is already bound"
  | entryHasPreds routine preds =>
    routine ++ ": entry block has predecessors: " ++ listText
      (preds.map fun p : BlockId => blockText p)
  | paramsAtJoin routine b preds params =>
    routine ++ ": block " ++ blockText b ++ " with " ++ toString preds ++
      " predecessors still has params: " ++
      listText (params.map toString)
  | unpopulated routine b var =>
    routine ++ ": block " ++ blockText b ++ " needs " ++ var ++ " but doesn't populate it"
  | twoSources routine b var first second =>
    routine ++ ": block " ++ blockText b ++ " gets " ++ var ++ " from two unmerged sources: " ++
      Operand.regText first ++ " and " ++ Operand.regText second
  | noRegister routine b var =>
    routine ++ ": block " ++ blockText b ++ " has no register for " ++ var
  | stillWaits routine b var => routine ++ ": block " ++ blockText b ++ " still waits for " ++ var
  | paramLeft routine i pc =>
    routine ++ ": block param p" ++ toString i ++ " left at pc " ++ toString pc
  | unreachableTarget routine target =>
    routine ++ ": jump to unreachable block " ++ blockText target

def message (v : Violation) : String := "internal error: " ++ v.cause

end Violation

end ProcCompiler
