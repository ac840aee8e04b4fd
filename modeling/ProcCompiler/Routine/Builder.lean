import ProcCompiler.Routine
import ProcCompiler.Violation
/-!
# Building routines

The calls that grow a routine, section 2 of the specification, whose names are given in parentheses.
Blocks are named by labels and may be missing; variables and registers are not checked. A call that
fails leaves the routine as it was.
-/
namespace ProcCompiler

/-- A computation that grows a routine and may stop at a violation; what was done before stays. -/
abbrev Build := EStateM Violation Routine

namespace Build

/-- The place of a block that has to exist (`Block`). -/
def locate (b : Label) : Build BlockId := do
  match (← get).find? b with
  | some b => return b
  | none => throw (.noSuchBlock b)

/-- Makes a variable (`NewVar`). -/
def newVar (name : String) : Build Var := do
  let f ← get
  set { f with vars := f.vars.push name }
  return f.vars.size

/-- Makes an empty block (`CreateBlock`). -/
def createBlock : Build BlockId := do
  let f ← get
  set (f.pushBlock {})
  return f.blocks.size

/-- Makes a register for a variable (`CreateRegister`). -/
def createRegister (v : Var) : Build Reg := do
  let f ← get
  set (f.pushReg { var := v })
  return f.regs.size

/-- Reads a variable in a block (`ReadVariable`). The block may get a parameter, even if it is
complete. -/
def read (b : Label) (v : Var) : Build Operand := do
  let b ← locate b
  let f ← get
  let (o, block) := (f.block b).read v
  set (f.modifyBlock b fun _ => block)
  return o

/-- The place of a block that still takes writes of `v`. -/
def locateForWrite (b : Label) (v : Var) : Build BlockId := do
  let place ← locate b
  let f ← get
  if (f.block place).isComplete then throw (.writeToComplete (f.varName v) b)
  return place

/-- Binds a variable to a given register (`WriteVariableReg`). -/
def writeReg (b : Label) (v : Var) (r : Reg) : Build Unit := do
  let b ← locateForWrite b v
  modify (·.modifyBlock b (·.bind v r))

/-- Binds a variable to a new register (`WriteVariable`). -/
def write (b : Label) (v : Var) : Build Reg := do
  let b ← locateForWrite b v
  let r ← createRegister v
  modify (·.modifyBlock b (·.bind v r))
  return r

/-- Appends an instruction; an exit completes the block (`AddInstruction`). -/
def add (b : Label) (x : Instr Reg Operand Label) : Build Unit := do
  let place ← locate b
  if ((← get).block place).isComplete then throw (.addToComplete x.opName b)
  modify (·.modifyBlock place (·.add x))

/-- Appends `dst = src`. -/
def move (b : Label) (dst src : Var) : Build (Reg × Operand) := do
  let arg ← read b src
  let out ← write b dst
  add b (.action (.move out arg))
  return (out, arg)

/-- Appends a call of a foreign function on a variable, which it reads and writes. -/
def call (b : Label) (fn : FuncId) (v : Var) : Build (Reg × Operand) := do
  let arg ← read b v
  let out ← write b v
  add b (.action (.call fn out arg))
  return (out, arg)

/-- Ends a block with a choice on a variable. -/
def branch (b : Label) (cond : Var) (taken other : Label) : Build Operand := do
  let arg ← read b cond
  add b (.exit (.branch arg taken other))
  return arg

def jump (b target : Label) : Build Unit := add b (.exit (.jump target))

def ret (b : Label) : Build Unit := add b (.exit .ret)

end Build

end ProcCompiler
