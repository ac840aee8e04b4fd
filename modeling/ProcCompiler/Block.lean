import ProcCompiler.Instr
import ProcCompiler.Operand
import Std.Data.ExtTreeMap
/-!
# Blocks

A block is straight-line code. A variable that it reads before it wrote it becomes a parameter: the
read waits for the register that arrives from the blocks before. The block binds each variable that
it wrote, or passes on, to the register that holds it at the end. A block is complete once it has an
exit. Blocks are kept in the store of section 2 of the specification, whose names are given in
parentheses.
-/
namespace ProcCompiler

/-- A block (`Block`). -/
structure Block where
  /-- The variables that the block waits for. -/
  params : List Var := []
  body : List (Action Reg Operand) := []
  exit : Option (Exit Operand Label) := none
  /-- The register that holds a variable at the end of the block. -/
  bindings : Std.ExtTreeMap Var Reg := ∅
deriving DecidableEq

namespace Block

instance : Inhabited Block := ⟨{}⟩

/-- Does the block have its exit (`Complete`)? -/
def isComplete (b : Block) : Bool := b.exit.isSome

/-- All instructions, the exit last (`Code`). -/
def code (b : Block) : List (Instr Reg Operand Label) :=
  b.body.map .action ++ b.exit.toList.map .exit

/-- The register that the block binds a variable to (`Populates`). -/
def binding? (b : Block) (v : Var) : Option Reg := b.bindings[v]?

/-- Reads a variable: the bound register, or a parameter that waits for it (`ReadVariable`). -/
def read (b : Block) (v : Var) : Operand × Block :=
  match b.binding? v with
  | some r => (.reg r, b)
  | none =>
    match b.params.idxOf? v with
    | some i => (.param i, b)
    | none => (.param b.params.length, { b with params := b.params ++ [v] })

/-- Binds a variable, in place of an earlier binding (`WriteVariableReg`). -/
def bind (b : Block) (v : Var) (r : Reg) : Block := { b with bindings := b.bindings.insert v r }

/-- Appends an instruction (`AddInstruction`). -/
def add (b : Block) : Instr Reg Operand Label → Block
  | .action a => { b with body := b.body ++ [a] }
  | .exit e => { b with exit := some e }

/-- The operands change by `f`. -/
def mapRead (b : Block) (f : Operand → Operand) : Block :=
  { b with body := b.body.map (·.mapRead f), exit := b.exit.map (·.mapRead f) }

/-- Fills the parameter that waits for `v`, if there is one: its reads become reads of `r`. -/
def fill (b : Block) (v : Var) (r : Reg) : Block :=
  match b.params.idxOf? v with
  | some i => { b.mapRead (.settle i r) with params := b.params.eraseIdx i }
  | none => b

/-- The value of `v` arrives in `r` (`pipeIn`). A parameter that waits for it is filled, and the
block passes the register on unless it binds the variable itself. -/
def receive (b : Block) (v : Var) (r : Reg) : Block :=
  let b := b.fill v r
  { b with bindings := b.bindings.insertIfNew v r }

/-- Jumps to `old` lead to `new` instead (`replaceJump`). -/
def retarget (b : Block) (old new : Label) : Block :=
  { b with exit := b.exit.map (·.retarget old new) }

end Block

end ProcCompiler
