import ProcCompiler.Block
/-!
# Routines

A routine is a procedure as blocks: its blocks, registers and variables are numbered in the order in
which they were made. Block 0 is the entry; until it is complete it goes on to `route`, at first
block 1, where the body starts. Routines are kept in the store of section 2 of the specification,
whose names are given in parentheses.
-/
namespace ProcCompiler

/-- A register: the variable it was made for, and the argument slot it stands for, if it does. -/
structure RegInfo where
  var : Var
  slot : Option Nat := none
deriving DecidableEq

/-- A routine (`Func`). -/
structure Routine where
  name : String
  blocks : Array Block
  regs : Array RegInfo
  vars : Array String
  route : BlockId
deriving DecidableEq

/-- The entry block. -/
def entry : BlockId := 0

namespace Routine

/-- A routine with an open entry block and nothing else (`New`). -/
def new (name : String) : Routine :=
  { name, blocks := #[{}], regs := #[], vars := #[], route := entry + 1 }

/-- The block at a place. -/
def block (f : Routine) (b : BlockId) : Block := f.blocks.getD b {}

/-- The place of the block that a label names. -/
def find? (f : Routine) : Label → Option BlockId
  | .ofNat b => if b < f.blocks.size then some b else none
  | .negSucc _ => none

def modifyBlock (f : Routine) (b : BlockId) (change : Block → Block) : Routine :=
  { f with blocks := f.blocks.modify b change }

/-- Appends a block, whose place is the former number of blocks. -/
def pushBlock (f : Routine) (b : Block) : Routine := { f with blocks := f.blocks.push b }

/-- Appends a register, whose number is the former number of registers. -/
def pushReg (f : Routine) (r : RegInfo) : Routine := { f with regs := f.regs.push r }

/-- The name of a variable, made up for one that the routine does not have (`VarName`). -/
def varName (f : Routine) (v : Var) : String :=
  match v with
  | .ofNat n => f.vars.getD n ("v" ++ toString v)
  | .negSucc _ => "v" ++ toString v

def regInfo? (f : Routine) : Reg → Option RegInfo
  | .ofNat n => f.regs[n]?
  | .negSucc _ => none

/-- The argument slot that a register stands for (`ArgSlot`). -/
def slot? (f : Routine) (r : Reg) : Option Nat := (f.regInfo? r).bind (·.slot)

/-! ## Blocks after a change -/

@[simp] theorem size_modifyBlock (f : Routine) (b : BlockId) (change : Block → Block) :
    (f.modifyBlock b change).blocks.size = f.blocks.size := by
  simp [modifyBlock]

@[simp] theorem size_pushBlock (f : Routine) (x : Block) :
    (f.pushBlock x).blocks.size = f.blocks.size + 1 := by
  simp [pushBlock]

theorem block_modifyBlock_self {f : Routine} {b : BlockId} (h : b < f.blocks.size)
    (change : Block → Block) : (f.modifyBlock b change).block b = change (f.block b) := by
  simp [block, modifyBlock, Array.getD_eq_getD_getElem?, Array.getElem_modify, h]

theorem block_modifyBlock_ne {f : Routine} {b c : BlockId} (h : b ≠ c) (change : Block → Block) :
    (f.modifyBlock b change).block c = f.block c := by
  simp [block, modifyBlock, Array.getD_eq_getD_getElem?, Array.getElem?_modify, h]

@[simp] theorem block_pushBlock_self (f : Routine) (x : Block) :
    (f.pushBlock x).block f.blocks.size = x := by
  simp [block, pushBlock, Array.getD_eq_getD_getElem?]

theorem block_pushBlock_ne {f : Routine} {b : BlockId} (h : b ≠ f.blocks.size) (x : Block) :
    (f.pushBlock x).block b = f.block b := by
  simp [block, pushBlock, Array.getD_eq_getD_getElem?, Array.getElem?_push, h]

theorem block_of_le {f : Routine} {b : BlockId} (h : f.blocks.size ≤ b) : f.block b = {} := by
  simp [block, Array.getD_eq_getD_getElem?, h]

end Routine

end ProcCompiler
