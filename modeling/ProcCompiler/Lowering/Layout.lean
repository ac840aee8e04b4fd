import ProcCompiler.Bytecode
import ProcCompiler.FlowGraph
/-!
# Layout

The reachable blocks are written one after another, in order. A jump to the block that comes next is
left out. A call on two locations becomes a move and a call on one. Labels become offsets; registers
that stand for argument slots become argument registers, and the others are numbered as locals in
the order in which they appear. This is the code generator, section 9 of the specification.
-/
namespace ProcCompiler

/-- An instruction of a block. -/
abbrev BlockInstr := Instr Reg Operand Label

/-- A call has to find its argument where it leaves its result. -/
def Action.expand : Action Reg Operand → List (Action Reg Operand)
  | .call fn out arg =>
    if arg = .reg out then [.call fn out arg] else [.move out arg, .call fn out (.reg out)]
  | a => [a]

namespace Block

/-- The exit as written, when the block `next` follows. -/
def emitExit (b : Block) (next : Option BlockId) : List BlockInstr :=
  match b.exit with
  | none => []
  | some (.jump l) => if next.map (fun n : Nat => (n : Label)) = some l then []
      else [.exit (.jump l)]
  | some e => [.exit e]

/-- The code as written, when the block `next` follows. -/
def emit (b : Block) (next : Option BlockId) : List BlockInstr :=
  (b.body.flatMap Action.expand).map .action ++ b.emitExit next

end Block

/-- A block's place with the code written for it. -/
structure Chunk where
  block : BlockId
  code : List BlockInstr
deriving DecidableEq

/-- The offset of a block's code. -/
def offset? : List Chunk → Label → Option Nat
  | [], _ => none
  | c :: cs, l => if (c.block : Label) = l then some 0 else (offset? cs l).map (c.code.length + ·)

namespace Routine

/-- The code of the blocks, in order. -/
def chunks (f : Routine) : List BlockId → List Chunk
  | [] => []
  | b :: bs => { block := b, code := (f.block b).emit bs.head? } :: f.chunks bs

/-- Replaces operands by registers and labels by offsets. -/
def resolve (f : Routine) (cs : List Chunk) (pc : Nat) (x : BlockInstr) :
    Except Violation (Instr Reg Reg Int) := do
  let y ← x.mapReadM fun
    | .param i => .error (.paramLeft f.name i pc)
    | o => .ok o.regIndex
  y.mapLabelM fun l =>
    match offset? cs l with
    | some n => .ok (n : Int)
    | none => .error (.unreachableTarget f.name l)

/-- The registers of an instruction, what it reads before what it writes. -/
def operands (x : Instr Reg Reg Int) : List Reg := x.read?.toList ++ x.write?.toList

/-- The registers that are no arguments, in order of appearance. -/
def locals (f : Routine) (code : List (Instr Reg Reg Int)) : List Reg :=
  ((code.flatMap operands).filter fun r => (f.slot? r).isNone).eraseDups

/-- The machine register of a register. -/
def place (f : Routine) (locals : List Reg) (r : Reg) : Register :=
  match f.slot? r with
  | some slot => .arg slot
  | none => .frame (locals.idxOf r)

/-- The code of a routine, and the number of its locals (`Generate`). -/
def layout (f : Routine) (g : FlowGraph) : Except Violation (Bytecode × Nat) := do
  let cs := f.chunks g.order
  let code ← (cs.flatMap (·.code)).zipIdx.mapM fun (x, pc) => f.resolve cs pc x
  let locals := f.locals code
  return (code.map fun x => (x.mapRead (f.place locals)).mapWrite (f.place locals), locals.length)

end Routine

end ProcCompiler
