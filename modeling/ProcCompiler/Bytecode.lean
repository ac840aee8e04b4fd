import ProcCompiler.ForeignTable
import ProcCompiler.Signature
import ProcCompiler.Wire
/-!
# Bytecode

Finished code names argument slots and frame locals, and jumps to offsets. A procedure is code with
a signature and a number of locals; a program is procedures with their table of foreign functions.
-/
namespace ProcCompiler

/-- A location of the machine. `other` is a location of no known kind. -/
inductive Register where
  | frame (i : Int)
  | arg (i : Int)
  | other (kind i : Int)
deriving DecidableEq

namespace Register

/-- The register of a kind, by its code. -/
def ofCode (kind i : Int) : Register :=
  if kind = 0 then frame i else if kind = 1 then arg i else other kind i

def text : Register → String
  | frame i => "l" ++ toString i
  | arg i => "a" ++ toString i
  | other _ i => "l" ++ toString i

/-- The register on the wire. -/
def wire : Register → List UInt8
  | frame i => Wire.field "local" i
  | arg i => Wire.field "arg" i
  | other _ i => Wire.field "local" i

end Register

/-- An instruction of finished code. -/
abbrev Instruction := Instr Register Register Int

def Instruction.text (x : Instruction) : String :=
  Instr.text Register.text Register.text (toString ·) x

abbrev Bytecode := List Instruction

structure Procedure where
  name : String
  signature : Option Signature
  code : Bytecode
  locals : Int
deriving DecidableEq

structure Program where
  foreign : ForeignTable := {}
  procs : List Procedure := []
deriving DecidableEq

/-- The place of the first procedure of that name. -/
def Program.index? (p : Program) (name : String) : Option Nat := p.procs.findIdx? (·.name = name)

end ProcCompiler
