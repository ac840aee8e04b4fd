import ProcCompiler.Routine
import ProcCompiler.Violation
/-!
# Routines as text

A header line, then each block: its parameters, its code, and the variables it binds.
-/
namespace ProcCompiler

/-- An instruction of a block as text. -/
def blockInstrText (x : Instr Reg Operand Label) : String :=
  x.text Operand.regText Operand.text blockText

namespace Routine

/-- The parameters as `p0=x, p1=y`. -/
def paramsText (f : Routine) (b : Block) : String :=
  ", ".intercalate (b.params.zipIdx.map fun (v, i) => "p" ++ toString i ++ "=" ++ f.varName v)

def bindingText (f : Routine) : Var × Reg → String
  | (v, r) => " " ++ f.varName v ++ "=" ++ Operand.regText r

/-- The line of bindings, if there are any. -/
def bindingsText (f : Routine) (b : Block) : String :=
  if b.bindings.isEmpty then ""
  else "\t//" ++ String.join (b.bindings.toList.map f.bindingText) ++ "\n"

def blockDump (f : Routine) (id : BlockId) (b : Block) : String :=
  blockText id ++ "(" ++ f.paramsText b ++ "):" ++ (if b.isComplete then "" else " // open") ++
    "\n" ++
    String.join (b.code.map fun x => "\t" ++ blockInstrText x ++ "\n") ++ f.bindingsText b

def text (f : Routine) : String :=
  "ssa " ++ f.name ++ "\n" ++
    String.join (f.blocks.toList.zipIdx.map fun (b, id) => f.blockDump id b)

end Routine

end ProcCompiler
