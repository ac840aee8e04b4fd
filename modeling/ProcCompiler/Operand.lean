import ProcCompiler.Wire
/-!
# Operands

While a routine is built, an instruction reads a register or a parameter of its block: a value whose
register is not known yet. Registers and variables are numbers; a number need not have been handed
out.
-/
namespace ProcCompiler

/-- A variable of a routine. -/
abbrev Var := Int

/-- A register of a routine. -/
abbrev Reg := Int

/-- A block as instructions name it. -/
abbrev Label := Int

/-- A block as its place in the routine. -/
abbrev BlockId := Nat

/-- What an instruction reads. `stray k` is made from the parameter index `-2 - k`: no parameter, so
it counts as known, and it reads the register `-1`. -/
inductive Operand where
  | reg (r : Reg)
  | param (i : Nat)
  | stray (k : Nat)
deriving DecidableEq

namespace Operand

/-- The operand for a parameter index. The index `-1` is the operand of register `-1`. -/
def ofParam : Int → Operand
  | .ofNat i => param i
  | .negSucc 0 => reg (-1)
  | .negSucc (k + 1) => stray k

/-- The register to read, unless the operand waits as a parameter. -/
def known? : Operand → Option Reg
  | reg r => some r
  | param _ => none
  | stray _ => some (-1)

/-- The register, `-1` for a parameter. -/
def regIndex (o : Operand) : Int := o.known?.getD (-1)

/-- The parameter index, `-1` for a register. -/
def paramIndex : Operand → Int
  | reg _ => -1
  | param i => i
  | stray k => -2 - k

/-- Parameter `i` turned out to be register `r`; the parameters after it move up one place. -/
def settle (i : Nat) (r : Reg) : Operand → Operand
  | param j => if j < i then param j else if j = i then reg r else param (j - 1)
  | o => o

def regText (r : Reg) : String := "r" ++ toString r

def text : Operand → String
  | param i => "p" ++ toString i
  | o => regText o.regIndex

/-- The operand on the wire. -/
def wire : Operand → List UInt8
  | param i => Wire.field "param" i
  | o => Wire.field "reg" o.regIndex

end Operand

end ProcCompiler
