import ProcCompiler.Bytecode.Text
/-!
# Verification

Code is sound to run if it is not empty, ends in an exit, jumps to its own instructions only, names
registers that the frame has only, and calls foreign functions on one location. `Procedure.verify`
finds the first defect.
-/
namespace ProcCompiler

/-- Why code cannot be run. Apart from the first two, a defect stands at an instruction. -/
inductive Defect where
  | empty
  | openEnd (op : String)
  | jumpOut (pc : Nat) (target : Int)
  | noSuchArg (pc : Nat) (r : Register)
  | noSuchLocal (pc : Nat) (r : Register)
  | twoLocations (pc : Nat) (out arg : Register)
deriving DecidableEq

def Defect.text : Defect → String
  | empty => "empty code"
  | openEnd op => "code ends with " ++ op
  | jumpOut pc target => "pc " ++ toString pc ++ ": jump out of code: " ++ toString target
  | noSuchArg pc r => "pc " ++ toString pc ++ ": arg register out of range: " ++ r.text
  | noSuchLocal pc r => "pc " ++ toString pc ++ ": local register out of range: " ++ r.text
  | twoLocations pc out arg =>
    "pc " ++ toString pc ++ ": foreign call on two locations: " ++ out.text ++ ", " ++ arg.text

namespace Procedure

/-- Is a number from 0 up to, not including, `n`? -/
def inRange (i n : Int) : Bool := 0 ≤ i && i < n

/-- The defect of a register, if it has one. -/
def registerDefect? (p : Procedure) (pc : Nat) (r : Register) : Option Defect :=
  match r with
  | .arg i => if inRange i p.args.length then none else some (.noSuchArg pc r)
  | .frame i => if inRange i p.locals then none else some (.noSuchLocal pc r)
  | .other _ _ => none

/-- The first defect of an instruction: its targets, what it writes, what it reads, then the two
locations of a call. -/
def instrDefect? (p : Procedure) (pc : Nat) (x : Instruction) : Option Defect :=
  ((x.labels.find? fun l => !inRange l p.code.length).map (.jumpOut pc))
    <|> (x.write?.bind (p.registerDefect? pc))
    <|> (x.read?.bind (p.registerDefect? pc))
    <|> match x with
      | .action (.call _ out arg) => if out = arg then none else some (.twoLocations pc out arg)
      | _ => none

/-- The first defect of a procedure. -/
def defect? (p : Procedure) : Option Defect :=
  match p.code.getLast? with
  | none => some .empty
  | some last =>
    if last.isExit then p.code.zipIdx.findSome? fun (x, pc) => p.instrDefect? pc x
    else some (.openEnd last.opName)

/-- Refuses code with a defect. -/
def verify (p : Procedure) : Except Defect Unit :=
  match p.defect? with
  | some d => .error d
  | none => .ok ()

end Procedure

end ProcCompiler
