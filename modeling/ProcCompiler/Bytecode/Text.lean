import ProcCompiler.Bytecode
/-!
# Programs as text

The foreign functions, a line each, then the procedures with their numbered instructions. A blank
line stands between the parts.
-/
namespace ProcCompiler

/-- A number in at least `width` places, filled with blanks on the left. -/
def padded (width n : Nat) : String :=
  let digits := toString n
  "".pushn ' ' (width - digits.length) ++ digits

def Argument.text (a : Argument) : String :=
  a.access.text ++ " " ++ a.name ++ " " ++ toString a.size

namespace Procedure

/-- The name of the called function as a remark, where the table is given. -/
def remark (table : Option ForeignTable) : Instruction → String
  | .action (.call fn _ _) =>
    match table with
    | some t => "\t// " ++ t.name fn
    | none => ""
  | _ => ""

def lineText (table : Option ForeignTable) (pc : Nat) (x : Instruction) : String :=
  "\t" ++ padded 3 pc ++ "  " ++ Instruction.text x ++ remark table x ++ "\n"

/-- The arguments of the procedure, none without a signature. -/
def args (p : Procedure) : List Argument :=
  match p.signature with
  | some s => s.args
  | none => []

def text (table : Option ForeignTable) (p : Procedure) : String :=
  "proc " ++ p.name ++ "(" ++ ", ".intercalate (p.args.map Argument.text) ++ ") // locals " ++
    toString p.locals ++ "\n" ++ String.join (p.code.zipIdx.map fun (x, pc) => lineText table pc x)

end Procedure

namespace Program

def foreignText (t : ForeignTable) : String :=
  String.join (t.names.zipIdx.map fun (name, i) => "ffi " ++ name ++ " // f" ++ toString i ++ "\n")

/-- The first procedure follows the foreign functions after a blank line, if there are any. -/
def text (p : Program) : String :=
  foreignText p.foreign ++
    String.join (p.procs.zipIdx.map fun (proc, i) =>
      (if i = 0 ∧ p.foreign.size = 0 then "" else "\n") ++ proc.text (some p.foreign))

end Program

end ProcCompiler
