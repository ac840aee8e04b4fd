import ProcCompiler.Needs
/-!
# Arguments

What the entry needs is taken from the argument slots of the procedure. The entry then goes on to
the body. This is the calling convention binder, in section 6 of the specification.
-/
namespace ProcCompiler

/-- A slot of the argument structure, and the variable by which the body knows it (`ArgSlot`). -/
structure Slot where
  var : Var
  size : Int
deriving DecidableEq

/-- The body needs values that no argument provides. -/
structure SignatureError where
  proc : String
  missing : List String
deriving DecidableEq

def SignatureError.message (e : SignatureError) : String :=
  e.proc ++ ": arguments don't provide: " ++ ", ".intercalate e.missing

namespace Routine

/-- Binds a variable in the entry to a new register for the first slot that has it, or notes its
name as missing. -/
def bindSlot (slots : List Slot) : Routine × List String → Var → Routine × List String
  | (f, missing), v =>
    match slots.findIdx? (·.var = v) with
    | some slot =>
      let r : Reg := f.regs.size
      let f := f.pushReg { var := v, slot := some slot }
      (f.modifyBlock entry fun b => (b.bind v r).receive v r, missing)
    | none => (f, missing ++ [f.varName v])

/-- Binds all that the open entry needs, and completes the entry unless something is missing
(`BindArgs`). -/
def bindArguments (f : Routine) (n : Needs) (slots : List Slot) :
    Except Violation (Routine × Option SignatureError) :=
  if (f.block entry).isComplete then .error (.entryBound f.name)
  else
    match (n.of entry).foldl (bindSlot slots) (f, []) with
    | (f, []) => .ok (f.modifyBlock entry (·.add (.exit (.jump f.route))), none)
    | (f, missing) => .ok (f, some { proc := f.name, missing })

end Routine

end ProcCompiler
