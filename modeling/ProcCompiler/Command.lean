import ProcCompiler.Compilation
import ProcCompiler.Folder
import ProcCompiler.Routine.Text
/-!
# The command

Compiles files one after another and writes each program; the first failure ends the run. On request
the routines are written before they are lowered.
-/
namespace ProcCompiler.Command

/-- What the command wrote, and why it failed, if it did. -/
structure Outcome where
  stdout : String := ""
  failure : Option String := none
deriving DecidableEq

def failed (name cause : String) : String := "lower: compile " ++ name ++ ": " ++ cause

/-- Lowers the named files; `read` gives the bytes of a file. -/
def lower (read : String → Except ReadError (List UInt8)) (dump : Bool) : List String → Outcome
  | [] => {}
  | name :: names =>
    match read name with
    | .error e => { failure := some (failed name ("read file: " ++ e.message name)) }
    | .ok bytes =>
      let c := compile bytes
      let dumps := if dump then String.join (c.drafts.map Routine.text) else ""
      match c.result with
      | .error e => { stdout := dumps, failure := some (failed name e.message) }
      | .ok p =>
        let more := lower read dump names
        { more with stdout := dumps ++ p.text ++ more.stdout }

end ProcCompiler.Command
