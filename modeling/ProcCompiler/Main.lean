import ProcCompiler.Command
/-!
# Command line

`lower [--dump] FILE...` compiles files and prints their programs.
-/
namespace ProcCompiler

/-- The cause of a failed read; 22 is the system's number for an invalid argument. -/
def readErrorOf : IO.Error → ReadError
  | .noFileOrDirectory .. => .notFound
  | .inappropriateType .. => .isFolder
  | .invalidArgument _ code _ => if code = 22 then .badName else .nameTooLong
  | .permissionDenied .. => .denied
  | e => .other (toString e)

/-- The bytes of a file. -/
def readFile (name : String) : IO (Except ReadError (List UInt8)) := do
  try
    let bytes ← IO.FS.readBinFile name
    return .ok bytes.data.toList
  catch e => return .error (readErrorOf e)

/-- Runs the command on the files. -/
def runLower (dump : Bool) (names : List String) : IO UInt32 := do
  let files ← names.mapM fun name => return (name, ← readFile name)
  let outcome := Command.lower (fun name => (files.lookup name).getD (.error .notFound)) dump names
  IO.print outcome.stdout
  match outcome.failure with
  | none => return 0
  | some cause =>
    IO.eprintln ("error: " ++ cause)
    return 1

end ProcCompiler

def main (args : List String) : IO UInt32 := do
  match args with
  | "lower" :: "--dump" :: names => ProcCompiler.runLower true names
  | "lower" :: names => ProcCompiler.runLower false names
  | _ =>
    IO.eprintln "usage: lower [--dump] FILE..."
    return 1
