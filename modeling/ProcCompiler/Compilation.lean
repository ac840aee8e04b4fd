import ProcCompiler.Bytecode.Verify
import ProcCompiler.Draft
import ProcCompiler.Lowering
import ProcCompiler.Syntax.Parser
/-!
# Compilation

From text to a program: parse, draft and lower each procedure, verify the code. The drafted routines
are kept beside the result, as far as compilation went.
-/
namespace ProcCompiler

/-- Why a file cannot be compiled. -/
inductive FileError where
  | foreignRedefined (pos : Int) (name : String)
  | procRedefined (pos : Int) (name : String)
  | inProc (name : String) (e : ProcError)
deriving DecidableEq

def FileError.message : FileError → String
  | foreignRedefined pos name => atPos pos (ForeignTable.redefined name)
  | procRedefined pos name => atPos pos ("proc redefined: " ++ name)
  | inProc name e => "proc " ++ name ++ ": " ++ e.message

/-- Why a text cannot be compiled. -/
inductive CompileError where
  | parse (e : ParseError)
  | compile (e : FileError)
  | verify (proc : String) (d : Defect)
deriving DecidableEq

def CompileError.message : CompileError → String
  | parse e => "parse: " ++ e.message
  | compile e => "compile: " ++ e.message
  | verify proc d => "verify: " ++ proc ++ ": " ++ d.text

/-- The routines that were drafted, in order, and the result. -/
structure Compilation (ε : Type) where
  drafts : List Routine := []
  result : Except ε Program

/-- The procedure of a drafted routine. -/
def lowerDraft (signature : Signature) (f : Routine) (slots : List Slot) :
    Except ProcError Procedure :=
  match f.lower slots with
  | .error v => .error (.lowering v)
  | .ok (_, .error e) => .error (.signature e)
  | .ok (_, .ok l) =>
    .ok { name := signature.name, signature := some signature, code := l.code, locals := l.locals }

namespace SourceFile

/-- The table of the declared foreign functions. -/
def foreignTable (file : SourceFile) : Except FileError ForeignTable :=
  file.foreign.foldlM (fun t id =>
    match t.define? id.name with
    | some t => .ok t
    | none => .error (.foreignRedefined id.span.pos id.name))
    {}

/-- Compiles procedures, after those of `program`. -/
def compileProcs (program : Program) : List ProcDecl → Compilation FileError
  | [] => { result := .ok program }
  | x :: xs =>
    if (program.index? x.name.name).isSome then
      { result := .error (.procRedefined x.span.pos x.name.name) }
    else
      match (do return (← x.signature, ← x.draft program.foreign)) with
      | .error e => { result := .error (.inProc x.name.name e) }
      | .ok (signature, f, slots) =>
        match lowerDraft signature f slots with
        | .error e => { drafts := [f], result := .error (.inProc x.name.name e) }
        | .ok p =>
          let more := compileProcs { program with procs := program.procs ++ [p] } xs
          { more with drafts := f :: more.drafts }

/-- Compiles a syntax tree. -/
def compile (file : SourceFile) : Compilation FileError :=
  match file.foreignTable with
  | .error e => { result := .error e }
  | .ok foreign => compileProcs { foreign } file.procs

end SourceFile

/-- Refuses a program with a defect. -/
def Program.verify (p : Program) : Except CompileError Program := do
  p.procs.forM fun x => x.verify.mapError (.verify x.name)
  return p

/-- Compiles a text given as bytes. -/
def compile (bytes : List UInt8) : Compilation CompileError :=
  match SourceFile.parse bytes with
  | .error e => { result := .error (.parse e) }
  | .ok file =>
    let c := file.compile
    { drafts := c.drafts, result := (c.result.mapError .compile).bind Program.verify }

end ProcCompiler
