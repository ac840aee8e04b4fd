import ProcCompiler.Lowering.Arguments
import ProcCompiler.Routine.Builder
import ProcCompiler.ForeignTable
import ProcCompiler.Signature
import ProcCompiler.Syntax
/-!
# Drafts

The routine of a procedure, made from its syntax tree statement by statement. Variables and labels
are numbered as they are met. Code goes to the current block; after a jump or a return there is none
until the next label. This is the front end for the procedure description language, in section 11 of
the specification; the names of its operations are given in parentheses.
-/
namespace ProcCompiler

/-- Why a procedure cannot be compiled. -/
inductive ProcError where
  | unknownAccess (pos : Int) (access : String)
  | argument (pos : Int) (e : ArgumentError)
  | labelRedefined (pos : Int) (name : String)
  | unreachableCode (pos : Int)
  | undeclaredForeign (pos : Int) (name : String)
  | undefinedLabel (pos : Int) (name : String)
  | unknownStatement
  | building (v : Violation)
  | lowering (v : Violation)
  | signature (e : SignatureError)
deriving DecidableEq

def atPos (pos : Int) (what : String) : String := "pos " ++ toString pos ++ ": " ++ what

def ProcError.message : ProcError → String
  | unknownAccess pos access => atPos pos ("unknown arg kind: " ++ access)
  | argument pos e => atPos pos e.message
  | labelRedefined pos name => atPos pos ("label redefined: " ++ name)
  | unreachableCode pos => atPos pos "unreachable code"
  | undeclaredForeign pos name => atPos pos ("undeclared foreign function: " ++ name)
  | undefinedLabel pos name => atPos pos ("undefined label: " ++ name)
  | unknownStatement => "unknown statement"
  | building v => v.message
  | lowering v => "lower: " ++ v.message
  | signature e => "lower: " ++ e.message

/-- A label that was met: its block, where it was met first, and whether it stands before a
statement. -/
structure LabelEntry where
  name : String
  block : BlockId
  firstUse : Int
  defined : Bool
deriving DecidableEq

structure Draft where
  routine : Routine
  /-- The labels in the order in which they were met. -/
  labels : List LabelEntry := []
  /-- The block that takes the next statement. -/
  current : Option BlockId := none
deriving DecidableEq

/-- A step of drafting. -/
abbrev Drafting := StateT Draft (Except ProcError)

namespace Drafting

/-- Grows the routine. -/
def build {α : Type} (x : Build α) : Drafting α := fun d =>
  match x d.routine with
  | .ok a routine => .ok (a, { d with routine })
  | .error v _ => .error (.building v)

/-- The variable of that name, new if it was not met before (`variable`). -/
def varOf (name : String) : Drafting Var := do
  match (← get).routine.vars.toList.idxOf? name with
  | some v => return v
  | none => build (Build.newVar name)

/-- The block of a label, new if it was not met before (`label`). -/
def blockOf (id : Ident) : Drafting BlockId := do
  match (← get).labels.find? (·.name = id.name) with
  | some e => return e.block
  | none =>
    let b ← build Build.createBlock
    let entry := { name := id.name, block := b, firstUse := id.span.pos, defined := false }
    modify fun d => { d with labels := d.labels ++ [entry] }
    return b

/-- Marks a label as defined. -/
def define (name : String) : Drafting Unit :=
  modify fun d =>
    { d with
      labels := d.labels.map fun e => if e.name = name then { e with defined := true } else e }

/-- A label: the current block, if there is one, goes on to the block of the label. -/
def label (id : Ident) : Drafting Unit := do
  if (← get).labels.any fun e => e.name = id.name && e.defined then
    throw (.labelRedefined id.span.pos id.name)
  let b ← blockOf id
  define id.name
  match (← get).current with
  | some last => build (Build.jump last b)
  | none => pure ()
  modify fun d => { d with current := some b }

/-- Leaves no block current. -/
def leave : Drafting Unit := modify fun d => { d with current := none }

/-- A statement other than a label, in the current block. -/
def code (table : ForeignTable) (b : BlockId) : Stmt → Drafting Unit
  | .move dst src => do
    let src ← varOf src.name
    let dst ← varOf dst.name
    discard <| build (Build.move b dst src)
  | .call fn var => do
    match table.lookup? fn.name with
    | none => throw (.undeclaredForeign fn.span.pos fn.name)
    | some id =>
      let v ← varOf var.name
      discard <| build (Build.call b id v)
  | .goto target => do
    let t ← blockOf target
    build (Build.jump b t)
    leave
  | .branch cond yes no => do
    let cond ← varOf cond.name
    let yes ← blockOf yes
    let no ← blockOf no
    discard <| build (Build.branch b cond yes no)
    leave
  | .ret _ => do
    build (Build.ret b)
    leave
  | _ => throw .unknownStatement

/-- A statement (`compileStmt`). -/
def statement (table : ForeignTable) : Stmt → Drafting Unit
  | .label id => label id
  | s => do
    match (← get).current with
    | some b => code table b s
    | none => throw (.unreachableCode s.pos)

/-- The end of the body returns. If labels are undefined, the error is about the first of them that
was met; which of them it has to be about is not specified. -/
def finish : Drafting Unit := do
  match (← get).current with
  | some b => build (Build.ret b)
  | none => pure ()
  match (← get).labels.find? (!·.defined) with
  | some e => throw (.undefinedLabel e.firstUse e.name)
  | none => pure ()

end Drafting

namespace ProcDecl

/-- The signature that the arguments declare. -/
def signature (x : ProcDecl) : Except ProcError Signature :=
  x.args.foldlM (fun s a =>
    match Access.ofName? a.access.name with
    | none => .error (.unknownAccess a.access.span.pos a.access.name)
    | some access =>
      (s.declare { name := a.name.name, access, size := a.size }).mapError (.argument a.span.pos))
    { name := x.name.name }

/-- The whole body: arguments, statements, end. The argument slots. -/
def drafting (table : ForeignTable) (x : ProcDecl) : Drafting (List Slot) := do
  let slots ← x.args.mapM fun a => return { var := ← Drafting.varOf a.name.name, size := a.size }
  let b ← Drafting.build Build.createBlock
  modify fun d => { d with current := some b }
  x.body.forM (Drafting.statement table)
  Drafting.finish
  return slots

/-- The routine of a procedure, ready to be lowered with its argument slots (`compileProc`, up to
the lowering). -/
def draft (table : ForeignTable) (x : ProcDecl) : Except ProcError (Routine × List Slot) := do
  let (slots, d) ← (x.drafting table).run { routine := .new x.name.name }
  return (d.routine, slots)

end ProcDecl

end ProcCompiler
