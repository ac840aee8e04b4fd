/-!
# Syntax trees

A file declares foreign functions and procedures. A procedure has sized arguments and a body of
statements: copies, calls of foreign functions, labels, jumps and returns. Every name and every
larger part knows the bytes it stands in.
-/
namespace ProcCompiler

/-- The bytes from `pos` up to `stop`, the latter not included. -/
structure Span where
  pos : Int
  stop : Int
deriving DecidableEq

/-- A name in the text. -/
structure Ident where
  span : Span
  name : String
deriving DecidableEq

inductive Stmt where
  /-- `name:` -/
  | label (name : Ident)
  /-- `dst = src` -/
  | move (dst src : Ident)
  /-- `call fn var`: the function may change the variable. -/
  | call (fn var : Ident)
  /-- `goto target` -/
  | goto (target : Ident)
  /-- `if cond goto yes else no` -/
  | branch (cond yes no : Ident)
  /-- `return` -/
  | ret (span : Span)
  /-- A statement of no known form. -/
  | unknown
deriving DecidableEq

/-- Where a statement is reported, by its first name. -/
def Stmt.pos : Stmt → Int
  | label name => name.span.pos
  | move dst _ => dst.span.pos
  | call fn _ => fn.span.pos
  | goto target => target.span.pos
  | branch cond _ _ => cond.span.pos
  | ret span => span.pos
  | unknown => -1

/-- An argument `access name size`. -/
structure ArgDecl where
  span : Span
  access : Ident
  name : Ident
  size : Int
deriving DecidableEq

structure ProcDecl where
  span : Span
  name : Ident
  args : List ArgDecl
  body : List Stmt
deriving DecidableEq

/-- The foreign functions and the procedures of a file, each in the order of the text. -/
structure SourceFile where
  foreign : List Ident := []
  procs : List ProcDecl := []
deriving DecidableEq

end ProcCompiler
