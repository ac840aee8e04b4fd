/-!
# Signatures

The declared arguments of a procedure, in order. Each has a name, a way of access and a size; a name
is declared once and a size is positive. The size of the whole structure is a 64-bit number and
wraps.
-/
namespace ProcCompiler

/-- How a procedure uses an argument. `other` is an access code without a name. -/
inductive Access where
  | ref
  | mutable
  | out
  | other (code : Int)
deriving DecidableEq

namespace Access

def ofCode (code : Int) : Access :=
  if code = 0 then ref else if code = 1 then mutable else if code = 2 then out else other code

def code : Access → Int
  | ref => 0
  | mutable => 1
  | out => 2
  | other code => code

def ofName? (name : String) : Option Access :=
  if name = "ref" then some ref
  else if name = "mut" then some mutable
  else if name = "out" then some out
  else none

def text : Access → String
  | ref => "ref"
  | mutable => "mut"
  | out => "out"
  | other code => "kind(" ++ toString code ++ ")"

end Access

structure Argument where
  name : String
  access : Access
  size : Int
deriving DecidableEq

structure Signature where
  name : String
  args : List Argument := []
deriving DecidableEq

/-- Why an argument cannot be declared. -/
inductive ArgumentError where
  | badSize (name : String) (size : Int)
  | declaredTwice (name : String)
deriving DecidableEq

def ArgumentError.message : ArgumentError → String
  | badSize name size => "arg " ++ name ++ ": bad size: " ++ toString size
  | declaredTwice name => "arg " ++ name ++ ": declared twice"

namespace Signature

/-- Declares one more argument. A bad size is reported before a repeated name. -/
def declare (s : Signature) (a : Argument) : Except ArgumentError Signature :=
  if a.size ≤ 0 then .error (.badSize a.name a.size)
  else if s.args.any (·.name = a.name) then .error (.declaredTwice a.name)
  else .ok { s with args := s.args ++ [a] }

/-- The place of the argument of that name. -/
def index? (s : Signature) (name : String) : Option Nat := s.args.findIdx? (·.name = name)

/-- The sizes of arguments added up. -/
def totalSize : List Argument → Int
  | [] => 0
  | a :: as => a.size + totalSize as

/-- The size of all arguments together, in 64-bit arithmetic. -/
def size (s : Signature) : Int := (totalSize s.args).bmod 0x10000000000000000

end Signature

end ProcCompiler
