import ProcCompiler.Instr
/-!
# Foreign functions

A table of the names of foreign functions, each once. A function's id is its place in the table.
-/
namespace ProcCompiler

structure ForeignTable where
  names : List String := []
deriving DecidableEq

namespace ForeignTable

/-- Adds a name; `none` if the table has it. -/
def define? (t : ForeignTable) (name : String) : Option ForeignTable :=
  if name ∈ t.names then none else some { names := t.names ++ [name] }

def lookup? (t : ForeignTable) (name : String) : Option Nat := t.names.idxOf? name

/-- The name of a function, empty for an id outside of the table. -/
def name (t : ForeignTable) : FuncId → String
  | .ofNat n => t.names.getD n ""
  | .negSucc _ => ""

def size (t : ForeignTable) : Nat := t.names.length

/-- The complaint about a second definition of a name. -/
def redefined (name : String) : String := "foreign function redefined: " ++ name

end ForeignTable

end ProcCompiler
