import ProcCompiler.Token.Lexer
/-!
# Parse errors

What the parser expected and what it found. Where a name or a fixed token is missing, the error
stands at the end of the token before it; elsewhere at the token found.
-/
namespace ProcCompiler

/-- The construct inside which an error arose. -/
inductive Context where
  | ffi
  | proc
  | procNamed (name : String)
  | argument (procName : String)
  | goto
  | call
  | branch
  | assign (name : String)
deriving DecidableEq

def Context.text : Context → String
  | ffi => "ffi"
  | proc => "proc"
  | procNamed name => name
  | argument name => name ++ ": arg"
  | goto => "goto"
  | call => "call"
  | branch => "if"
  | assign name => name ++ " ="

inductive ParseError where
  | lex (e : LexError)
  | itemExpected (pos : Nat) (found : Option Token)
  | nameExpected (pos : Nat) (found : Option Token)
  | tokenExpected (pos : Nat) (want : Token) (found : Option Token)
  | commaExpected (pos : Nat) (proc : String) (found : Option Token)
  | accessExpected (pos : Nat) (proc : String) (found : Option Token)
  | sizeExpected (pos : Nat) (proc arg : String) (found : Option Token)
  | statementExpected (pos : Nat) (found : Option Token)
  | operatorExpected (pos : Nat) (name : String) (found : Option Token)
  | bodyUnclosed (pos : Nat)
  | within (context : Context) (e : ParseError)
deriving DecidableEq

namespace ParseError

def expected (pos : Nat) (what : String) (found : Option Token) : String :=
  "pos " ++ toString pos ++ ": " ++ what ++ ", got " ++ foundText found

def message : ParseError → String
  | lex e => e.message
  | itemExpected pos found => expected pos "ffi or proc expected" found
  | nameExpected pos found => expected pos "name expected" found
  | tokenExpected pos want found => expected pos (want.text ++ " expected") found
  | commaExpected pos proc found => expected pos (proc ++ ": comma expected") found
  | accessExpected pos proc found => expected pos (proc ++ ": arg kind expected") found
  | sizeExpected pos proc arg found =>
    expected pos (proc ++ ": arg " ++ arg ++ ": size expected") found
  | statementExpected pos found => expected pos "statement expected" found
  | operatorExpected pos name found => expected pos ("= or : expected after " ++ name) found
  | bodyUnclosed pos => "pos " ++ toString pos ++ ": unexpected end of file"
  | within context e => context.text ++ ": " ++ e.message

end ParseError

end ProcCompiler
