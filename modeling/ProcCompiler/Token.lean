/-!
# Tokens

A token is a punctuation mark, a keyword, a name or a number. Comments and blanks are no tokens.
-/
namespace ProcCompiler

inductive Punct where
  | openParen
  | closeParen
  | openBrace
  | closeBrace
  | comma
  | colon
  | equals
deriving DecidableEq

namespace Punct

def byte : Punct → UInt8
  | openParen => 0x28
  | closeParen => 0x29
  | openBrace => 0x7B
  | closeBrace => 0x7D
  | comma => 0x2C
  | colon => 0x3A
  | equals => 0x3D

def ofByte? (b : UInt8) : Option Punct :=
  [openParen, closeParen, openBrace, closeBrace, comma, colon, equals].find? (·.byte = b)

def text (p : Punct) : String := String.singleton (Char.ofNat p.byte.toNat)

end Punct

/-- The words that are no names. -/
inductive Keyword where
  | ffi
  | proc
  | call
  | goto
  | if
  | else
  | return
deriving DecidableEq

namespace Keyword

def text : Keyword → String
  | ffi => "ffi"
  | proc => "proc"
  | call => "call"
  | goto => "goto"
  | .if => "if"
  | .else => "else"
  | .return => "return"

def ofText? (s : String) : Option Keyword :=
  [ffi, proc, call, goto, .if, .else, .return].find? (·.text = s)

end Keyword

inductive Token where
  | punct (p : Punct)
  | keyword (k : Keyword)
  | name (s : String)
  | number (n : Nat)
deriving DecidableEq

namespace Token

/-- The token of a word: a keyword or a name. -/
def ofWord (s : String) : Token :=
  match Keyword.ofText? s with
  | some k => keyword k
  | none => name s

/-- The text of a word, whether keyword or name. -/
def word? : Token → Option String
  | keyword k => some k.text
  | name s => some s
  | punct _ => none
  | number _ => none

def text : Token → String
  | punct p => p.text
  | keyword k => k.text
  | name s => s
  | number n => toString n

end Token

/-- How a message shows what was found: a token, or the end of the input. -/
def foundText : Option Token → String
  | some t => t.text
  | none => "<nil>"

/-- A token and the bytes it stands in. -/
structure Lexeme where
  token : Token
  start : Nat
  stop : Nat
deriving DecidableEq

end ProcCompiler
