/-!
# Byte literals

How a message shows a byte that starts no token: as a quoted character literal of the code point
with that number.
-/
namespace ProcCompiler.ByteLiteral

/-- Control characters with an escape of their own. -/
def named : List (Nat × Char) :=
  [(0x07, 'a'), (0x08, 'b'), (0x09, 't'), (0x0A, 'n'), (0x0B, 'v'), (0x0C, 'f'), (0x0D, 'r')]

/-- Is the code point shown as itself? Of those below 256, the controls, the no-break space and the
soft hyphen are not. -/
def isPlain (n : Nat) : Bool := (0x20 ≤ n && n < 0x7F) || (0xA1 ≤ n && n != 0xAD)

/-- The lower-case hexadecimal digits of `n`, in `width` places. -/
def hexText : (width n : Nat) → List Char
  | 0, _ => []
  | width + 1, n => Nat.digitChar (n / 16 ^ width % 16) :: hexText width n

/-- What stands between the quotes. -/
def body (n : Nat) : List Char :=
  match named.lookup n with
  | some c => ['\\', c]
  | none =>
    if n = 0x27 then ['\\', '\'']
    else if n = 0x5C then ['\\', '\\']
    else if isPlain n then [Char.ofNat n]
    else if n < 0x80 then '\\' :: 'x' :: hexText 2 n
    else '\\' :: 'u' :: hexText 4 n

def text (b : UInt8) : String := String.ofList ('\'' :: body b.toNat ++ ['\''])

end ProcCompiler.ByteLiteral
