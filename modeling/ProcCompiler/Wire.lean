/-!
# Wire format

Values are written as a head and, for some kinds, what follows it. A head holds a major kind in its
upper three bits and a number: below 24 in the lower five bits, otherwise in the 1, 2, 4 or 8 bytes
that follow, big endian, as few as will do.
-/
namespace ProcCompiler.Wire

/-- The bytes of `n`, most significant first, in `width` bytes. -/
def bigEndian : (width n : Nat) → List UInt8
  | 0, _ => []
  | width + 1, n => UInt8.ofNat (n / 256 ^ width % 256) :: bigEndian width n

/-- The first byte of a head. -/
def lead (major low : Nat) : UInt8 := UInt8.ofNat (32 * major + low)

def head (major n : Nat) : List UInt8 :=
  if n < 24 then [lead major n]
  else if n < 0x100 then lead major 24 :: bigEndian 1 n
  else if n < 0x10000 then lead major 25 :: bigEndian 2 n
  else if n < 0x100000000 then lead major 26 :: bigEndian 4 n
  else lead major 27 :: bigEndian 8 n

/-- A number below zero is written as its negation plus one. -/
def int : Int → List UInt8
  | .ofNat n => head 0 n
  | .negSucc n => head 1 (n + 2)

def string (s : String) : List UInt8 := head 3 s.utf8ByteSize ++ s.toUTF8.data.toList

/-- A map of one pair. -/
def field (key : String) (v : Int) : List UInt8 := head 5 1 ++ string key ++ int v

/-- The value that stands for nothing. -/
def null : List UInt8 := [lead 7 22]

/-- A list of open length: a break follows the last item. -/
def openList (items : List (List UInt8)) : List UInt8 := lead 4 31 :: items.flatten ++ [lead 7 31]

/-- Two lower-case digits a byte. -/
def hex (bytes : List UInt8) : String :=
  String.ofList
    (bytes.flatMap fun b => [Nat.digitChar (b.toNat / 16), Nat.digitChar (b.toNat % 16)])

end ProcCompiler.Wire
