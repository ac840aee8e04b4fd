import ProcCompiler.Token
import ProcCompiler.Token.ByteLiteral
/-!
# Lexing

The input is a list of bytes. `Cursor.scan` reads one item, a token or a comment, after any blanks;
`Cursor.next` drops comments; `Cursor.skipTrivia` finds where the next token starts. `lexemes` is
the whole input: tokens with their places, and how the input ended.

* `scan_comment_lt`, `scan_token_lt`, `next_token_lt`: each item takes at least a byte.
-/
namespace ProcCompiler

/-- A place in the input: the offset, and the bytes from there on. -/
structure Cursor where
  pos : Nat
  rest : List UInt8
deriving DecidableEq

/-- Why the input cannot be split into tokens. -/
inductive LexError where
  | unsupported (pos : Nat) (byte : UInt8)
  | outOfRange (pos : Nat) (digits : String)
deriving DecidableEq

def LexError.message : LexError → String
  | unsupported pos byte =>
    "pos " ++ toString pos ++ ": unsupported char: " ++ ByteLiteral.text byte
  | outOfRange pos digits =>
    "pos " ++ toString pos ++ ": number: strconv.Atoi: parsing \"" ++ digits ++
      "\": value out of range"

/-! ## Classes of bytes -/

def isBlank (b : UInt8) : Bool := b == 0x20 || b == 0x09 || b == 0x0A || b == 0x0D

def isDigit (b : UInt8) : Bool := 0x30 ≤ b && b ≤ 0x39

def isWordStart (b : UInt8) : Bool := (0x41 ≤ b && b ≤ 0x5A) || (0x61 ≤ b && b ≤ 0x7A) || b == 0x5F

def isWordByte (b : UInt8) : Bool := isWordStart b || isDigit b

def newline : UInt8 := 0x0A

def slash : UInt8 := 0x2F

/-- Bytes as the characters with their numbers. -/
def byteText (bytes : List UInt8) : String := String.ofList (bytes.map fun b => Char.ofNat b.toNat)

/-- The number written in decimal digits, leading zeros or not. -/
def decimal (digits : List UInt8) : Nat := digits.foldl (fun n b => 10 * n + (b.toNat - 0x30)) 0

/-- The largest number that a token may hold. -/
def maxNumber : Nat := 0x7FFFFFFFFFFFFFFF

/-! ## Scanning -/

/-- One step of the lexer: the end of the input, an item and where it ends, or an error. -/
inductive Scan where
  | eof
  | comment (after : Cursor)
  | token (t : Token) (after : Cursor)
  | failed (e : LexError)
deriving DecidableEq

namespace Cursor

/-- Goes on past the longest run of bytes in a class. -/
def skip (c : Cursor) (p : UInt8 → Bool) : Cursor :=
  { pos := c.pos + (c.rest.takeWhile p).length, rest := c.rest.dropWhile p }

def skipBlanks (c : Cursor) : Cursor := c.skip isBlank

/-- Goes on to the newline or the end of the input. -/
def skipLine (c : Cursor) : Cursor := c.skip (· != newline)

/-- Does a comment start here? -/
def atComment (c : Cursor) : Bool := c.rest.take 2 == [slash, slash]

/-- The item at a byte that is no blank. -/
def item (c : Cursor) (b : UInt8) (rest : List UInt8) : Scan :=
  match Punct.ofByte? b with
  | some p => .token (.punct p) { pos := c.pos + 1, rest }
  | none =>
    if c.atComment then .comment c.skipLine
    else if isDigit b then
      let digits := c.rest.takeWhile isDigit
      if decimal digits ≤ maxNumber then .token (.number (decimal digits)) (c.skip isDigit)
      else .failed (.outOfRange c.pos (byteText digits))
    else if isWordStart b then
      .token (.ofWord (byteText (c.rest.takeWhile isWordByte))) (c.skip isWordByte)
    else .failed (.unsupported c.pos b)

/-- The next item, after blanks. -/
def scan (c : Cursor) : Scan :=
  match c.skipBlanks.rest with
  | [] => .eof
  | b :: rest => c.skipBlanks.item b rest

theorem skip_length (c : Cursor) (p : UInt8 → Bool) :
    (c.rest.takeWhile p).length + (c.skip p).rest.length = c.rest.length := by
  simp only [skip]
  rw [← List.length_append, List.takeWhile_append_dropWhile]

theorem skip_le (c : Cursor) (p : UInt8 → Bool) : (c.skip p).rest.length ≤ c.rest.length := by
  have := c.skip_length p
  omega

/-- A run that starts with a byte of the class takes at least that byte. -/
theorem skip_lt {c : Cursor} {p : UInt8 → Bool} {b : UInt8} {rest : List UInt8}
    (h : c.rest = b :: rest) (hb : p b = true) : (c.skip p).rest.length < c.rest.length := by
  have := c.skip_length p
  rw [h, List.takeWhile_cons_of_pos hb] at this
  simp only [List.length_cons] at this
  rw [h, List.length_cons]
  omega

theorem skipLine_lt {c : Cursor} (h : c.atComment = true) :
    c.skipLine.rest.length < c.rest.length := by
  unfold atComment at h
  match hr : c.rest with
  | [] => rw [hr] at h; exact absurd h (by decide)
  | b :: rest =>
    rw [hr] at h
    have hb : b = slash := by
      cases rest <;> simp_all
    rw [← hr]
    exact skip_lt hr (by rw [hb]; decide)

theorem item_comment_lt {c c' : Cursor} {b : UInt8} {rest : List UInt8}
    (h : c.item b rest = .comment c') :
    c'.rest.length < c.rest.length := by
  unfold item at h
  split at h
  · cases h
  · split at h
    · cases h; exact skipLine_lt ‹_›
    · split at h
      · dsimp only at h; split at h <;> cases h
      · split at h <;> cases h

theorem item_token_lt {c c' : Cursor} {t : Token} {b : UInt8} {rest : List UInt8}
    (hr : c.rest = b :: rest) (h : c.item b rest = .token t c') :
    c'.rest.length < c.rest.length := by
  unfold item at h
  split at h
  · cases h; rw [hr]; simp
  · split at h
    · cases h
    · split at h
      · dsimp only at h
        split at h
        · cases h; exact skip_lt hr ‹_›
        · cases h
      · split at h
        · cases h; exact skip_lt hr (by simp_all [isWordByte])
        · cases h

theorem scan_comment_lt {c c' : Cursor} (h : c.scan = .comment c') :
    c'.rest.length < c.rest.length := by
  unfold scan at h
  split at h
  · cases h
  · exact Nat.lt_of_lt_of_le (item_comment_lt h) (c.skip_le _)

theorem scan_token_lt {c c' : Cursor} {t : Token} (h : c.scan = .token t c') :
    c'.rest.length < c.rest.length := by
  unfold scan at h
  split at h
  · cases h
  · exact Nat.lt_of_lt_of_le (item_token_lt ‹_› h) (c.skip_le _)

/-- The next token; comments on the way are dropped. -/
def next (c : Cursor) : Scan :=
  match _h : c.scan with
  | .comment after => after.next
  | .eof => .eof
  | .token t after => .token t after
  | .failed e => .failed e
termination_by c.rest.length
decreasing_by exact scan_comment_lt ‹_›

theorem next_token_lt {c c' : Cursor} {t : Token} (h : c.next = .token t c') :
    c'.rest.length < c.rest.length := by
  fun_induction next c with
  | case1 c after hs ih => exact Nat.lt_trans (ih h) (scan_comment_lt hs)
  | case2 => cases h
  | case3 c t' after hs => cases h; exact scan_token_lt hs
  | case4 => cases h

/-- Goes on past blanks and comments. -/
def skipTrivia (c : Cursor) : Cursor :=
  if _h : c.skipBlanks.atComment then c.skipBlanks.skipLine.skipTrivia else c.skipBlanks
termination_by c.rest.length
decreasing_by exact Nat.lt_of_lt_of_le (skipLine_lt ‹_›) (c.skip_le _)

end Cursor

/-! ## The whole input -/

/-- How the input ends: at an offset, or where it cannot be read on. -/
inductive Ending where
  | eof (pos : Nat)
  | failed (e : LexError)
deriving DecidableEq

/-- The tokens from the cursor on, up to the end of the input or the first error. -/
def Cursor.lexemes (c : Cursor) : List Lexeme × Ending :=
  match _h : c.next with
  | .token t after =>
    let more := after.lexemes
    ({ token := t, start := c.skipTrivia.pos, stop := after.pos } :: more.1, more.2)
  | .failed e => ([], .failed e)
  | .eof => ([], .eof c.skipTrivia.pos)
  | .comment after => ([], .eof after.pos)
termination_by c.rest.length
decreasing_by exact Cursor.next_token_lt ‹_›

def lexemes (bytes : List UInt8) : List Lexeme × Ending :=
  Cursor.lexemes { pos := 0, rest := bytes }

end ProcCompiler
