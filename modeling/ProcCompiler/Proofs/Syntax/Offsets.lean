import ProcCompiler.Proofs.Syntax.Tiling
/-!
# Reading by offsets

The lexer once more, for a text that is held as a whole and read at offsets. There is no result
where a byte is looked at outside of the text, nor where the bytes between two offsets are not all
inside it, nor where a loop would go on from where it was. From every offset of a text it reads what
the lexer reads along the list, so none of these happens.

* `Cursor.Inside`: a place of a text.
* `ByOffset.skipTrivia`, `ByOffset.scan`, `ByOffset.next`: the lexer by offsets.
* `skip_inside`, `skipTrivia_inside`, `scan_inside`, `next_inside`: what it reads.
* `Skipped`, `Token.Fills`, `LexError.Concerns`: what lies between two offsets, or at one.
* `skipping_agrees`: where the next token starts, and what it is.
-/
namespace ProcCompiler

/-! ## Places of a text -/

namespace Cursor

/-- The place at an offset of a text. -/
def ofOffset (bytes : List UInt8) (i : Nat) : Cursor := { pos := i, rest := bytes.drop i }

/-- The place is one of the text, its end included. -/
structure Inside (c : Cursor) (bytes : List UInt8) : Prop where
  rest : c.rest = bytes.drop c.pos
  le : c.pos ≤ bytes.length

theorem inside_ofOffset {bytes : List UInt8} {i : Nat} (hi : i ≤ bytes.length) :
    (ofOffset bytes i).Inside bytes :=
  ⟨rfl, hi⟩

namespace Inside

variable {bytes : List UInt8} {c c' : Cursor}

theorem eq_ofOffset (h : c.Inside bytes) : c = ofOffset bytes c.pos := by
  rw [ofOffset, ← h.rest]

/-- Nothing is left exactly at the end of the text. -/
theorem rest_eq_nil_iff (h : c.Inside bytes) : c.rest = [] ↔ c.pos = bytes.length := by
  rw [h.rest, List.drop_eq_nil_iff]
  have := h.le
  omega

theorem head?_rest (h : c.Inside bytes) : c.rest.head? = bytes[c.pos]? := by
  rw [h.rest, List.head?_drop]

/-- The first byte that is left stands at the offset, the others after it. -/
theorem of_cons (h : c.Inside bytes) {b : UInt8} {rest : List UInt8} (hr : c.rest = b :: rest) :
    c.pos < bytes.length ∧ bytes[c.pos]? = some b ∧ Inside { pos := c.pos + 1, rest } bytes := by
  have hb : bytes[c.pos]? = some b := by rw [← h.head?_rest, hr, List.head?_cons]
  have hlt : c.pos < bytes.length := (List.getElem?_eq_some_iff.mp hb).1
  refine ⟨hlt, hb, ?_, hlt⟩
  rw [← List.drop_drop, ← h.rest, hr, List.drop_one, List.tail_cons]

/-- What lies between two places is cut out of the text by their offsets. -/
theorem between (h : c.Inside bytes) {text : List UInt8} (ho : c.Over text c') :
    c'.Inside bytes ∧ c.pos ≤ c'.pos ∧ bytes.extract c.pos c'.pos = text := by
  have hrest : bytes.drop c.pos = text ++ c'.rest := h.rest ▸ ho.rest
  have hlen : bytes.length - c.pos = text.length + c'.rest.length := by
    rw [← List.length_drop, hrest, List.length_append]
  have hpos := ho.pos
  have hle := h.le
  refine ⟨⟨?_, by omega⟩, by omega, ?_⟩
  · rw [hpos, ← List.drop_drop, hrest, List.drop_left]
  · rw [List.extract_eq_take_drop, hpos, Nat.add_sub_cancel_left, hrest, List.take_left]

/-- Where less is left is later in the text. -/
theorem pos_lt (h : c.Inside bytes) (h' : c'.Inside bytes) (hlt : c'.rest.length < c.rest.length) :
    c.pos < c'.pos := by
  rw [h.rest, h'.rest, List.length_drop, List.length_drop] at hlt
  omega

theorem skip (h : c.Inside bytes) (p : UInt8 → Bool) : (c.skip p).Inside bytes :=
  (h.between (c.over_skip p)).1

theorem skipBlanks (h : c.Inside bytes) : c.skipBlanks.Inside bytes := h.skip isBlank

theorem comment (h : c.Inside bytes) (hs : c.scan = .comment c') : c'.Inside bytes := by
  by_cases hc : c.skipBlanks.atComment = true
  · rw [scan_of_atComment hc] at hs
    cases hs
    exact h.skipBlanks.skip _
  · exact absurd hs (scan_ne_comment (by simpa using hc))

end Inside

end Cursor

/-! ## The lexer by offsets -/

/-- What is read from an offset on, and the offset after it. -/
inductive Found where
  | eof (stop : Nat)
  | comment (stop : Nat)
  | token (t : Token) (stop : Nat)
  | failed (e : LexError)
deriving DecidableEq

/-- A step of the lexer in a text of the given length. -/
def Scan.found (length : Nat) : Scan → Found
  | eof => .eof length
  | comment after => .comment after.pos
  | token t after => .token t after.pos
  | failed e => .failed e

namespace ByOffset

/-- The bytes between two offsets, if both are in order and inside the text. -/
def slice (bytes : List UInt8) (i j : Nat) : Option (List UInt8) :=
  if i ≤ j ∧ j ≤ bytes.length then some (bytes.extract i j) else none

/-- Goes on past the longest run of bytes in a class. -/
def skip (bytes : List UInt8) (p : UInt8 → Bool) (i : Nat) : Option Nat := do
  if i < bytes.length then
    if p (← bytes[i]?) then skip bytes p (i + 1) else return i
  else return i
termination_by bytes.length - i

/-- Does a comment start here? Only if there is room for two bytes. -/
def atComment (bytes : List UInt8) (i : Nat) : Option Bool := do
  if i + 1 < bytes.length then return (← bytes[i]?) == slash && (← bytes[i + 1]?) == slash
  else return false

/-- Goes on past blanks and comments. -/
def skipTrivia (bytes : List UInt8) (i : Nat) : Option Nat := do
  let start ← skip bytes isBlank i
  if ← atComment bytes start then
    let stop ← skip bytes (· != newline) start
    -- a round that does not move on would have no end
    if i < stop ∧ stop ≤ bytes.length then skipTrivia bytes stop else none
  else return start
termination_by bytes.length - i

/-- Does a comment start with the byte that was read here? -/
def opensComment (bytes : List UInt8) (i : Nat) (b : UInt8) : Option Bool := do
  if b = slash ∧ i + 1 < bytes.length then return (← bytes[i + 1]?) == slash else return false

/-- The item at a byte that is no blank. Its bytes are cut out of the text, also where only their
place is told. -/
def item (bytes : List UInt8) (i : Nat) (b : UInt8) : Option Found := do
  match Punct.ofByte? b with
  | some p =>
    let _ ← slice bytes i (i + 1)
    return .token (.punct p) (i + 1)
  | none =>
    if ← opensComment bytes i b then
      let stop ← skip bytes (· != newline) i
      let _ ← slice bytes i stop
      return .comment stop
    else if isDigit b then
      let stop ← skip bytes isDigit i
      let digits ← slice bytes i stop
      if decimal digits ≤ maxNumber then return .token (.number (decimal digits)) stop
      else return .failed (.outOfRange i (byteText digits))
    else if isWordStart b then
      -- the first byte is known to belong to the word
      let stop ← skip bytes isWordByte (i + 1)
      return .token (.ofWord (byteText (← slice bytes i stop))) stop
    else return .failed (.unsupported i b)

/-- The next item, after blanks. -/
def scan (bytes : List UInt8) (i : Nat) : Option Found := do
  let start ← skip bytes isBlank i
  if start = bytes.length then return .eof start
  else item bytes start (← bytes[start]?)

/-- The next token; comments on the way are dropped. -/
def next (bytes : List UInt8) (i : Nat) : Option Found := do
  match ← scan bytes i with
  | .comment stop => if i < stop ∧ stop ≤ bytes.length then next bytes stop else none
  | found => return found
termination_by bytes.length - i

/-! ## It reads what the lexer reads -/

variable {bytes : List UInt8} {c : Cursor}

theorem slice_over {c' : Cursor} {text : List UInt8} (h : c.Inside bytes) (ho : c.Over text c') :
    slice bytes c.pos c'.pos = some text := by
  obtain ⟨h', hle, htext⟩ := h.between ho
  rw [slice, if_pos ⟨hle, h'.le⟩, htext]

theorem skip_inside (h : c.Inside bytes) (p : UInt8 → Bool) :
    skip bytes p c.pos = some (c.skip p).pos := by
  -- on the bytes that are left
  obtain ⟨pos, rest⟩ := c
  induction rest generalizing pos with
  | nil =>
    have hend : pos = bytes.length := h.rest_eq_nil_iff.mp rfl
    dsimp only
    rw [skip, if_neg (by omega)]
    rfl
  | cons b rest ih =>
    obtain ⟨hlt, hb, hnext⟩ := h.of_cons rfl
    have hstep : skip bytes p pos = if p b then skip bytes p (pos + 1) else some pos := by
      rw [skip, if_pos hlt, hb]
      rfl
    rw [hstep]
    by_cases hp : p b = true
    · rw [if_pos hp, ih (pos + 1) hnext]
      simp [Cursor.skip, hp, Nat.add_comm, Nat.add_left_comm]
    · rw [if_neg hp]
      simp [Cursor.skip, hp]

theorem skipBlanks_inside (h : c.Inside bytes) : skip bytes isBlank c.pos = some c.skipBlanks.pos :=
  skip_inside h isBlank

theorem opensComment_inside (h : c.Inside bytes) {b : UInt8} {rest : List UInt8}
    (hr : c.rest = b :: rest) :
    opensComment bytes c.pos b = some c.atComment := by
  obtain ⟨-, -, hnext⟩ := h.of_cons hr
  unfold opensComment Cursor.atComment
  rw [hr]
  cases rest with
  | nil =>
    have hend : c.pos + 1 = bytes.length := hnext.rest_eq_nil_iff.mp rfl
    rw [if_neg (by omega)]
    simp
  | cons b' rest =>
    obtain ⟨hlt, hb', -⟩ := hnext.of_cons rfl
    dsimp only at hlt hb'
    by_cases hb : b = slash
    · rw [if_pos ⟨hb, hlt⟩, hb']
      simp [hb]
    · rw [if_neg (by simp [hb])]
      simp [hb]

/-- The two ways to look for a comment agree, though one asks for the room first and the other for
the byte. -/
theorem atComment_eq_opensComment {i : Nat} {b : UInt8} (hb : bytes[i]? = some b) :
    atComment bytes i = opensComment bytes i b := by
  unfold atComment opensComment
  by_cases hlt : i + 1 < bytes.length
  · rw [if_pos hlt, hb, List.getElem?_eq_getElem hlt]
    by_cases hs : b = slash <;> simp [hs, hlt]
  · rw [if_neg hlt, if_neg (by simp [hlt])]

theorem atComment_inside (h : c.Inside bytes) : atComment bytes c.pos = some c.atComment := by
  cases hr : c.rest with
  | nil =>
    have hend := h.rest_eq_nil_iff.mp hr
    rw [atComment, if_neg (by omega), Cursor.atComment, hr]
    rfl
  | cons b rest => rw [atComment_eq_opensComment (h.of_cons hr).2.1, opensComment_inside h hr]

theorem skipTrivia_inside (h : c.Inside bytes) :
    skipTrivia bytes c.pos = some c.skipTrivia.pos := by
  fun_induction Cursor.skipTrivia c with
  | case1 c hc ih =>
    have hline : c.skipBlanks.skipLine.Inside bytes := h.skipBlanks.skip (· != newline)
    have hlt : c.pos < c.skipBlanks.skipLine.pos :=
      h.pos_lt hline (Nat.lt_of_lt_of_le (Cursor.skipLine_lt hc) (c.skip_le _))
    have hstop : skip bytes (· != newline) c.skipBlanks.pos = some c.skipBlanks.skipLine.pos :=
      skip_inside h.skipBlanks _
    rw [skipTrivia]
    simp only [skipBlanks_inside h, atComment_inside h.skipBlanks, hc, hstop, Option.bind_eq_bind,
      Option.bind_some, if_true]
    rw [if_pos ⟨hlt, hline.le⟩, ih hline]
  | case2 c hc =>
    rw [skipTrivia]
    simp only [skipBlanks_inside h, atComment_inside h.skipBlanks, hc, Option.bind_eq_bind,
      Option.bind_some]
    rfl

/-- A run may be taken up after its first byte. -/
theorem skip_after {p : UInt8 → Bool} (h : c.Inside bytes) {b : UInt8} {rest : List UInt8}
    (hr : c.rest = b :: rest) (hb : p b = true) :
    skip bytes p (c.pos + 1) = some (c.skip p).pos := by
  obtain ⟨hlt, hget, -⟩ := h.of_cons hr
  have hstep : skip bytes p c.pos = skip bytes p (c.pos + 1) := by
    rw [skip, if_pos hlt, hget]
    exact if_pos hb
  rw [← hstep, skip_inside h]

theorem item_inside (h : c.Inside bytes) {b : UInt8} {rest : List UInt8} (hr : c.rest = b :: rest) :
    item bytes c.pos b = some ((c.item b rest).found bytes.length) := by
  have hslice := fun p => slice_over h (c.over_skip p)
  unfold item Cursor.item
  cases hp : Punct.ofByte? b with
  | some p =>
    have hone : c.Over [b] { pos := c.pos + 1, rest } := ⟨hr, rfl⟩
    dsimp only
    rw [slice_over h hone]
    rfl
  | none =>
    dsimp only
    rw [opensComment_inside h hr]
    by_cases hc : c.atComment = true
    · simp only [hc, if_true, skip_inside h, hslice, Option.bind_eq_bind, Option.bind_some]
      rfl
    by_cases hd : isDigit b = true
    · simp only [hc, hd, Bool.false_eq_true, if_true, if_false, skip_inside h, hslice,
        Option.bind_eq_bind, Option.bind_some]
      split <;> rfl
    by_cases hw : isWordStart b = true
    · have hword : isWordByte b = true := by simp [isWordByte, hw]
      simp only [hc, hd, hw, Bool.false_eq_true, if_true, if_false, skip_after h hr hword, hslice,
        Option.bind_eq_bind, Option.bind_some]
      rfl
    · simp only [hc, hd, hw, Bool.false_eq_true, if_false, Option.bind_eq_bind, Option.bind_some]
      rfl

theorem scan_inside (h : c.Inside bytes) : scan bytes c.pos = some (c.scan.found bytes.length) := by
  unfold scan Cursor.scan
  rw [skipBlanks_inside h, Option.bind_eq_bind, Option.bind_some]
  cases hr : c.skipBlanks.rest with
  | nil =>
    have hend := h.skipBlanks.rest_eq_nil_iff.mp hr
    rw [if_pos hend, hend]
    rfl
  | cons b rest =>
    obtain ⟨hlt, hb, -⟩ := h.skipBlanks.of_cons hr
    rw [if_neg (by omega), hb]
    exact item_inside h.skipBlanks hr

theorem next_inside (h : c.Inside bytes) : next bytes c.pos = some (c.next.found bytes.length) := by
  fun_induction Cursor.next c with
  | case1 c after hs ih =>
    have hafter := h.comment hs
    have hlt := h.pos_lt hafter (Cursor.scan_comment_lt hs)
    rw [next, scan_inside h, hs, ← ih hafter]
    exact if_pos ⟨hlt, hafter.le⟩
  | case2 c hs => rw [next, scan_inside h, hs]; rfl
  | case3 c t after hs => rw [next, scan_inside h, hs]; rfl
  | case4 c e hs => rw [next, scan_inside h, hs]; rfl

end ByOffset

/-! ## What lies at an offset, and between two -/

/-- Blanks and comments lie between the offsets. Each comment goes up to and with its newline; only
one that the text ends with has none. -/
structure Skipped (bytes : List UInt8) (i s : Nat) : Prop where
  le : i ≤ s
  inside : s ≤ bytes.length
  trail : Trail (bytes.extract i s)
  gap : s < bytes.length → Gap (bytes.extract i s)

/-- The token is written from one offset to the other, and the byte after it, if any, does not make
it longer. -/
structure Token.Fills (t : Token) (bytes : List UInt8) (s e : Nat) : Prop where
  lt : s < e
  inside : e ≤ bytes.length
  spelled : t.Spelled (bytes.extract s e)
  ends : ∀ b ∈ bytes[e]?, t.continues b = false

/-- The error tells what stands at the offset: a byte that starts no token, or digits of a number
that is too large. -/
inductive LexError.Concerns (bytes : List UInt8) (s : Nat) : LexError → Prop where
  | unsupported {b : UInt8} (hb : bytes[s]? = some b) (hp : Punct.ofByte? b = none)
      (hw : isWordByte b = false) :
      Concerns bytes s (.unsupported s b)
  | outOfRange {e n : Nat} (hn : (Token.number n).Fills bytes s e) (hlarge : maxNumber < n) :
      Concerns bytes s (.outOfRange s (byteText (bytes.extract s e)))

namespace Cursor.Inside

variable {bytes : List UInt8} {c c' : Cursor}

theorem skipTrivia (h : c.Inside bytes) :
    c.skipTrivia.Inside bytes ∧ Skipped bytes c.pos c.skipTrivia.pos := by
  obtain ⟨gap, hover, htrail, hgap⟩ := c.skipTrivia_trail
  obtain ⟨hin, hle, htext⟩ := h.between hover
  rw [← htext] at htrail hgap
  refine ⟨hin, hle, hin.le, htrail, fun hlt => hgap ?_⟩
  rw [Ne, hin.rest_eq_nil_iff]
  omega

theorem fills (h : c.Inside bytes) {text : List UInt8} {t : Token} (ho : c.Over text c')
    (ht : t.Taken text c'.rest) :
    c'.Inside bytes ∧ t.Fills bytes c.pos c'.pos := by
  obtain ⟨h', -, htext⟩ := h.between ho
  have hlen := List.length_pos_iff.mpr ht.ne_nil
  have hpos := ho.pos
  refine ⟨h', by omega, h'.le, htext.symm ▸ ht.spelled, ?_⟩
  rw [← h'.head?_rest]
  exact ht.ends

theorem token (h : c.Inside bytes) {t : Token} (hn : c.next = .token t c') :
    c'.Inside bytes ∧ t.Fills bytes c.skipTrivia.pos c'.pos := by
  obtain ⟨_, text, -, -, hover, htaken⟩ := taken_of_next hn
  exact h.skipTrivia.1.fills hover htaken

theorem concerns_of_item (h : c.Inside bytes) {b : UInt8} {rest : List UInt8}
    (hr : c.rest = b :: rest) {e : LexError} (hf : c.item b rest = .failed e) :
    e.Concerns bytes c.pos := by
  unfold item at hf
  split at hf
  · cases hf
  · rename_i hp
    split at hf
    · cases hf
    · split at hf
      · rename_i hd
        dsimp only at hf
        split at hf
        · cases hf
        · rename_i hlarge
          cases hf
          have hover := c.over_skip isDigit
          rw [← (h.between hover).2.2]
          exact .outOfRange (h.fills hover (taken_decimal hr hd)).2 (Nat.lt_of_not_le hlarge)
      · rename_i hd
        split at hf
        · cases hf
        · rename_i hw
          cases hf
          exact .unsupported (h.of_cons hr).2.1 hp (by simp [isWordByte, hd, hw])

theorem failed (h : c.Inside bytes) {e : LexError} (hn : c.next = .failed e) :
    e.Concerns bytes c.skipTrivia.pos := by
  cases hr : c.skipTrivia.rest with
  | nil =>
    rw [next_eq_eof_iff.mpr hr] at hn
    cases hn
  | cons b rest =>
    rw [next_eq_item hr] at hn
    exact h.skipTrivia.1.concerns_of_item hr hn

end Cursor.Inside

/-- From every offset of a text the next token is what stands after blanks and comments, by offsets
as along the list. No look at a byte misses the text. -/
theorem skipping_agrees (bytes : List UInt8) {i : Nat} (hi : i ≤ bytes.length) :
    ∃ s, (Cursor.ofOffset bytes i).skipTrivia = Cursor.ofOffset bytes s ∧ Skipped bytes i s ∧
      (Cursor.ofOffset bytes i).next = (Cursor.ofOffset bytes s).scan ∧
      (∀ after, (Cursor.ofOffset bytes i).next ≠ .comment after) ∧
      ((Cursor.ofOffset bytes i).next = .eof ↔ s = bytes.length) ∧
      (∀ t after, (Cursor.ofOffset bytes i).next = .token t after →
        ∃ e, after = Cursor.ofOffset bytes e ∧ t.Fills bytes s e) ∧
      (∀ e, (Cursor.ofOffset bytes i).next = .failed e → e.Concerns bytes s) ∧
      ByOffset.skipTrivia bytes i = some s ∧
      ByOffset.next bytes i = some ((Cursor.ofOffset bytes i).next.found bytes.length) ∧
      ByOffset.next bytes i = ByOffset.scan bytes s := by
  have hc := Cursor.inside_ofOffset hi
  obtain ⟨hs, hskipped⟩ := hc.skipTrivia
  have hscan := Cursor.next_eq_scan (Cursor.ofOffset bytes i)
  have hread := ByOffset.next_inside hc
  refine ⟨(Cursor.ofOffset bytes i).skipTrivia.pos, hs.eq_ofOffset, hskipped, ?_,
    fun _ => Cursor.next_ne_comment, ?_, ?_, fun _ => hc.failed, ByOffset.skipTrivia_inside hc,
    hread, ?_⟩
  · rw [← hs.eq_ofOffset, hscan]
  · rw [Cursor.next_eq_eof_iff, hs.rest_eq_nil_iff]
  · intro t after hn
    obtain ⟨hafter, hfills⟩ := hc.token hn
    exact ⟨after.pos, hafter.eq_ofOffset, hfills⟩
  · rw [ByOffset.scan_inside hs, ← hscan]
    exact hread

/-- Two comments, a number with a lone slash right after it, and a comment that ends with the
text. -/
def slashedText : List UInt8 := utf8 "x //a/\n// b\n\t042/ //"

theorem skipping_agrees_slashed :
    ByOffset.skipTrivia slashedText 1 = some 13 ∧
    ByOffset.next slashedText 1 = some (.token (.number 42) 16) ∧
    ByOffset.next slashedText 16 = some (.failed (.unsupported 16 slash)) ∧
    ByOffset.skipTrivia slashedText 17 = some 20 ∧
    ByOffset.next slashedText 17 = some (.eof 20) := by
  obtain ⟨s₁, hs₁, -, -, -, -, -, -, htrivia₁, hnext₁, -⟩ :=
    skipping_agrees slashedText (i := 1) (by decide +kernel)
  obtain ⟨_, -, -, -, -, -, -, -, -, hnext₁₆, -⟩ :=
    skipping_agrees slashedText (i := 16) (by decide +kernel)
  obtain ⟨s₁₇, hs₁₇, -, -, -, -, -, -, htrivia₁₇, hnext₁₇, -⟩ :=
    skipping_agrees slashedText (i := 17) (by decide +kernel)
  have h₁ : 13 = s₁ :=
    (by decide +kernel : 13 = (Cursor.ofOffset slashedText 1).skipTrivia.pos).trans
    (congrArg Cursor.pos hs₁)
  have h₁₇ : 20 = s₁₇ :=
    (by decide +kernel : 20 = (Cursor.ofOffset slashedText 17).skipTrivia.pos).trans
    (congrArg Cursor.pos hs₁₇)
  rw [htrivia₁, ← h₁, hnext₁, hnext₁₆, htrivia₁₇, ← h₁₇, hnext₁₇]
  decide +kernel

end ProcCompiler
