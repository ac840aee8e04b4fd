import ProcCompiler.Proofs.Syntax.Grammar
import Mathlib.Data.List.TakeWhile
/-!
# Tokens written as text

A text writes tokens one after another. Before, between and after them stands any mixture of blanks
and comments; two tokens that are words or numbers do not touch. A number is written in decimal,
with any number of zeros in front. The lexer finds in such a text the tokens that were written,
whatever the layout.

* `Gap`, `Trail`: what may stand before a token and at the end of a text.
* `Token.Spelled`: how a token is written.
* `Laid`: a text that writes tokens.
* `next_gap`, `next_spelled`: one step of the lexer over a gap, and over a token.
* `Laid.lexes`: the whole text.
-/
namespace ProcCompiler

/-! ## Layout -/

/-- A blank, or a comment up to and with its newline. -/
inductive Separator : List UInt8 → Prop where
  | space : Separator [0x20]
  | tab : Separator [0x09]
  | newline : Separator [0x0A]
  | carriageReturn : Separator [0x0D]
  | comment {bytes : List UInt8} (h : 0x0A ∉ bytes) : Separator (0x2F :: 0x2F :: (bytes ++ [0x0A]))

/-- Any number of separators. -/
inductive Gap : List UInt8 → Prop where
  | nil : Gap []
  | cons {sep gap : List UInt8} (hs : Separator sep) (hg : Gap gap) : Gap (sep ++ gap)

/-- What may stand after the last token. A comment there may end with the text. -/
inductive Trail : List UInt8 → Prop where
  | gap {gap : List UInt8} (h : Gap gap) : Trail gap
  | comment {gap bytes : List UInt8} (h : Gap gap) (hb : 0x0A ∉ bytes) :
      Trail (gap ++ 0x2F :: 0x2F :: bytes)

/-- The characters of a string as bytes. -/
def utf8 (s : String) : List UInt8 := s.toList.flatMap String.utf8EncodeChar

namespace Token

/-- How a token is written. -/
inductive Spelled : Token → List UInt8 → Prop where
  | punct (p : Punct) : Spelled (.punct p) [p.byte]
  | keyword (k : Keyword) : Spelled (.keyword k) (utf8 k.text)
  | name (s : String) : Spelled (.name s) (utf8 s)
  | number (zeros n : Nat) : Spelled (.number n) (List.replicate zeros 0x30 ++ utf8 (toString n))

/-- Words and numbers run together if nothing stands between them. -/
def isRun : Token → Bool
  | punct _ => false
  | keyword _ => true
  | name _ => true
  | number _ => true

end Token

/-- The text writes the tokens. They follow the token `prev`, if there is one. -/
inductive Laid : Option Token → List Token → List UInt8 → Prop where
  | done {prev : Option Token} {bytes : List UInt8} (h : Trail bytes) : Laid prev [] bytes
  | token {prev : Option Token} {t : Token} {ts : List Token} {gap text rest : List UInt8}
      (hgap : Gap gap)
      (hsep : prev.any Token.isRun = true → t.isRun = true → gap ≠ []) (ht : t.Spelled text)
      (hrest : Laid (some t) ts rest) : Laid prev (t :: ts) (gap ++ text ++ rest)

/-- Every token can be written. -/
theorem Token.exists_spelled (t : Token) : ∃ text, t.Spelled text := by
  cases t with
  | punct p => exact ⟨_, .punct p⟩
  | keyword k => exact ⟨_, .keyword k⟩
  | name s => exact ⟨_, .name s⟩
  | number n => exact ⟨_, .number 0 n⟩

/-- So can all tokens, for instance with a space before each. -/
theorem exists_laid (prev : Option Token) (ts : List Token) : ∃ bytes, Laid prev ts bytes := by
  induction ts generalizing prev with
  | nil => exact ⟨[], .done (.gap .nil)⟩
  | cons t ts ih =>
    obtain ⟨text, ht⟩ := t.exists_spelled
    obtain ⟨rest, hrest⟩ := ih (some t)
    exact ⟨_, .token (.cons .space .nil) (fun _ _ => by simp) ht hrest⟩

/-! ## Characters and bytes -/

/-- A letter or an underscore, then letters, digits and underscores. -/
def isIdentifier (s : String) : Bool :=
  match s.toList with
  | [] => false
  | c :: cs => (c.isAlpha || c == '_') && cs.all fun d => d.isAlphanum || d == '_'

/-- A fact about all bytes, checked one by one. -/
theorem byte_forall {P : UInt8 → Prop} (h : ∀ n < 256, P (UInt8.ofNat n)) (b : UInt8) : P b := by
  have := h b.toNat b.toNat_lt
  rwa [UInt8.ofNat_toNat] at this

/-- A fact about all characters below 128, checked one by one. -/
theorem ascii_forall {P : Char → Prop} (h : ∀ n < 128, P (Char.ofNat n)) {c : Char}
    (hc : c.toNat < 128) : P c := by
  have := h c.toNat hc
  rwa [Char.ofNat_toNat] at this

theorem toNat_lt_of_isAlphanum {c : Char} (h : (c.isAlphanum || c == '_') = true) :
    c.toNat < 128 := by
  rcases Bool.or_eq_true_iff.mp h with h | h
  · delta Char.isAlphanum Char.isAlpha Char.isUpper Char.isLower Char.isDigit at h
    simp only [Bool.or_eq_true, Bool.and_eq_true, decide_eq_true_eq, UInt32.le_iff_toNat_le,
      ge_iff_le] at h
    have hc : c.toNat = c.val.toNat := rfl
    have hZ : 'Z'.val.toNat = 90 := rfl
    have hz : 'z'.val.toNat = 122 := rfl
    have h9 : '9'.val.toNat = 57 := rfl
    omega
  · rw [eq_of_beq h]
    decide

theorem isAlphanum_of_isDigit {c : Char} (h : c.isDigit = true) :
    (c.isAlphanum || c == '_') = true := by
  simp [Char.isAlphanum, h]

/-- The bytes of a word or a number are of the classes that the lexer knows. -/
theorem class_toUInt8 {c : Char} (h : c.toNat < 128) :
    isWordStart c.toUInt8 = (c.isAlpha || c == '_') ∧
      isWordByte c.toUInt8 = (c.isAlphanum || c == '_') ∧
      isDigit c.toUInt8 = c.isDigit ∧ c.toUInt8.toNat = c.toNat :=
  ascii_forall (P := fun c => isWordStart c.toUInt8 = (c.isAlpha || c == '_') ∧
    isWordByte c.toUInt8 = (c.isAlphanum || c == '_') ∧ isDigit c.toUInt8 = c.isDigit ∧
      c.toUInt8.toNat = c.toNat) (by decide +kernel) h

theorem utf8_ascii {cs : List Char} (h : ∀ c ∈ cs, c.toNat < 128) :
    utf8 (String.ofList cs) = cs.map Char.toUInt8 := by
  unfold utf8
  rw [String.toList_ofList]
  induction cs with
  | nil => rfl
  | cons c cs ih =>
    have hc : String.utf8EncodeChar c = [c.toUInt8] := by
      refine String.utf8EncodeChar_eq_singleton (Char.utf8Size_eq_one_iff.mpr ?_)
      exact UInt32.le_iff_toNat_le.mpr (Nat.le_of_lt_succ (h c (.head _)))
    rw [List.flatMap_cons, hc, ih fun d hd => h d (.tail _ hd)]
    rfl

theorem byteText_ascii {cs : List Char} (h : ∀ c ∈ cs, c.toNat < 128) :
    byteText (cs.map Char.toUInt8) = String.ofList cs := by
  unfold byteText
  rw [List.map_map]
  congr 1
  refine (List.map_congr_left fun c hc => ?_).trans (List.map_id cs)
  rw [Function.comp_apply, (class_toUInt8 (h c hc)).2.2.2, Char.ofNat_toNat, id]

/-- The value of decimal digits. -/
theorem decimal_ascii {cs : List Char} (h : ∀ c ∈ cs, c.toNat < 128) :
    decimal (cs.map Char.toUInt8) = Nat.ofDigitChars 10 cs 0 := by
  unfold decimal
  rw [List.foldl_map, Nat.ofDigitChars_eq_foldl]
  refine List.foldl_ext _ _ _ fun n c hc => ?_
  rw [(class_toUInt8 (h c hc)).2.2.2]
  rfl

/-- The bytes of an identifier are a word, and stand for the identifier. -/
theorem utf8_identifier {s : String} (h : isIdentifier s = true) : ∃ b bs, utf8 s = b :: bs ∧
    isWordStart b = true ∧ (∀ x ∈ utf8 s, isWordByte x = true) ∧ byteText (utf8 s) = s := by
  unfold isIdentifier at h
  split at h
  · cases h
  · rename_i c cs hs
    obtain ⟨hc, hcs⟩ := Bool.and_eq_true_iff.mp h
    have hword : ∀ d ∈ c :: cs, (d.isAlphanum || d == '_') = true := by
      intro d hd
      rcases List.mem_cons.mp hd with rfl | hd
      · rcases Bool.or_eq_true_iff.mp hc with hc | hc <;> simp [Char.isAlphanum, hc]
      · exact List.all_eq_true.mp hcs d hd
    have hlt : ∀ d ∈ c :: cs, d.toNat < 128 := fun d hd => toNat_lt_of_isAlphanum (hword d hd)
    have hutf : utf8 s = (c :: cs).map Char.toUInt8 := by
      rw [← utf8_ascii hlt, ← hs, String.ofList_toList]
    refine ⟨c.toUInt8, cs.map Char.toUInt8, hutf, ?_, ?_, ?_⟩
    · rw [(class_toUInt8 (hlt c (.head _))).1, hc]
    · rw [hutf]
      intro x hx
      obtain ⟨d, hd, rfl⟩ := List.mem_map.mp hx
      rw [(class_toUInt8 (hlt d hd)).2.1, hword d hd]
    · rw [hutf, byteText_ascii hlt, ← hs, String.ofList_toList]

/-- The digits of a number, with any zeros before them, are its decimal form. -/
theorem digits_number (zeros n : Nat) :
    ∃ b bs, List.replicate zeros 0x30 ++ utf8 (toString n) = b :: bs ∧
    (∀ x ∈ List.replicate zeros 0x30 ++ utf8 (toString n), isDigit x = true) ∧
    decimal (List.replicate zeros 0x30 ++ utf8 (toString n)) = n := by
  let cs : List Char := List.replicate zeros '0' ++ Nat.toDigits 10 n
  have hdigit : ∀ c ∈ cs, c.isDigit = true := by
    intro c hc
    rcases List.mem_append.mp hc with hc | hc
    · rw [List.eq_of_mem_replicate hc]
      rfl
    · exact Nat.isDigit_of_mem_toDigits (by decide) (by decide) hc
  have hlt : ∀ c ∈ cs, c.toNat < 128 := fun c hc =>
    toNat_lt_of_isAlphanum (isAlphanum_of_isDigit (hdigit c hc))
  have htext : List.replicate zeros 0x30 ++ utf8 (toString n) = cs.map Char.toUInt8 := by
    rw [Nat.toString_eq_ofList_toDigits, utf8_ascii fun c hc => hlt c (List.mem_append_right _ hc),
      List.map_append, List.map_replicate]
    rfl
  rw [htext]
  have hne : cs.map Char.toUInt8 ≠ [] := by simp [cs, Nat.toDigits_ne_nil]
  obtain ⟨b, bs, hb⟩ := List.exists_cons_of_ne_nil hne
  refine ⟨b, bs, hb, fun x hx => ?_, ?_⟩
  · obtain ⟨c, hc, rfl⟩ := List.mem_map.mp hx
    rw [(class_toUInt8 (hlt c hc)).2.2.1, hdigit c hc]
  · rw [decimal_ascii hlt, Nat.ofDigitChars_append, Nat.ofDigitChars_replicate_zero, Nat.mul_zero,
      Nat.ofDigitChars_ten_toDigits]

/-! ## The lexer on blanks and comments -/

/-- A run ends where an element is of another class. -/
theorem takeWhile_run {α : Type} {p : α → Bool} {text rest : List α} (h : ∀ a ∈ text, p a = true)
    (hrest : ∀ a ∈ rest.head?, p a = false) : (text ++ rest).takeWhile p = text := by
  rw [List.takeWhile_append_of_pos h]
  cases rest with
  | nil => simp
  | cons a rest => rw [List.takeWhile_cons_of_neg (by simp [hrest a rfl]), List.append_nil]

namespace Cursor

theorem skip_run {p : UInt8 → Bool} (pos : Nat) {text rest : List UInt8}
    (h : ∀ b ∈ text, p b = true) (hrest : ∀ b ∈ rest.head?, p b = false) :
    (Cursor.mk pos (text ++ rest)).skip p = { pos := pos + text.length, rest } := by
  unfold skip
  rw [takeWhile_run h hrest, List.dropWhile_append_of_pos h]
  cases rest with
  | nil => simp
  | cons b rest => rw [List.dropWhile_cons_of_neg (by simp [hrest b rfl])]

/-- A byte that is no blank starts an item. -/
theorem scan_item {pos : Nat} {b : UInt8} {rest : List UInt8} (h : isBlank b = false) :
    scan { pos, rest := b :: rest } = item { pos, rest := b :: rest } b rest := by
  have hskip : skipBlanks { pos, rest := b :: rest } = { pos, rest := b :: rest } := by
    simp [skipBlanks, skip, h]
  unfold scan
  rw [hskip]

theorem scan_blank {pos : Nat} {b : UInt8} {rest : List UInt8} (h : isBlank b = true) :
    scan { pos, rest := b :: rest } = scan { pos := pos + 1, rest } := by
  have hskip : skipBlanks { pos, rest := b :: rest } = skipBlanks { pos := pos + 1, rest } := by
    simp [skipBlanks, skip, h, Nat.add_comm, Nat.add_left_comm]
  unfold scan
  rw [hskip]

/-- A comment goes on to the newline, or to the end of the text. -/
theorem scan_comment (pos : Nat) {bytes : List UInt8} (h : 0x0A ∉ bytes) (rest : List UInt8)
    (hrest : ∀ b ∈ rest.head?, b = 0x0A) :
    scan { pos, rest := 0x2F :: 0x2F :: (bytes ++ rest) } =
      .comment { pos := pos + (bytes.length + 2), rest } := by
  have hline : ∀ b ∈ 0x2F :: 0x2F :: bytes, (b != newline) = true := by
    intro b hb
    simp only [List.mem_cons] at hb
    rcases hb with rfl | rfl | hb
    · decide
    · decide
    · exact bne_iff_ne.mpr fun (hn : b = 0x0A) => h (hn ▸ hb)
  have hskip := skip_run pos hline fun b (hb : b ∈ rest.head?) => by rw [hrest b hb]; decide
  rw [scan_item (by decide)]
  have hp : Punct.ofByte? 0x2F = none := by decide
  simp only [item, hp]
  rw [if_pos (by rfl)]
  exact congrArg Scan.comment hskip

theorem next_of_comment {c c' : Cursor} (h : c.scan = .comment c') : c.next = c'.next := by
  rw [next]
  split <;> simp_all

theorem next_of_token {c c' : Cursor} {t : Token} (h : c.scan = .token t c') :
    c.next = .token t c' := by
  rw [next]
  split <;> simp_all

theorem next_of_eof {c : Cursor} (h : c.scan = .eof) : c.next = .eof := by
  rw [next]
  split <;> simp_all

/-- What is scanned next decides what comes next. -/
theorem next_congr {c c' : Cursor} (h : c.scan = c'.scan) : c.next = c'.next := by
  rw [next, next]
  split <;> split <;> simp_all

theorem next_separator {sep : List UInt8} (h : Separator sep) (pos : Nat) (rest : List UInt8) :
    next { pos, rest := sep ++ rest } = next { pos := pos + sep.length, rest } := by
  cases h with
  | space => exact next_congr (scan_blank rfl)
  | tab => exact next_congr (scan_blank rfl)
  | newline => exact next_congr (scan_blank rfl)
  | carriageReturn => exact next_congr (scan_blank rfl)
  | @comment bytes h =>
    have hscan := scan_comment pos h (0x0A :: rest) (by simp)
    have htext : 0x2F :: 0x2F :: (bytes ++ [0x0A]) ++ rest = 0x2F :: 0x2F ::
        (bytes ++ 0x0A :: rest) := by simp
    rw [htext, next_of_comment hscan, next_congr (scan_blank rfl)]
    simp [Nat.add_assoc]

/-- Nothing in a gap is a token. -/
theorem next_gap {gap : List UInt8} (h : Gap gap) (pos : Nat) (rest : List UInt8) :
    next { pos, rest := gap ++ rest } = next { pos := pos + gap.length, rest } := by
  induction h generalizing pos with
  | nil => rfl
  | cons hs _ ih => rw [List.append_assoc, next_separator hs, ih, List.length_append, Nat.add_assoc]

theorem next_trail {trail : List UInt8} (h : Trail trail) (pos : Nat) :
    next { pos, rest := trail } = .eof := by
  have hnil : ∀ pos, next { pos, rest := [] } = .eof := fun pos => next_of_eof rfl
  cases h with
  | gap h => rw [← List.append_nil trail, next_gap h, hnil]
  | comment h hb =>
    have hscan := fun pos => scan_comment pos hb [] (by simp)
    simp only [List.append_nil] at hscan
    rw [next_gap h, next_of_comment (hscan _), hnil]

/-! ## The lexer on tokens -/

/-- A byte that starts a word or a number starts nothing else. -/
theorem wordByte_class (b : UInt8) : isWordByte b = true →
    isBlank b = false ∧ Punct.ofByte? b = none ∧ b ≠ slash ∧ isWordStart b = !isDigit b :=
  byte_forall (P := fun b => isWordByte b = true →
    isBlank b = false ∧ Punct.ofByte? b = none ∧ b ≠ slash ∧
    isWordStart b = !isDigit b) (by decide +kernel) b

theorem punct_class (p : Punct) :
    isBlank p.byte = false ∧ isWordByte p.byte = false ∧ Punct.ofByte? p.byte = some p := by
  cases p <;> decide

theorem scan_punct (p : Punct) (pos : Nat) (rest : List UInt8) :
    scan { pos, rest := p.byte :: rest } = .token (.punct p) { pos := pos + 1, rest } := by
  obtain ⟨hblank, -, hp⟩ := punct_class p
  rw [scan_item hblank]
  simp only [item, hp]

theorem atComment_cons {b : UInt8} (hb : b ≠ slash) (pos : Nat) (rest : List UInt8) :
    atComment { pos, rest := b :: rest } = false := by
  simp [atComment, hb]

/-- An identifier is read as one word, if no byte of a word follows. -/
theorem scan_word {s : String} (h : isIdentifier s = true) (pos : Nat) {rest : List UInt8}
    (hrest : ∀ b ∈ rest.head?, isWordByte b = false) :
    scan { pos, rest := utf8 s ++ rest } =
      .token (.ofWord s) { pos := pos + (utf8 s).length, rest } := by
  obtain ⟨b, bs, hs, hstart, hword, htext⟩ := utf8_identifier h
  obtain ⟨hblank, hp, hslash, hdigit⟩ := wordByte_class b (by simp [isWordByte, hstart])
  have hskip := skip_run pos hword hrest
  have htake := takeWhile_run hword hrest
  have hnot : isDigit b = false := by simpa [hstart] using hdigit.symm
  rw [hs, List.cons_append] at *
  rw [scan_item hblank]
  simp only [item, hp, atComment_cons hslash, hnot, hstart, htake, hskip, htext, if_true,
    Bool.false_eq_true, if_false]

/-- A number is read as one number, if no byte of a word follows. -/
theorem scan_number {n : Nat} (hn : n ≤ maxNumber) (zeros pos : Nat) {rest : List UInt8}
    (hrest : ∀ b ∈ rest.head?, isWordByte b = false) :
    scan { pos, rest := List.replicate zeros 0x30 ++ utf8 (toString n) ++ rest } = .token
      (.number n) { pos := pos + (List.replicate zeros 0x30 ++
        utf8 (toString n)).length, rest } := by
  obtain ⟨b, bs, hs, hdigits, hvalue⟩ := digits_number zeros n
  have hdigit : isDigit b = true := hdigits b (by rw [hs]; exact .head _)
  obtain ⟨hblank, hp, hslash, -⟩ := wordByte_class b (by simp [isWordByte, hdigit])
  have hend : ∀ b ∈ rest.head?, isDigit b = false :=
    fun x hx => (Bool.or_eq_false_iff.mp (hrest x hx)).2
  have hskip := skip_run pos hdigits hend
  have htake := takeWhile_run hdigits hend
  rw [hs] at hskip htake hvalue ⊢
  rw [List.cons_append] at *
  rw [scan_item hblank]
  simp only [item, hp, atComment_cons hslash, hdigit, htake, hskip, hvalue, hn, if_true,
    Bool.false_eq_true, if_false]

end Cursor

/-- A name is an identifier and no keyword, and a number is not too large. -/
def Token.Legible : Token → Prop
  | .name s => isIdentifier s = true ∧ Keyword.ofText? s = none
  | .number n => n ≤ maxNumber
  | .punct _ => True
  | .keyword _ => True

/-- A token is read as it was written, if it is not followed by what would make it longer. -/
theorem next_spelled {t : Token} {text rest : List UInt8} (ht : t.Spelled text) (hl : t.Legible)
    (pos : Nat) (hrest : t.isRun = true → ∀ b ∈ rest.head?, isWordByte b = false) :
    Cursor.next { pos, rest := text ++ rest } = .token t { pos := pos + text.length, rest } := by
  refine Cursor.next_of_token ?_
  cases ht with
  | punct p => exact Cursor.scan_punct p pos rest
  | keyword k =>
    rw [Cursor.scan_word (by cases k <;> decide) pos (hrest rfl), Token.ofWord,
      Keyword.ofText?_text]
  | name s => rw [Cursor.scan_word hl.1 pos (hrest rfl), Token.ofWord, hl.2]
  | number zeros n => exact Cursor.scan_number hl zeros pos (hrest rfl)

/-! ## The lexer on a text -/

theorem Separator.head {sep : List UInt8} (h : Separator sep) :
    ∃ b bytes, sep = b :: bytes ∧ isWordByte b = false := by
  cases h <;> exact ⟨_, _, rfl, by decide⟩

theorem Gap.head {gap : List UInt8} (h : Gap gap) : ∀ b ∈ gap.head?, isWordByte b = false := by
  intro b hb
  cases h with
  | nil => cases hb
  | cons hs _ =>
    obtain ⟨x, bytes, rfl, hx⟩ := hs.head
    cases hb
    exact hx

theorem Trail.head {trail : List UInt8} (h : Trail trail) :
    ∀ b ∈ trail.head?, isWordByte b = false := by
  cases h with
  | gap h => exact h.head
  | @comment gap bytes h hb =>
    intro b hb
    cases gap with
    | nil => cases hb; decide
    | cons x gap => exact h.head b hb

/-- What follows a word or a number does not make it longer. -/
theorem Laid.head {t : Token} {ts : List Token} {bytes : List UInt8} (h : Laid (some t) ts bytes)
    (ht : t.isRun = true) : ∀ b ∈ bytes.head?, isWordByte b = false := by
  cases h with
  | done h => exact h.head
  | @token _ u ts gap text rest hgap hsep hu hrest =>
    intro b hb
    cases gap with
    | nil =>
      -- nothing stands between the two, so the second is a mark
      cases hu with
      | punct p => cases hb; exact (Cursor.punct_class p).2.1
      | keyword k => exact absurd rfl (hsep ht rfl)
      | name s => exact absurd rfl (hsep ht rfl)
      | number zeros n => exact absurd rfl (hsep ht rfl)
    | cons x gap => exact hgap.head b hb

/-- The lexer finds the tokens that a text writes. -/
theorem Laid.lexes {prev : Option Token} {ts : List Token} {bytes : List UInt8}
    (h : Laid prev ts bytes) (hl : ∀ t ∈ ts, t.Legible) (pos : Nat) :
    Lexes { pos, rest := bytes } ts := by
  induction h generalizing pos with
  | done h => exact .done (Cursor.next_trail h pos)
  | @token prev t ts gap text rest hgap hsep ht hrest ih =>
    refine .more ?_ (ih (fun u hu => hl u (.tail _ hu)) (pos + gap.length + text.length))
    rw [List.append_assoc, Cursor.next_gap hgap]
    exact next_spelled ht (hl t (.head _)) _ hrest.head

end ProcCompiler
