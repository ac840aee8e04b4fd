import ProcCompiler.Proofs.Syntax.RoundTrip
/-!
# A text is its tokens and what lies between them

The lexemes of a text that can be read to its end cover it. Each stands where it says and is spelled
there, before each lies a gap of blanks and comments, and a word or a number ends only where the
next byte cannot belong to it.

* `next_eq_scan`, `next_eq_item`: the next token is the item found after blanks and comments.
* `skipTrivia_trail`: what is skipped to get there.
* `Token.Taken`, `taken_of_next`: the bytes of one token, and those before it.
* `Tiled`, `tiled_lexemes`: the whole text.
* `Tiled.exact`, `Tiled.ordered`: the place of each lexeme, and of two.
-/
namespace ProcCompiler

/-! ## Bytes of words and numbers -/

theorem char_of_isWordByte (b : UInt8) : isWordByte b = true →
    (Char.ofNat b.toNat).toNat < 128 ∧ (Char.ofNat b.toNat).toUInt8 = b :=
  byte_forall (P := fun b => isWordByte b = true →
    (Char.ofNat b.toNat).toNat < 128 ∧ (Char.ofNat b.toNat).toUInt8 = b) (by decide +kernel) b

theorem digitChar_of_isDigit (b : UInt8) : isDigit b = true →
    b.toNat - 0x30 < 10 ∧ (Nat.digitChar (b.toNat - 0x30)).toUInt8 = b :=
  byte_forall (P := fun b => isDigit b = true →
    b.toNat - 0x30 < 10 ∧ (Nat.digitChar (b.toNat - 0x30)).toUInt8 = b) (by decide +kernel) b

theorem utf8_byteText {bytes : List UInt8} (h : ∀ b ∈ bytes, isWordByte b = true) :
    utf8 (byteText bytes) = bytes := by
  have hlt : ∀ c ∈ bytes.map fun b => Char.ofNat b.toNat, c.toNat < 128 := by
    intro c hc
    obtain ⟨b, hb, rfl⟩ := List.mem_map.mp hc
    exact (char_of_isWordByte b (h b hb)).1
  rw [byteText, utf8_ascii hlt, List.map_map]
  exact (List.map_congr_left fun b hb => (char_of_isWordByte b (h b hb)).2).trans
    (List.map_id bytes)

theorem utf8_toString (n : Nat) : utf8 (toString n) = (Nat.toDigits 10 n).map Char.toUInt8 := by
  rw [Nat.toString_eq_ofList_toDigits]
  refine utf8_ascii fun c hc => toNat_lt_of_isAlphanum (isAlphanum_of_isDigit ?_)
  exact Nat.isDigit_of_mem_toDigits (by decide) (by decide) hc

/-- Digits are some zeros, then the number they stand for. -/
theorem spelled_decimal {digits : List UInt8} (hne : digits ≠ [])
    (h : ∀ b ∈ digits, isDigit b = true) :
    (Token.number (decimal digits)).Spelled digits := by
  suffices hz : ∃ zeros, digits = List.replicate zeros 0x30 ++ utf8 (toString (decimal digits)) by
    obtain ⟨zeros, hz⟩ := hz
    have := Token.Spelled.number zeros (decimal digits)
    rwa [← hz] at this
  simp only [utf8_toString]
  induction digits using List.reverseRecOn with
  | nil => exact absurd rfl hne
  | append_singleton init b ih =>
    obtain ⟨hlt, hb⟩ := digitChar_of_isDigit b (h b (by simp))
    have hvalue : decimal (init ++ [b]) = 10 * decimal init + (b.toNat - 0x30) := by
      simp only [decimal, List.foldl_append, List.foldl_cons, List.foldl_nil]
    have hlast : (Nat.toDigits 10 (b.toNat - 0x30)).map Char.toUInt8 = [b] := by
      rw [Nat.toDigits_of_lt_base hlt, List.map_singleton, hb]
    rw [hvalue]
    by_cases hinit : init = []
    · subst hinit
      exact ⟨0, by rw [show decimal [] = 0 from rfl, Nat.mul_zero, Nat.zero_add, hlast]; rfl⟩
    · obtain ⟨zeros, hz⟩ := ih hinit fun x hx => h x (List.mem_append_left _ hx)
      by_cases hzero : decimal init = 0
      · -- all digits so far are zeros
        refine ⟨zeros + 1, ?_⟩
        rw [hzero] at hz ⊢
        rw [Nat.mul_zero, Nat.zero_add, hlast, List.replicate_succ', hz]
        rfl
      · refine ⟨zeros, ?_⟩
        rw [← Nat.toDigits_append_toDigits (by decide) (Nat.pos_of_ne_zero hzero) hlt,
          List.map_append, hlast, ← List.append_assoc, ← hz]

/-! ## Between tokens -/

theorem gap_of_blanks {bytes : List UInt8} (h : ∀ b ∈ bytes, isBlank b = true) : Gap bytes := by
  induction bytes with
  | nil => exact .nil
  | cons b bytes ih =>
    have hsep : Separator [b] := by
      have hb := h b (.head _)
      simp only [isBlank, Bool.or_eq_true, beq_iff_eq] at hb
      rcases hb with ((rfl | rfl) | rfl) | rfl
      · exact .space
      · exact .tab
      · exact .newline
      · exact .carriageReturn
    exact .cons hsep (ih fun x hx => h x (.tail _ hx))

theorem Gap.append {gap gap' : List UInt8} (h : Gap gap) (h' : Gap gap') : Gap (gap ++ gap') := by
  induction h with
  | nil => exact h'
  | cons hs _ ih => rw [List.append_assoc]; exact .cons hs ih

theorem Gap.trail {gap trail : List UInt8} (h : Gap gap) (h' : Trail trail) :
    Trail (gap ++ trail) := by
  cases h' with
  | gap h' => exact .gap (h.append h')
  | comment h' hb => rw [← List.append_assoc]; exact .comment (h.append h') hb

/-- A gap that goes on after a newline. -/
theorem Gap.tail {gap : List UInt8} (h : Gap (newline :: gap)) : Gap gap := by
  generalize hg : newline :: gap = whole at h
  cases h with
  | nil => cases hg
  | cons hs hrest =>
    cases hs with
    | newline => cases hg; exact hrest
    | space => cases hg
    | tab => cases hg
    | carriageReturn => cases hg
    | comment _ => cases hg

theorem Trail.tail {trail : List UInt8} (h : Trail (newline :: trail)) : Trail trail := by
  generalize ht : newline :: trail = whole at h
  cases h with
  | gap h => exact .gap (ht ▸ h).tail
  | @comment gap bytes h hb =>
    cases gap with
    | nil => cases ht
    | cons b gap =>
      cases ht
      exact .comment h.tail hb

/-- A comment whose newline is the first byte of a gap. -/
theorem Gap.comment {bytes gap : List UInt8} (hb : newline ∉ bytes) (h : Gap (newline :: gap)) :
    Gap (slash :: slash :: bytes ++ newline :: gap) := by
  have := Gap.cons (.comment hb) h.tail
  simpa [slash, newline] using this

theorem Trail.commented {bytes trail : List UInt8} (hb : newline ∉ bytes)
    (h : Trail (newline :: trail)) :
    Trail (slash :: slash :: bytes ++ newline :: trail) := by
  have hline : Gap (slash :: slash :: (bytes ++ [newline])) := by
    simpa [slash, newline] using Gap.cons (.comment hb) .nil
  simpa using hline.trail h.tail

namespace Cursor

/-- From one place to another the bytes `text` lie. -/
structure Over (c : Cursor) (text : List UInt8) (c' : Cursor) : Prop where
  rest : c.rest = text ++ c'.rest
  pos : c'.pos = c.pos + text.length

theorem Over.trans {c₁ c₂ c₃ : Cursor} {text text' : List UInt8} (h : c₁.Over text c₂)
    (h' : c₂.Over text' c₃) :
    c₁.Over (text ++ text') c₃ where
  rest := by rw [h.rest, h'.rest, List.append_assoc]
  pos := by rw [h'.pos, h.pos, List.length_append, Nat.add_assoc]

theorem over_skip (c : Cursor) (p : UInt8 → Bool) : c.Over (c.rest.takeWhile p) (c.skip p) :=
  ⟨List.takeWhile_append_dropWhile.symm, rfl⟩

/-- A run goes on as far as it can. -/
theorem skip_head (c : Cursor) (p : UInt8 → Bool) : ∀ b ∈ (c.skip p).rest.head?, p b = false := by
  intro b hb
  have := List.head?_dropWhile_not p c.rest
  rw [show (c.rest.dropWhile p).head? = some b from hb] at this
  exact this

theorem skipBlanks_of_head {c : Cursor} (h : ∀ b ∈ c.rest.head?, isBlank b = false) :
    c.skipBlanks = c :=
  skip_run c.pos (List.forall_mem_nil _) h

theorem scan_skipBlanks (c : Cursor) : c.skipBlanks.scan = c.scan := by
  have hskip : c.skipBlanks.skipBlanks = c.skipBlanks := skipBlanks_of_head (c.skip_head isBlank)
  unfold scan
  rw [hskip]

/-- A comment is found exactly where one starts. -/
theorem scan_of_atComment {c : Cursor} (h : c.skipBlanks.atComment = true) :
    c.scan = .comment c.skipBlanks.skipLine := by
  unfold scan
  split
  · rename_i hr
    rw [atComment, hr] at h
    cases h
  · rename_i b rest hr
    have hb : b = slash := by
      unfold atComment at h
      rw [hr] at h
      cases rest <;> simp_all
    have hp : Punct.ofByte? b = none := by rw [hb]; decide
    unfold item
    rw [hp]
    exact if_pos h

theorem scan_ne_comment {c after : Cursor} (h : c.skipBlanks.atComment = false) :
    c.scan ≠ .comment after := by
  unfold scan
  split
  · simp
  · unfold item
    split
    · simp
    · rw [if_neg (by simp [h])]
      dsimp only
      split
      · split <;> simp
      · split <;> simp

/-- The next token is the item found after blanks and comments. -/
theorem next_eq_scan (c : Cursor) : c.next = c.skipTrivia.scan := by
  fun_induction skipTrivia c with
  | case1 c h ih => rw [next_of_comment (scan_of_atComment h), ih]
  | case2 c h =>
    rw [scan_skipBlanks, next]
    split
    · rename_i after hs
      exact absurd hs (scan_ne_comment (by simpa using h))
    all_goals simp_all

theorem skipTrivia_head (c : Cursor) : ∀ b ∈ c.skipTrivia.rest.head?, isBlank b = false := by
  fun_induction skipTrivia c with
  | case1 c _ ih => exact ih
  | case2 c _ => exact c.skip_head isBlank

theorem item_ne_eof (c : Cursor) (b : UInt8) (rest : List UInt8) : c.item b rest ≠ .eof := by
  unfold item
  dsimp only
  split
  · simp
  · split
    · simp
    · split
      · split <;> simp
      · split <;> simp

/-- After blanks and comments an item starts right away. -/
theorem next_eq_item {c : Cursor} {b : UInt8} {rest : List UInt8}
    (hr : c.skipTrivia.rest = b :: rest) :
    c.next = c.skipTrivia.item b rest := by
  rw [next_eq_scan, scan, skipBlanks_of_head c.skipTrivia_head, hr]

theorem next_eq_eof_iff {c : Cursor} : c.next = .eof ↔ c.skipTrivia.rest = [] := by
  cases hr : c.skipTrivia.rest with
  | nil => rw [next_eq_scan, scan, skipBlanks_of_head c.skipTrivia_head, hr]; simp
  | cons b rest => simp [next_eq_item hr, item_ne_eof]

/-- The bytes of a comment are two slashes and no newline. -/
theorem takeWhile_of_atComment {c : Cursor} (h : c.atComment = true) :
    ∃ bytes, c.rest.takeWhile (· != newline) = slash :: slash :: bytes ∧ newline ∉ bytes := by
  have htake : c.rest.take 2 = [slash, slash] := by simpa [atComment] using h
  have hr : c.rest = slash :: slash :: c.rest.drop 2 := by
    conv_lhs => rw [← List.take_append_drop 2 c.rest, htake]
    rfl
  refine ⟨(c.rest.drop 2).takeWhile (· != newline), ?_, ?_⟩
  · conv_lhs => rw [hr]
    rfl
  · intro hn
    simpa using List.mem_takeWhile_imp hn

/-- What is skipped before a token is a gap. Before the end of the text it may end with a
comment. -/
theorem skipTrivia_trail (c : Cursor) :
    ∃ gap, c.Over gap c.skipTrivia ∧ Trail gap ∧ (c.skipTrivia.rest ≠ [] → Gap gap) := by
  have hblanks : ∀ c : Cursor, Gap (c.rest.takeWhile isBlank) := fun c =>
    gap_of_blanks fun b hb => List.mem_takeWhile_imp hb
  fun_induction skipTrivia c with
  | case1 c h ih =>
    obtain ⟨gap, hover, htrail, hgap⟩ := ih
    obtain ⟨bytes, hline, hn⟩ := takeWhile_of_atComment h
    have hskip : c.skipBlanks.Over (slash :: slash :: bytes) c.skipBlanks.skipLine :=
      hline ▸ c.skipBlanks.over_skip _
    have hhead := c.skipBlanks.skip_head (· != newline)
    refine ⟨_, (c.over_skip isBlank).trans (hskip.trans hover), ?_⟩
    cases gap with
    | nil =>
      -- a newline would have been skipped, so the text ends here
      have hend : c.skipBlanks.skipLine.skipTrivia.rest = [] := by
        have hblank := c.skipBlanks.skipLine.skipTrivia_head
        have hsame := hover.rest
        cases hr : c.skipBlanks.skipLine.skipTrivia.rest with
        | nil => rfl
        | cons b rest =>
          rw [hr] at hsame hblank
          have hb : b = newline := by
            simpa using hhead b (by rw [show (c.skipBlanks.skip _).rest = _ from hsame]; rfl)
          exact absurd (hblank b rfl) (by rw [hb]; decide)
      refine ⟨(hblanks c).trail ?_, fun hne => absurd hend hne⟩
      rw [List.append_nil]
      exact .comment .nil hn
    | cons b gap =>
      obtain rfl : b = newline := by
        simpa using hhead b (by rw [show (c.skipBlanks.skip _).rest = _ from hover.rest]; rfl)
      exact ⟨(hblanks c).trail (htrail.commented hn),
        fun hne => (hblanks c).append (hgap hne |>.comment hn)⟩
  | case2 c h => exact ⟨_, c.over_skip isBlank, .gap (hblanks c), fun _ => hblanks c⟩

end Cursor

/-! ## Tokens -/

/-- The bytes that would make a token longer. -/
def Token.continues : Token → UInt8 → Bool
  | punct _, _ => false
  | keyword _, b => isWordByte b
  | name _, b => isWordByte b
  | number _, b => isDigit b

/-- The token is written as `text`, and what follows does not make it longer. -/
structure Token.Taken (t : Token) (text rest : List UInt8) : Prop where
  spelled : t.Spelled text
  ne_nil : text ≠ []
  ends : ∀ b ∈ rest.head?, t.continues b = false

theorem Token.taken_ofWord {text rest : List UInt8} (hne : text ≠ [])
    (hword : ∀ b ∈ text, isWordByte b = true) (hrest : ∀ b ∈ rest.head?, isWordByte b = false) :
    (ofWord (byteText text)).Taken text rest := by
  have htext := utf8_byteText hword
  unfold ofWord
  cases hk : Keyword.ofText? (byteText text) with
  | none =>
    have hs := Spelled.name (byteText text)
    exact ⟨by rwa [htext] at hs, hne, hrest⟩
  | some k =>
    have hs := Spelled.keyword k
    exact ⟨by rwa [Keyword.text_of_ofText? hk, htext] at hs, hne, hrest⟩

namespace Cursor

theorem takeWhile_ne_nil {p : UInt8 → Bool} {bytes : List UInt8} {b : UInt8} {rest : List UInt8}
    (h : bytes = b :: rest) (hb : p b = true) : bytes.takeWhile p ≠ [] := by
  rw [h, List.takeWhile_cons_of_pos hb]
  simp

/-- The digits that stand here are a number, whether it is too large or not. -/
theorem taken_decimal {c : Cursor} {b : UInt8} {rest : List UInt8} (hr : c.rest = b :: rest)
    (hb : isDigit b = true) :
    (Token.number (decimal (c.rest.takeWhile isDigit))).Taken (c.rest.takeWhile isDigit)
      (c.skip isDigit).rest :=
  have hne := takeWhile_ne_nil hr hb
  ⟨spelled_decimal hne fun _ hx => List.mem_takeWhile_imp hx, hne, c.skip_head isDigit⟩

/-- The bytes of an item that is a token. -/
theorem taken_of_item {c after : Cursor} {b : UInt8} {rest : List UInt8} {t : Token}
    (hr : c.rest = b :: rest) (h : c.item b rest = .token t after) :
    ∃ text, c.Over text after ∧ t.Taken text after.rest := by
  unfold item at h
  split at h
  · rename_i p hp
    cases h
    have hb : p.byte = b := by simpa using List.find?_some hp
    exact ⟨[b], ⟨hr, rfl⟩, hb ▸ .punct p, by simp, fun _ _ => rfl⟩
  · split at h
    · cases h
    · split at h
      · rename_i hdigit
        dsimp only at h
        split at h
        · cases h
          exact ⟨_, c.over_skip isDigit, taken_decimal hr hdigit⟩
        · cases h
      · split at h
        · rename_i hstart
          cases h
          have hword : ∀ x ∈ c.rest.takeWhile isWordByte, isWordByte x = true :=
            fun _ hx => List.mem_takeWhile_imp hx
          have hne := takeWhile_ne_nil (p := isWordByte) hr (by simp [isWordByte, hstart])
          exact ⟨_, c.over_skip isWordByte, Token.taken_ofWord hne hword (c.skip_head isWordByte)⟩
        · cases h

/-- The bytes of the next token, and those before it. -/
theorem taken_of_next {c after : Cursor} {t : Token} (h : c.next = .token t after) :
    ∃ gap text, Gap gap ∧
    c.Over gap c.skipTrivia ∧ c.skipTrivia.Over text after ∧ t.Taken text after.rest := by
  obtain ⟨gap, hover, -, hgap⟩ := c.skipTrivia_trail
  cases hr : c.skipTrivia.rest with
  | nil =>
    rw [next_eq_eof_iff.mpr hr] at h
    cases h
  | cons b rest =>
    rw [next_eq_item hr] at h
    obtain ⟨text, htext, htaken⟩ := taken_of_item hr h
    exact ⟨gap, text, hgap (by simp [hr]), hover, htext, htaken⟩

/-- At the end of a text nothing but blanks and comments is left. -/
theorem trail_of_next {c : Cursor} (h : c.next = .eof) : Trail c.rest := by
  obtain ⟨gap, hover, htrail, -⟩ := c.skipTrivia_trail
  rwa [hover.rest, next_eq_eof_iff.mp h, List.append_nil]

end Cursor

/-! ## Texts -/

/-- The lexemes cover the bytes, the first of which stands at `pos`: each is written in its place
after a gap, and after the last nothing but blanks and comments is left. -/
inductive Tiled : Nat → List Lexeme → List UInt8 → Prop where
  | done {pos : Nat} {bytes : List UInt8} (h : Trail bytes) : Tiled pos [] bytes
  | lexeme {pos : Nat} {t : Token} {ls : List Lexeme} {gap text rest : List UInt8} (hgap : Gap gap)
      (ht : t.Taken text rest) (hrest : Tiled (pos + gap.length + text.length) ls rest) :
      Tiled pos (⟨t, pos + gap.length, pos + gap.length + text.length⟩ :: ls)
        (gap ++ (text ++ rest))

/-- A text that is read to its end is covered by its lexemes. -/
theorem tiled_lexemes {c : Cursor} {pos : Nat} (h : c.lexemes.2 = .eof pos) :
    Tiled c.pos c.lexemes.1 c.rest := by
  fun_induction Cursor.lexemes c with
  | case1 c t after hn more ih =>
    obtain ⟨gap, text, hgap, hover, htext, htaken⟩ := Cursor.taken_of_next hn
    have hrest := ih h
    rw [htext.pos, hover.pos] at hrest ⊢
    rw [hover.rest, htext.rest]
    exact .lexeme hgap htaken hrest
  | case2 => cases h
  | case3 c hn => exact .done (Cursor.trail_of_next hn)
  | case4 c after hn => exact absurd hn Cursor.next_ne_comment

namespace Tiled

variable {pos : Nat} {ls : List Lexeme} {bytes : List UInt8}

/-- Each lexeme is written where it says. -/
theorem exact (h : Tiled pos ls bytes) {l : Lexeme} (hl : l ∈ ls) :
    pos ≤ l.start ∧ l.start < l.stop ∧
    l.stop ≤ pos + bytes.length ∧
      l.token.Spelled (bytes.extract (l.start - pos) (l.stop - pos)) := by
  induction h with
  | done _ => cases hl
  | @lexeme pos t ls gap text rest hgap ht hrest ih =>
    have hlen := List.length_pos_iff.mpr ht.ne_nil
    rcases List.mem_cons.mp hl with rfl | hl
    · refine ⟨by simp, by simpa using hlen, by simp [Nat.add_assoc], ?_⟩
      have hstart : pos + gap.length - pos = gap.length := by omega
      have hstop : pos + gap.length + text.length - pos = gap.length + text.length := by omega
      rw [hstart, hstop, List.extract_eq_take_drop, List.drop_left, Nat.add_sub_cancel_left,
        List.take_left]
      exact ht.spelled
    · obtain ⟨h₁, h₂, h₃, h₄⟩ := ih hl
      refine ⟨by omega, h₂, by simp only [List.length_append]; omega, ?_⟩
      have hdrop : (gap ++ (text ++ rest)).drop (l.start - pos) =
          rest.drop (l.start - (pos + gap.length + text.length)) := by
        have hlong : (gap ++ text).length ≤ l.start - pos := by rw [List.length_append]; omega
        rw [← List.append_assoc, List.drop_append, List.drop_eq_nil_of_le hlong, List.nil_append]
        congr 1
        rw [List.length_append]
        omega
      rw [List.extract_eq_take_drop] at h₄ ⊢
      rwa [hdrop, show l.stop - pos - (l.start - pos) = l.stop - (pos + gap.length + text.length) -
        (l.start - (pos + gap.length + text.length)) by omega]

/-- Lexemes do not overlap and stand in order. -/
theorem ordered (h : Tiled pos ls bytes) : ls.Pairwise fun l l' => l.stop ≤ l'.start := by
  induction h with
  | done _ => exact .nil
  | lexeme _ _ hrest ih => exact .cons (fun l hl => (hrest.exact hl).1) ih

end Tiled

end ProcCompiler
