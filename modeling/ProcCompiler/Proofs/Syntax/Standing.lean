import ProcCompiler.Proofs.Syntax.Offsets
import ProcCompiler.Syntax.Parser
/-!
# Where the parser stands

The parser takes lexemes off a list that was made beforehand. It might as well hold the text and the
offset where the last token ended, and read on from there: the lexeme that it takes next starts
where the skipping of blanks and comments from that offset ends, and is the token that is read
there. So it is at the start of a text, and every production keeps it.

* `Input.At`: the parser stands at the offset where the last token ended.
* `Input.At.next_cases`: what it takes next is what is read there.
* `Input.At.start`: where the next token starts.
* `Input.At.statements`, `Input.At.procedure`: the productions keep it.
* `skipTrivia_lexemes`: along the list, each lexeme starts where skipping from the one before ends.
-/
namespace ProcCompiler

/-! ## Lexemes one by one -/

namespace Cursor

variable {c after : Cursor}

theorem lexemes_of_token {t : Token} (h : c.next = .token t after) : c.lexemes =
    (⟨t, c.skipTrivia.pos, after.pos⟩ :: after.lexemes.1, after.lexemes.2) := by
  rw [lexemes]
  split
  all_goals simp_all

theorem lexemes_of_eof (h : c.next = .eof) : c.lexemes = ([], .eof c.skipTrivia.pos) := by
  rw [lexemes]
  split
  all_goals simp_all

theorem lexemes_of_failed {e : LexError} (h : c.next = .failed e) :
    c.lexemes = ([], .failed e) := by
  rw [lexemes]
  split
  all_goals simp_all

end Cursor

namespace Input

/-- The parser stands at an offset of the text: what is left are the lexemes from there on. -/
structure At (i : Input) (bytes : List UInt8) : Prop where
  le : i.stop ≤ bytes.length
  lexemes : (i.rest, i.ending) = (Cursor.ofOffset bytes i.stop).lexemes

theorem at_zero (bytes : List UInt8) :
    At { stop := 0, rest := (lexemes bytes).1, ending := (lexemes bytes).2 } bytes :=
  ⟨Nat.zero_le _, rfl⟩

namespace At

variable {i i' : Input} {bytes : List UInt8}

/-! ## The next token -/

theorem inside (h : i.At bytes) : (Cursor.ofOffset bytes i.stop).Inside bytes :=
  Cursor.inside_ofOffset h.le

theorem next_of_token (h : i.At bytes) {t : Token} {after : Cursor}
    (hc : (Cursor.ofOffset bytes i.stop).next = .token t after) :
    i.next = .ok (some ⟨t, (Cursor.ofOffset bytes i.stop).skipTrivia.pos, after.pos⟩,
      { stop := after.pos, rest := after.lexemes.1, ending := after.lexemes.2 }) := by
  obtain ⟨hrest, hending⟩ := Prod.mk.inj (h.lexemes.trans (Cursor.lexemes_of_token hc))
  simp only [Input.next, hrest, hending]

theorem next_of_eof (h : i.At bytes) (hc : (Cursor.ofOffset bytes i.stop).next = .eof) :
    i.next = .ok (none, i) := by
  obtain ⟨hrest, hending⟩ := Prod.mk.inj (h.lexemes.trans (Cursor.lexemes_of_eof hc))
  simp only [Input.next, hrest, hending]

theorem next_of_failed (h : i.At bytes) {e : LexError}
    (hc : (Cursor.ofOffset bytes i.stop).next = .failed e) : i.next = .error (.lex e) := by
  obtain ⟨hrest, hending⟩ := Prod.mk.inj (h.lexemes.trans (Cursor.lexemes_of_failed hc))
  simp only [Input.next, hrest, hending]

/-- What is read from the stop of the last token is the next lexeme, the end or an error. -/
theorem next_cases (h : i.At bytes) :
    (∃ l i', i.next = .ok (some l, i') ∧ ByOffset.skipTrivia bytes i.stop = some l.start ∧
      ByOffset.next bytes i.stop = some (.token l.token l.stop) ∧ i'.stop = l.stop ∧
      i'.At bytes) ∨
    (i.next = .ok (none, i) ∧ ByOffset.skipTrivia bytes i.stop = some bytes.length ∧
      ByOffset.next bytes i.stop = some (.eof bytes.length)) ∨
    ∃ e, i.next = .error (.lex e) ∧ ByOffset.next bytes i.stop = some (.failed e) := by
  have hskip : ByOffset.skipTrivia bytes i.stop = _ := ByOffset.skipTrivia_inside h.inside
  have hnext : ByOffset.next bytes i.stop = _ := ByOffset.next_inside h.inside
  cases hc : (Cursor.ofOffset bytes i.stop).next with
  | token t after =>
    rw [hc] at hnext
    obtain ⟨hafter, -⟩ := h.inside.token hc
    refine .inl ⟨_, _, h.next_of_token hc, hskip, hnext, rfl, hafter.le, ?_⟩
    exact congrArg Cursor.lexemes hafter.eq_ofOffset
  | eof =>
    rw [hc] at hnext
    have hend := h.inside.skipTrivia.1.rest_eq_nil_iff.mp (Cursor.next_eq_eof_iff.mp hc)
    exact .inr (.inl ⟨h.next_of_eof hc, hend ▸ hskip, hnext⟩)
  | failed e =>
    rw [hc] at hnext
    exact .inr (.inr ⟨e, h.next_of_failed hc, hnext⟩)
  | comment after => exact absurd hc Cursor.next_ne_comment

/-- The lexeme that is taken starts where skipping ends, and is the token that is read from the stop
of the one before. -/
theorem next_some (h : i.At bytes) {l : Lexeme} (hn : i.next = .ok (some l, i')) :
    ByOffset.skipTrivia bytes i.stop = some l.start ∧
      ByOffset.next bytes i.stop = some (.token l.token l.stop) ∧ i'.stop = l.stop ∧
      i'.At bytes := by
  rcases h.next_cases with ⟨l', j, hj, hl⟩ | ⟨hj, -⟩ | ⟨e, hj, -⟩
  · cases hj.symm.trans hn
    exact hl
  · cases hj.symm.trans hn
  · cases hj.symm.trans hn

theorem next (h : i.At bytes) {o : Option Lexeme} (hn : i.next = .ok (o, i')) : i'.At bytes := by
  rcases h.next_cases with ⟨l', j, hj, hl⟩ | ⟨hj, -⟩ | ⟨e, hj, -⟩
  · cases hj.symm.trans hn
    exact hl.2.2.2
  · cases hj.symm.trans hn
    exact h
  · cases hj.symm.trans hn

/-- Where a lexeme or the end of the input follows, skipping tells where. -/
theorem start (h : i.At bytes) {o : Option Lexeme} (hn : i.next = .ok (o, i')) :
    ByOffset.skipTrivia bytes i.stop = some i.start := by
  have hskip : ByOffset.skipTrivia bytes i.stop = _ := ByOffset.skipTrivia_inside h.inside
  rw [hskip]
  cases hc : (Cursor.ofOffset bytes i.stop).next with
  | token t after =>
    have hrest := (Prod.mk.inj (h.lexemes.trans (Cursor.lexemes_of_token hc))).1
    simp only [Input.start, hrest]
  | eof =>
    obtain ⟨hrest, hending⟩ := Prod.mk.inj (h.lexemes.trans (Cursor.lexemes_of_eof hc))
    simp only [Input.start, hrest, hending]
  | failed e => cases (h.next_of_failed hc).symm.trans hn
  | comment after => exact absurd hc Cursor.next_ne_comment

/-! ## The productions -/

theorem name (h : i.At bytes) {id : Ident} (hr : i.name = .ok (id, i')) : i'.At bytes := by
  obtain ⟨p, hn, hr⟩ := ok_of_bind hr
  split at hr
  · cases hr; exact h.next hn
  · cases hr

theorem expect (h : i.At bytes) {want : Token} (hr : i.expect want = .ok i') : i'.At bytes := by
  obtain ⟨⟨l, j⟩, hn, hr⟩ := ok_of_bind hr
  dsimp only at hr
  split at hr
  · cases hr; exact h.next hn
  · cases hr

theorem argument (h : i.At bytes) {proc : String} {a : ArgDecl}
    (hr : i.argument proc = .ok (a, i')) : i'.At bytes := by
  obtain ⟨⟨l, i₁⟩, hn, hr⟩ := ok_of_bind hr
  dsimp only at hr
  split at hr
  · obtain ⟨p, hm, hr⟩ := ok_of_bind hr
    obtain ⟨q, hs, hr⟩ := ok_of_bind hr
    split at hr
    · cases hr; exact ((h.next hn).name (inside_ok hm)).next hs
    · cases hr
  · cases hr

theorem afterName (h : i.At bytes) {id : Ident} {s : Stmt} (hr : i.afterName id = .ok (s, i')) :
    i'.At bytes := by
  obtain ⟨p, hn, hr⟩ := ok_of_bind hr
  split at hr
  · cases hr; exact h.next hn
  · obtain ⟨q, hm, hr⟩ := ok_of_bind hr
    cases hr
    exact (h.next hn).name (inside_ok hm)
  · cases hr

theorem goto (h : i.At bytes) {s : Stmt} (hr : i.goto = .ok (s, i')) : i'.At bytes := by
  obtain ⟨p, hn, hr⟩ := ok_of_bind hr
  cases hr
  exact h.name hn

theorem call (h : i.At bytes) {s : Stmt} (hr : i.call = .ok (s, i')) : i'.At bytes := by
  obtain ⟨p, hf, hr⟩ := ok_of_bind hr
  obtain ⟨q, hv, hr⟩ := ok_of_bind hr
  cases hr
  exact (h.name hf).name hv

theorem branch (h : i.At bytes) {s : Stmt} (hr : i.branch = .ok (s, i')) : i'.At bytes := by
  obtain ⟨p₁, h₁, hr⟩ := ok_of_bind hr
  obtain ⟨i₂, h₂, hr⟩ := ok_of_bind hr
  obtain ⟨p₃, h₃, hr⟩ := ok_of_bind hr
  obtain ⟨i₄, h₄, hr⟩ := ok_of_bind hr
  obtain ⟨p₅, h₅, hr⟩ := ok_of_bind hr
  cases hr
  exact ((((h.name h₁).expect h₂).name h₃).expect h₄).name h₅

theorem statement (h : i.At bytes) {s : Option Stmt} (hr : i.statement = .ok (s, i')) :
    i'.At bytes := by
  obtain ⟨p, hn, hr⟩ := ok_of_bind hr
  split at hr
  · cases hr
  · cases hr; exact h.next hn
  · cases hr; exact h.next hn
  · obtain ⟨s', -, hs⟩ := ok_of_map hr
    exact (h.next hn).goto (inside_ok hs)
  · obtain ⟨s', -, hs⟩ := ok_of_map hr
    exact (h.next hn).call (inside_ok hs)
  · obtain ⟨s', -, hs⟩ := ok_of_map hr
    exact (h.next hn).branch (inside_ok hs)
  · obtain ⟨s', -, hs⟩ := ok_of_map hr
    exact (h.next hn).afterName hs
  · cases hr

theorem moreArguments (h : i.At bytes) {proc : String} {as : List ArgDecl}
    (hr : i.moreArguments proc = .ok (as, i')) : i'.At bytes := by
  fun_induction Input.moreArguments proc i generalizing as with
  | case1 => cases hr
  | case2 => cases hr; exact h.next ‹_›
  | case3 => cases hr
  | case4 i _ _ i₁ hn a i₂ ha ih =>
    obtain ⟨as', -, hr⟩ := ok_of_map hr
    exact ih ((h.next hn).argument ha) hr
  | case5 => cases hr

theorem arguments (h : i.At bytes) {proc : String} {as : List ArgDecl}
    (hr : i.arguments proc = .ok (as, i')) : i'.At bytes := by
  unfold Input.arguments at hr
  split at hr
  · cases hr; exact h.next ‹_›
  · obtain ⟨p, ha, hr⟩ := ok_of_bind hr
    obtain ⟨q, hm, hr⟩ := ok_of_bind hr
    cases hr
    exact (h.argument ha).moreArguments hm

theorem statements (h : i.At bytes) {ss : List Stmt} (hr : i.statements = .ok (ss, i')) :
    i'.At bytes := by
  fun_induction Input.statements i generalizing ss with
  | case1 => cases hr
  | case2 => cases hr; exact h.statement ‹_›
  | case3 i s i₁ hs ih =>
    obtain ⟨ss', -, hr⟩ := ok_of_map hr
    exact ih (h.statement hs) hr

theorem procedure (h : i.At bytes) {pos : Nat} {p : ProcDecl} (hr : i.procedure pos = .ok (p, i')) :
    i'.At bytes := by
  obtain ⟨p₁, h₁, hr⟩ := ok_of_bind hr
  obtain ⟨i₂, h₂, hr⟩ := ok_of_bind hr
  obtain ⟨p₃, h₃, hr⟩ := ok_of_bind hr
  obtain ⟨i₄, h₄, hr⟩ := ok_of_bind hr
  obtain ⟨p₅, h₅, hr⟩ := ok_of_bind hr
  cases hr
  exact ((((h.name h₁).expect (inside_ok h₂)).arguments h₃).expect (inside_ok h₄)).statements
    (inside_ok h₅)

end At

end Input

/-! ## The whole list -/

theorem Input.At.skipTrivia_rest {i : Input} {bytes : List UInt8} (hi : i.At bytes)
    {before after : List Lexeme} {l : Lexeme} (h : i.rest = before ++ l :: after) :
    ByOffset.skipTrivia bytes ((before.getLast?.map Lexeme.stop).getD i.stop) = some l.start := by
  induction before generalizing i with
  | nil =>
    have hn : i.next = .ok (some l, { i with stop := l.stop, rest := after }) := by
      simp only [Input.next, h, List.nil_append]
    exact (hi.next_some hn).1
  | cons b before ih =>
    have hn : i.next = .ok (some b, { i with stop := b.stop, rest := before ++ l :: after }) := by
      simp only [Input.next, h, List.cons_append]
    have hlast : ((b :: before).getLast?.map Lexeme.stop).getD i.stop =
        (before.getLast?.map Lexeme.stop).getD b.stop := by
      rw [List.getLast?_cons]
      cases before.getLast? <;> rfl
    rw [hlast]
    exact ih (hi.next hn) rfl

/-- Each lexeme of a text starts where skipping from the stop of the one before ends, the first
where skipping from the start of the text does. -/
theorem skipTrivia_lexemes (bytes : List UInt8) {before after : List Lexeme} {l : Lexeme}
    (h : (lexemes bytes).1 = before ++ l :: after) :
    ByOffset.skipTrivia bytes ((before.getLast?.map Lexeme.stop).getD 0) = some l.start :=
  (Input.at_zero bytes).skipTrivia_rest h

end ProcCompiler
