import ProcCompiler.Proofs.Syntax.Grammar
import ProcCompiler.Syntax.Parser
/-!
# Parsing follows the grammar

Each part of the parser reads the tokens of one part of the grammar, neither more nor less, and
gives what they derive. Parts that end at a bracket read the bracket too, so what a part reads never
depends on what comes after.

* `Reads`: a part of the parser against a part of the grammar.
* `reads_statement`, `reads_argument`: the parts of bounded length.
* `reads_statements`, `reads_arguments`, `reads_procedure`: sequences, one part after another.
* `parse_derives`: which texts are parsed, and what they are parsed to.
-/
namespace ProcCompiler

namespace Input

/-! ## What is read -/

def tokens (i : Input) : List Token := i.rest.map (·.token)

/-- No name to come is a keyword. -/
def Lexed (i : Input) : Prop := ∀ s, .name s ∈ i.tokens → Keyword.ofText? s = none

/-- Between the two inputs the tokens `us` were read. -/
structure Past (i : Input) (us : List Token) (i' : Input) : Prop where
  tokens : i.tokens = us ++ i'.tokens
  ending : i'.ending = i.ending

variable {i i₁ i' : Input} {us vs ts : List Token}

theorem Past.trans (h : Past i us i₁) (h' : Past i₁ vs i') : Past i (us ++ vs) i' :=
  ⟨by rw [h.tokens, h'.tokens, List.append_assoc], h'.ending.trans h.ending⟩

theorem Past.lexed (h : Past i us i') (hi : i.Lexed) : i'.Lexed := fun s hs =>
  hi s (by rw [h.tokens]; exact List.mem_append_right us hs)

theorem Past.rest (h : Past i us i') (hi : i.tokens = us ++ ts) : i'.tokens = ts :=
  List.append_cancel_left (h.tokens.symm.trans hi)

theorem past_next {l : Lexeme} (h : i.next = .ok (some l, i')) : Past i [l.token] i' := by
  unfold next at h
  split at h
  · rename_i hr
    cases h
    exact ⟨by simp [Input.tokens, hr], rfl⟩
  · split at h <;> cases h

theorem next_of_tokens {t : Token} (h : i.tokens = t :: ts) :
    ∃ start stop i', i.next = .ok (some ⟨t, start, stop⟩, i') ∧ Past i [t] i' := by
  obtain ⟨⟨t, start, stop⟩, rest, hr, rfl, -⟩ := List.map_eq_cons_iff.mp h
  have hn : i.next = .ok (some ⟨t, start, stop⟩, { i with stop, rest }) := by unfold next; rw [hr]
  exact ⟨start, stop, _, hn, past_next hn⟩

/-- At the end of the input there is no token, and nothing is wrong. -/
theorem next_none_iff :
    (∃ i', i.next = .ok (none, i')) ↔ i.tokens = [] ∧ ∃ pos, i.ending = .eof pos := by
  unfold next Input.tokens
  cases i.rest with
  | cons l rest => simp
  | nil => cases i.ending <;> simp

/-! ## Parts -/

/-- The part `p` of the parser reads what the part `part` of the grammar derives. Of its result only
`view` counts. -/
structure Reads {α β : Type} (p : Input → Except ParseError (α × Input)) (view : α → β)
    (part : List Token → β → Prop) : Prop where
  sound {i i' : Input} {a : α} (hi : i.Lexed) (h : p i = .ok (a, i')) : ∃ us, Past i us i' ∧
    part us (view a)
  complete {i : Input} {us ts : List Token} {b : β} (hi : i.tokens = us ++ ts) (h : part us b) :
    ∃ a i', p i = .ok (a, i') ∧ view a = b ∧ Past i us i'

theorem Reads.inside {α β : Type} {p : Input → Except ParseError (α × Input)} {view : α → β}
    {part : List Token → β → Prop} (h : Reads p view part) (context : Context) :
    Reads (fun i => inside context (p i)) view part where
  sound hi hp := h.sound hi (inside_ok hp)
  complete hi hb := by
    obtain ⟨a, i', hp, ha, hpast⟩ := h.complete hi hb
    exact ⟨a, i', by rw [hp]; rfl, ha, hpast⟩

theorem reads_name : Reads name Ident.name fun us s => ∃ t, us = [t] ∧ t.IsName s where
  sound hi h := by
    obtain ⟨p, hn, h⟩ := ok_of_bind h
    split at h
    · cases h
      have hpast := past_next hn
      exact ⟨_, hpast, _, rfl, rfl, hi _ (by rw [hpast.tokens]; simp)⟩
    · cases h
  complete hi h := by
    obtain ⟨t, rfl, ht⟩ := h
    obtain ⟨rfl, -⟩ := Token.isName_iff.mp ht
    obtain ⟨start, stop, i', hn, hpast⟩ := next_of_tokens hi
    exact ⟨_, i', by rw [name, hn]; rfl, rfl, hpast⟩

theorem name_of_tokens {t : Token} {s : String} (h : i.tokens = t :: ts) (ht : t.IsName s) :
    ∃ id i', i.name = .ok (id, i') ∧ id.name = s ∧ Past i [t] i' :=
  reads_name.complete h ⟨t, rfl, ht⟩

theorem past_expect {want : Token} (h : i.expect want = .ok i') : Past i [want] i' := by
  obtain ⟨⟨l, j⟩, hn, h⟩ := ok_of_bind h
  cases l with
  | none => cases h
  | some l =>
    dsimp only at h
    split at h
    · rename_i hl
      cases h
      cases hl
      exact past_next hn
    · cases h

theorem expect_of_tokens {want : Token} (h : i.tokens = want :: ts) :
    ∃ i', i.expect want = .ok i' ∧ Past i [want] i' := by
  obtain ⟨start, stop, i', hn, hpast⟩ := next_of_tokens h
  refine ⟨i', ?_, hpast⟩
  rw [expect, hn]
  exact if_pos rfl

theorem reads_goto : Reads goto Stmt.unplaced fun us s => StmtTokens (.keyword .goto :: us) s where
  sound hi h := by
    obtain ⟨p, h₁, h⟩ := ok_of_bind h
    obtain ⟨_, hp, t, rfl, ht⟩ := reads_name.sound hi h₁
    cases h
    exact ⟨_, hp, .goto ht⟩
  complete hi h := by
    cases h with
    | goto ht =>
      obtain ⟨id, i₁, h₁, rfl, hp⟩ := name_of_tokens hi ht
      exact ⟨_, _, by rw [goto, h₁]; rfl, rfl, hp⟩
    | move ht _ => exact absurd ht Token.not_isName_keyword
    | label ht => exact absurd ht Token.not_isName_keyword

theorem reads_call : Reads call Stmt.unplaced fun us s => StmtTokens (.keyword .call :: us) s where
  sound hi h := by
    obtain ⟨p, h₁, h⟩ := ok_of_bind h
    obtain ⟨q, h₂, h⟩ := ok_of_bind h
    obtain ⟨_, hp, t, rfl, ht⟩ := reads_name.sound hi h₁
    obtain ⟨_, hq, u, rfl, hu⟩ := reads_name.sound (hp.lexed hi) h₂
    cases h
    exact ⟨_, hp.trans hq, .call ht hu⟩
  complete hi h := by
    cases h with
    | call ht hu =>
      obtain ⟨fn, i₁, h₁, rfl, hp⟩ := name_of_tokens hi ht
      obtain ⟨var, i₂, h₂, rfl, hq⟩ := name_of_tokens (hp.rest hi) hu
      refine ⟨.call fn var, i₂, ?_, rfl, hp.trans hq⟩
      simp only [call, h₁, h₂, bind, Except.bind]
      rfl
    | move ht _ => exact absurd ht Token.not_isName_keyword
    | label ht => exact absurd ht Token.not_isName_keyword

theorem reads_branch :
    Reads branch Stmt.unplaced fun us s => StmtTokens (.keyword .if :: us) s where
  sound hi h := by
    obtain ⟨p₁, h₁, h⟩ := ok_of_bind h
    obtain ⟨i₂, h₂, h⟩ := ok_of_bind h
    obtain ⟨p₃, h₃, h⟩ := ok_of_bind h
    obtain ⟨i₄, h₄, h⟩ := ok_of_bind h
    obtain ⟨p₅, h₅, h⟩ := ok_of_bind h
    obtain ⟨_, hp₁, t, rfl, ht⟩ := reads_name.sound hi h₁
    have hp₂ := hp₁.trans (past_expect h₂)
    obtain ⟨_, hp₃, u, rfl, hu⟩ := reads_name.sound (hp₂.lexed hi) h₃
    have hp₄ := (hp₂.trans hp₃).trans (past_expect h₄)
    obtain ⟨_, hp₅, v, rfl, hv⟩ := reads_name.sound (hp₄.lexed hi) h₅
    cases h
    exact ⟨_, hp₄.trans hp₅, .branch ht hu hv⟩
  complete hi h := by
    cases h with
    | branch ht hu hv =>
      obtain ⟨cond, i₁, h₁, rfl, hp₁⟩ := name_of_tokens hi ht
      obtain ⟨i₂, h₂, hp₂⟩ := expect_of_tokens (hp₁.rest hi)
      have hp₂ := hp₁.trans hp₂
      obtain ⟨yes, i₃, h₃, rfl, hp₃⟩ := name_of_tokens (hp₂.rest hi) hu
      have hp₃ := hp₂.trans hp₃
      obtain ⟨i₄, h₄, hp₄⟩ := expect_of_tokens (hp₃.rest hi)
      have hp₄ := hp₃.trans hp₄
      obtain ⟨no, i₅, h₅, rfl, hp₅⟩ := name_of_tokens (hp₄.rest hi) hv
      refine ⟨.branch cond yes no, i₅, ?_, rfl, hp₄.trans hp₅⟩
      simp only [branch, h₁, h₂, h₃, h₄, h₅, bind, Except.bind]
      rfl
    | move ht _ => exact absurd ht Token.not_isName_keyword
    | label ht => exact absurd ht Token.not_isName_keyword

theorem reads_afterName (id : Ident) {t : Token} (ht : t.IsName id.name) :
    Reads (afterName id) Stmt.unplaced fun us s => StmtTokens (t :: us) s where
  sound hi h := by
    obtain ⟨p, hn, h⟩ := ok_of_bind h
    split at h
    · cases h
      exact ⟨_, past_next hn, .label ht⟩
    · obtain ⟨q, hs, h⟩ := ok_of_bind h
      obtain ⟨_, hq, u, rfl, hu⟩ := (reads_name.inside _).sound ((past_next hn).lexed hi) hs
      cases h
      exact ⟨_, (past_next hn).trans hq, .move ht hu⟩
    · cases h
  complete hi h := by
    obtain ⟨rfl, hk⟩ := Token.isName_iff.mp ht
    cases h with
    | move ht' hu =>
      obtain ⟨heq, -⟩ := Token.isName_iff.mp ht'
      cases heq
      obtain ⟨start, stop, i₁, h₁, hp⟩ := next_of_tokens hi
      obtain ⟨src, i₂, h₂, rfl, hq⟩ := name_of_tokens (hp.rest hi) hu
      refine ⟨.move id src, i₂, ?_, rfl, hp.trans hq⟩
      simp only [afterName, h₁, h₂, bind, Except.bind, inside, Except.mapError]
      rfl
    | label ht' =>
      obtain ⟨heq, -⟩ := Token.isName_iff.mp ht'
      cases heq
      obtain ⟨start, stop, i₁, h₁, hp⟩ := next_of_tokens hi
      exact ⟨_, _, by rw [afterName, h₁]; rfl, rfl, hp⟩

/-- The tokens of a statement, or the brace that closes a body. -/
def ItemTokens (us : List Token) : Option Stmt → Prop
  | none => us = [.punct .closeBrace]
  | some s => StmtTokens us s

/-- A statement whose first token tells how to read the others. -/
theorem statement_of_tokens {t : Token}
    {tail : Nat → Nat → Input → Except ParseError (Stmt × Input)}
    (hstep : ∀ start stop i₁, i.next = .ok (some ⟨t, start, stop⟩, i₁) →
      i.statement = (tail start stop i₁).map fun (s, i) => (some s, i))
    (htail : ∀ start stop, Reads (tail start stop) Stmt.unplaced fun us s => StmtTokens (t :: us) s)
    (hi : i.tokens = t :: us ++ ts) {s : Stmt} (h : StmtTokens (t :: us) s) :
    ∃ a i', i.statement = .ok (a, i') ∧ a.map Stmt.unplaced = some s ∧ Past i (t :: us) i' := by
  obtain ⟨start, stop, i₁, h₁, hp⟩ := next_of_tokens hi
  obtain ⟨a, i', h₂, ha, hq⟩ := (htail start stop).complete (hp.rest hi) h
  exact ⟨some a, i', by rw [hstep start stop i₁ h₁, h₂]; rfl, congrArg some ha, hp.trans hq⟩

theorem reads_statement : Reads statement (Option.map Stmt.unplaced) ItemTokens where
  sound hi h := by
    obtain ⟨p, hn, h⟩ := ok_of_bind h
    split at h
    · cases h
    · cases h
      exact ⟨_, past_next hn, rfl⟩
    · cases h
      exact ⟨_, past_next hn, .ret⟩
    · obtain ⟨s, rfl, hs⟩ := ok_of_map h
      obtain ⟨us, hp, hus⟩ := (reads_goto.inside _).sound ((past_next hn).lexed hi) hs
      exact ⟨_, (past_next hn).trans hp, hus⟩
    · obtain ⟨s, rfl, hs⟩ := ok_of_map h
      obtain ⟨us, hp, hus⟩ := (reads_call.inside _).sound ((past_next hn).lexed hi) hs
      exact ⟨_, (past_next hn).trans hp, hus⟩
    · obtain ⟨s, rfl, hs⟩ := ok_of_map h
      obtain ⟨us, hp, hus⟩ := (reads_branch.inside _).sound ((past_next hn).lexed hi) hs
      exact ⟨_, (past_next hn).trans hp, hus⟩
    · obtain ⟨s, rfl, hs⟩ := ok_of_map h
      have hname : (Token.name _).IsName _ :=
        ⟨rfl, hi _ (by rw [(past_next hn).tokens]; exact .head _)⟩
      obtain ⟨us, hp, hus⟩ := (reads_afterName _ hname).sound ((past_next hn).lexed hi) hs
      exact ⟨_, (past_next hn).trans hp, hus⟩
    · cases h
  complete {i us ts o} hi h := by
    cases o with
    | none =>
      obtain rfl : us = [.punct .closeBrace] := h
      obtain ⟨start, stop, i₁, h₁, hp⟩ := next_of_tokens hi
      exact ⟨none, i₁, by rw [statement, h₁]; rfl, rfl, hp⟩
    | some s =>
      have htokens : StmtTokens us s := h
      have hname : ∀ {t s}, t.IsName s →
          ∀ start stop : Nat, Reads (afterName { span := ⟨start, stop⟩, name := s })
          Stmt.unplaced fun us s => StmtTokens (t :: us) s := fun ht _ _ => reads_afterName _ ht
      cases htokens with
      | ret =>
        obtain ⟨start, stop, i₁, h₁, hp⟩ := next_of_tokens hi
        exact ⟨some (.ret ⟨start, stop⟩), i₁, by rw [statement, h₁]; rfl, rfl, hp⟩
      | goto ht =>
        exact statement_of_tokens (fun _ _ _ h₁ => by rw [statement, h₁]; rfl)
          (fun _ _ => reads_goto.inside .goto) hi (.goto ht)
      | call ht hu =>
        exact statement_of_tokens (fun _ _ _ h₁ => by rw [statement, h₁]; rfl)
          (fun _ _ => reads_call.inside .call) hi (.call ht hu)
      | branch ht hu hv =>
        exact statement_of_tokens (fun _ _ _ h₁ => by rw [statement, h₁]; rfl)
          (fun _ _ => reads_branch.inside .branch) hi (.branch ht hu hv)
      | label ht =>
        obtain ⟨rfl, -⟩ := Token.isName_iff.mp ht
        exact statement_of_tokens (fun _ _ _ h₁ => by rw [statement, h₁]; rfl) (hname ht) hi
          (.label ht)
      | move ht hu =>
        obtain ⟨rfl, -⟩ := Token.isName_iff.mp ht
        exact statement_of_tokens (fun _ _ _ h₁ => by rw [statement, h₁]; rfl) (hname ht) hi
          (.move ht hu)

theorem reads_argument (proc : String) : Reads (argument proc) ArgDecl.unplaced ArgTokens where
  sound hi h := by
    obtain ⟨⟨found, i₁⟩, hn, h⟩ := ok_of_bind h
    dsimp only at h
    split at h
    · rename_i l access hword
      obtain ⟨p, h₂, h⟩ := ok_of_bind h
      obtain ⟨q, h₃, h⟩ := ok_of_bind h
      have hp := past_next hn
      obtain ⟨_, hq, u, rfl, hu⟩ := (reads_name.inside _).sound (hp.lexed hi) h₂
      split at h
      · cases h
        exact ⟨_, (hp.trans hq).trans (past_next h₃), .arg hword hu⟩
      · cases h
    · cases h
  complete hi h := by
    cases h with
    | @arg t u access name size ht hu =>
      obtain ⟨start, stop, i₁, h₁, hp₁⟩ := next_of_tokens hi
      obtain ⟨id, i₂, h₂, rfl, hp₂⟩ := name_of_tokens (hp₁.rest hi) hu
      have hp₂ := hp₁.trans hp₂
      obtain ⟨start', stop', i₃, h₃, hp₃⟩ := next_of_tokens (hp₂.rest hi)
      have hword : t.word? = some access := ht
      let access' : Ident := { span := ⟨start, stop⟩, name := access }
      refine ⟨{ span := ⟨start, stop'⟩, access := access', name := id, size := size }, i₃, ?_, rfl,
        hp₂.trans hp₃⟩
      simp only [argument, h₁, bind, Except.bind, Option.bind, hword, h₂, h₃, inside,
        Except.mapError]
      rfl

/-! ## Sequences -/

theorem moreArguments_close {proc : String} {start stop : Nat}
    (h : i.next = .ok (some ⟨.punct .closeParen, start, stop⟩, i')) :
    i.moreArguments proc = .ok ([], i') := by
  rw [moreArguments]
  split <;> simp_all

theorem moreArguments_comma {proc : String} {start stop : Nat} {a : ArgDecl} {i₂ : Input}
    (h : i.next = .ok (some ⟨.punct .comma, start, stop⟩, i₁))
    (ha : i₁.argument proc = .ok (a, i₂)) :
    i.moreArguments proc = (i₂.moreArguments proc).map fun (as, i) => (a :: as, i) := by
  rw [moreArguments]
  split
  all_goals rename_i hn
  · cases h.symm.trans hn
  · cases h.symm.trans hn
  · cases h.symm.trans hn
    split
    all_goals rename_i hb
    · cases ha.symm.trans hb
    · cases ha.symm.trans hb; rfl
  · simp_all

theorem reads_moreArguments (proc : String) : Reads (moreArguments proc) (List.map ArgDecl.unplaced)
    fun us as => ∃ vs, us = vs ++ [.punct .closeParen] ∧ Many (AfterComma ArgTokens) vs as where
  sound {i i' as} hi h := by
    fun_induction moreArguments proc i generalizing as with
    | case1 => cases h
    | case2 i _ _ i₁ hn =>
      cases h
      exact ⟨_, past_next hn, [], rfl, .nil⟩
    | case3 => cases h
    | case4 i _ _ i₁ hn a i₂ ha ih =>
      obtain ⟨as, rfl, hr⟩ := ok_of_map h
      have hp := past_next hn
      obtain ⟨us, hq, hus⟩ := (reads_argument proc).sound (hp.lexed hi) ha
      have hq := hp.trans hq
      obtain ⟨_, hrest, vs, rfl, hvs⟩ := ih (hq.lexed hi) hr
      exact ⟨_, hq.trans hrest, _, by simp, .cons (.comma hus) hvs⟩
    | case5 => cases h
  complete {i us ts as} hi h := by
    obtain ⟨vs, rfl, hmany⟩ := h
    induction hmany generalizing i with
    | nil =>
      obtain ⟨start, stop, i₁, hn, hp⟩ := next_of_tokens hi
      exact ⟨[], i₁, moreArguments_close hn, rfl, hp⟩
    | cons ha _ ih =>
      obtain ⟨ha⟩ := ha
      obtain ⟨start, stop, i₁, hn, hp⟩ := next_of_tokens hi
      obtain ⟨a, i₂, haeq, rfl, hq⟩ := (reads_argument proc).complete (by simpa using hp.rest hi) ha
      have hq := hp.trans hq
      obtain ⟨as, i₃, haseq, rfl, hr⟩ := ih (hq.rest (by simpa using hi))
      refine ⟨a :: as, i₃, ?_, rfl, by simpa using hq.trans hr⟩
      rw [moreArguments_comma hn haeq, haseq]
      rfl

theorem reads_arguments (proc : String) : Reads (arguments proc) (List.map ArgDecl.unplaced)
    fun us as => ∃ vs, us = vs ++ [.punct .closeParen] ∧ ArgsTokens vs as where
  sound {i i' as} hi h := by
    unfold arguments at h
    split at h
    · rename_i hn
      cases h
      exact ⟨_, past_next hn, [], rfl, .none⟩
    · obtain ⟨p, ha, h⟩ := ok_of_bind h
      obtain ⟨q, has, h⟩ := ok_of_bind h
      obtain ⟨us, hp, hus⟩ := (reads_argument proc).sound hi ha
      obtain ⟨_, hq, vs, rfl, hvs⟩ := (reads_moreArguments proc).sound (hp.lexed hi) has
      cases h
      exact ⟨_, hp.trans hq, _, by simp, .some hus hvs⟩
  complete {i us ts as} hi h := by
    obtain ⟨vs, rfl, hargs⟩ := h
    cases hargs with
    | none =>
      obtain ⟨start, stop, i₁, hn, hp⟩ := next_of_tokens hi
      exact ⟨[], i₁, by rw [arguments, hn], rfl, hp⟩
    | some ha has =>
      rw [List.append_assoc, List.append_assoc] at hi
      obtain ⟨a, i₁, haeq, rfl, hp⟩ := (reads_argument proc).complete hi ha
      obtain ⟨as, i₂, haseq, rfl, hq⟩ := (reads_moreArguments proc).complete
        ((hp.rest hi).trans (List.append_assoc ..).symm) ⟨_, rfl, has⟩
      refine ⟨a :: as, i₂, ?_, rfl, by simpa using hp.trans hq⟩
      unfold arguments
      split
      · -- an argument starts with a word
        rename_i hn
        obtain ⟨t, us, s, rfl, ht⟩ := ha.starts_with_word
        cases List.head_eq_of_cons_eq ((past_next hn).tokens.symm.trans hi)
        cases ht
      · simp only [haeq, haseq, bind, Except.bind]
        rfl

theorem statements_close (h : i.statement = .ok (none, i')) : i.statements = .ok ([], i') := by
  rw [statements]
  split <;> simp_all

theorem statements_more {s : Stmt} (h : i.statement = .ok (some s, i')) :
    i.statements = i'.statements.map fun (ss, i) => (s :: ss, i) := by
  rw [statements]
  split <;> simp_all

/-- The statements of a body and the brace that closes it. -/
theorem reads_statements : Reads statements (List.map Stmt.unplaced)
    fun us ss => ∃ vs, us = vs ++ [.punct .closeBrace] ∧ Many StmtTokens vs ss where
  sound {i i' ss} hi h := by
    fun_induction statements i generalizing ss with
    | case1 => cases h
    | case2 i i₁ hs =>
      cases h
      obtain ⟨us, hp, hus⟩ := reads_statement.sound hi hs
      exact ⟨us, hp, [], hus, .nil⟩
    | case3 i s i₁ hs ih =>
      obtain ⟨ss, rfl, hr⟩ := ok_of_map h
      obtain ⟨us, hp, hus⟩ := reads_statement.sound hi hs
      obtain ⟨_, hq, vs, rfl, hvs⟩ := ih (hp.lexed hi) hr
      exact ⟨_, hp.trans hq, us ++ vs, by simp, .cons hus hvs⟩
  complete {i us ts ss} hi h := by
    obtain ⟨vs, rfl, hmany⟩ := h
    induction hmany generalizing i with
    | nil =>
      obtain ⟨o, i₁, hs, ho, hp⟩ := reads_statement.complete hi (b := none) rfl
      obtain rfl := Option.map_eq_none_iff.mp ho
      exact ⟨[], i₁, statements_close hs, rfl, hp⟩
    | @cons us vs s ss hs _ ih =>
      rw [List.append_assoc, List.append_assoc] at hi
      obtain ⟨o, i₁, hstmt, ho, hp⟩ := reads_statement.complete hi (b := some s) hs
      obtain ⟨s, rfl, rfl⟩ := Option.map_eq_some_iff.mp ho
      obtain ⟨ss, i₂, hss, rfl, hq⟩ := ih ((hp.rest hi).trans (List.append_assoc ..).symm)
      refine ⟨s :: ss, i₂, ?_, rfl, by simpa using hp.trans hq⟩
      rw [statements_more hstmt, hss]
      rfl

theorem reads_procedure (pos : Nat) : Reads (procedure pos) ProcDecl.unplaced
    fun us x => ProcTokens (.keyword .proc :: us) x where
  sound hi h := by
    obtain ⟨p₁, h₁, h⟩ := ok_of_bind h
    obtain ⟨i₂, h₂, h⟩ := ok_of_bind h
    obtain ⟨p₃, h₃, h⟩ := ok_of_bind h
    obtain ⟨i₄, h₄, h⟩ := ok_of_bind h
    obtain ⟨p₅, h₅, h⟩ := ok_of_bind h
    obtain ⟨_, hp₁, t, rfl, ht⟩ := reads_name.sound hi h₁
    have hp₂ := hp₁.trans (past_expect (inside_ok h₂))
    obtain ⟨_, hp₃, us, rfl, hargs⟩ := (reads_arguments _).sound (hp₂.lexed hi) h₃
    have hp₄ := (hp₂.trans hp₃).trans (past_expect (inside_ok h₄))
    obtain ⟨_, hp₅, vs, rfl, hbody⟩ := (reads_statements.inside _).sound (hp₄.lexed hi) h₅
    cases h
    refine ⟨_, hp₄.trans hp₅, ?_⟩
    simpa [ProcDecl.unplaced] using ProcTokens.proc ht hargs hbody
  complete {i _ ts _} hi h := by
    cases h with
    | @proc t name us vs args body ht hargs hbody =>
      have hi : i.tokens = t :: .punct .openParen :: (us ++ [.punct .closeParen] ++
          .punct .openBrace :: (vs ++ [.punct .closeBrace] ++ ts)) := by simpa using hi
      obtain ⟨id, i₁, h₁, rfl, hp₁⟩ := name_of_tokens hi ht
      obtain ⟨i₂, h₂, hp₂⟩ := expect_of_tokens (hp₁.rest hi)
      have hp₂ := hp₁.trans hp₂
      obtain ⟨as, i₃, h₃, rfl, hp₃⟩ :=
        (reads_arguments id.name).complete (hp₂.rest hi) ⟨us, rfl, hargs⟩
      have hp₃ := hp₂.trans hp₃
      obtain ⟨i₄, h₄, hp₄⟩ := expect_of_tokens (hp₃.rest (by simpa using hi))
      have hp₄ := hp₃.trans hp₄
      obtain ⟨ss, i₅, h₅, rfl, hp₅⟩ :=
        reads_statements.complete (hp₄.rest (by simpa using hi)) ⟨vs, rfl, hbody⟩
      refine ⟨{ span := ⟨pos, i₅.stop⟩, name := id, args := as, body := ss }, i₅, ?_, rfl,
        by simpa using hp₄.trans hp₅⟩
      simp only [procedure, h₁, h₂, h₃, h₄, h₅, bind, Except.bind, inside, Except.mapError]
      rfl

/-! ## Files -/

theorem declarations_end (h : i.next = .ok (none, i')) : i.declarations = .ok {} := by
  rw [declarations]
  split <;> simp_all

theorem declarations_ffi {start stop : Nat} {id : Ident} {i₂ : Input}
    (h : i.next = .ok (some ⟨.keyword .ffi, start, stop⟩, i₁)) (hid : i₁.name = .ok (id, i₂)) :
    i.declarations = i₂.declarations.map fun f => { f with foreign := id :: f.foreign } := by
  rw [declarations]
  split
  all_goals rename_i hn
  · cases h.symm.trans hn
  · cases h.symm.trans hn
  · cases h.symm.trans hn
    split
    all_goals rename_i hid'
    · rw [hid] at hid'; cases hid'
    · rw [hid] at hid'; cases hid'; rfl
  · cases h.symm.trans hn
  · simp_all

theorem declarations_proc {start stop : Nat} {x : ProcDecl} {i₂ : Input}
    (h : i.next = .ok (some ⟨.keyword .proc, start, stop⟩, i₁))
    (hx : i₁.procedure start = .ok (x, i₂)) :
    i.declarations = i₂.declarations.map fun f => { f with procs := x :: f.procs } := by
  rw [declarations]
  split
  all_goals rename_i hn
  · cases h.symm.trans hn
  · cases h.symm.trans hn
  · cases h.symm.trans hn
  · cases h.symm.trans hn
    split
    all_goals rename_i hx'
    · rw [hx] at hx'; cases hx'
    · rw [hx] at hx'; cases hx'; rfl
  · simp_all

/-- What the declarations derive. -/
theorem declarations_sound {f : SourceFile} (hi : i.Lexed) (h : i.declarations = .ok f) :
    (∃ pos, i.ending = .eof pos) ∧ FileTokens i.tokens f.unplaced := by
  fun_induction declarations i generalizing f with
  | case1 => cases h
  | case2 i i' hn =>
    cases h
    obtain ⟨htokens, hend⟩ := next_none_iff.mp ⟨_, hn⟩
    rw [htokens]
    exact ⟨hend, .nil⟩
  | case3 => cases h
  | case4 i _ _ i₁ hn id i₂ hid ih =>
    cases hr : i₂.declarations with
    | error e => rw [hr] at h; cases h
    | ok g =>
      rw [hr] at h
      cases h
      have hp := past_next hn
      obtain ⟨_, hq, t, rfl, ht⟩ := (reads_name.inside _).sound (hp.lexed hi) hid
      have hq := hp.trans hq
      obtain ⟨hend, htokens⟩ := ih (hq.lexed hi) hr
      rw [hq.tokens]
      exact ⟨hq.ending ▸ hend, .ffi ht htokens⟩
  | case5 => cases h
  | case6 i _ _ i₁ hn x i₂ hx ih =>
    cases hr : i₂.declarations with
    | error e => rw [hr] at h; cases h
    | ok g =>
      rw [hr] at h
      cases h
      have hp := past_next hn
      obtain ⟨us, hq, hus⟩ := ((reads_procedure _).inside _).sound (hp.lexed hi) hx
      have hq := hp.trans hq
      obtain ⟨hend, htokens⟩ := ih (hq.lexed hi) hr
      rw [hq.tokens]
      exact ⟨hq.ending ▸ hend, .proc hus htokens⟩
  | case7 => cases h

theorem declarations_complete {t : SourceFile} (hend : ∃ pos, i.ending = .eof pos)
    (h : FileTokens i.tokens t) :
    ∃ f, i.declarations = .ok f ∧ f.unplaced = t := by
  generalize htokens : i.tokens = ts at h
  induction h generalizing i with
  | nil =>
    obtain ⟨i', hn⟩ := next_none_iff.mpr ⟨htokens, hend⟩
    exact ⟨{}, declarations_end hn, rfl⟩
  | ffi ht _ ih =>
    obtain ⟨start, stop, i₁, hn, hp⟩ := next_of_tokens htokens
    obtain ⟨id, i₂, hid, rfl, hq⟩ := name_of_tokens (hp.rest htokens) ht
    have hq := hp.trans hq
    obtain ⟨f, hf, rfl⟩ := ih (hq.ending ▸ hend) (hq.rest htokens)
    exact ⟨_, by rw [declarations_ffi hn hid, hf]; rfl, rfl⟩
  | proc hx _ ih =>
    obtain ⟨us, rfl⟩ := hx.starts_with_proc
    obtain ⟨start, stop, i₁, hn, hp⟩ := next_of_tokens htokens
    obtain ⟨x, i₂, hproc, rfl, hq⟩ := (reads_procedure start).complete (hp.rest htokens) hx
    have hq := hp.trans hq
    obtain ⟨f, hf, rfl⟩ := ih (hq.ending ▸ hend) (hq.rest htokens)
    exact ⟨_, by rw [declarations_proc hn hproc, hf]; rfl, rfl⟩

end Input

/-- The input at the start of a text. -/
def Input.ofText (bytes : List UInt8) : Input where
  stop := 0
  rest := (lexemes bytes).1
  ending := (lexemes bytes).2

theorem Input.lexed_ofText (bytes : List UInt8) : (ofText bytes).Lexed := by
  intro s hs
  obtain ⟨l, hl, hname⟩ := List.mem_map.mp hs
  exact Cursor.ofText?_of_lexemes hl hname

namespace SourceFile

variable {bytes : List UInt8} {f t : SourceFile}

theorem derives_of_parse (h : parse bytes = .ok f) :
    ∃ ts, Lexes { pos := 0, rest := bytes } ts ∧ FileTokens ts f.unplaced := by
  obtain ⟨hend, htokens⟩ := Input.declarations_sound (Input.lexed_ofText bytes) h
  exact ⟨_, lexes_iff.mpr ⟨rfl, hend⟩, htokens⟩

theorem parse_of_derives {ts : List Token} (hts : Lexes { pos := 0, rest := bytes } ts)
    (h : FileTokens ts t) :
    ∃ f, parse bytes = .ok f ∧ f.unplaced = t := by
  obtain ⟨rfl, hend⟩ := lexes_iff.mp hts
  exact Input.declarations_complete (i := Input.ofText bytes) hend h

end SourceFile

/-- A text is parsed exactly if all of it can be split into tokens and these derive a file. The
syntax tree is what they derive, but for the places of its parts. -/
theorem parse_derives (bytes : List UInt8) (t : SourceFile) :
    (∃ f, SourceFile.parse bytes = .ok f ∧ f.unplaced = t) ↔
      ∃ ts, Lexes { pos := 0, rest := bytes } ts ∧ FileTokens ts t := by
  constructor
  · rintro ⟨f, hf, rfl⟩
    exact SourceFile.derives_of_parse hf
  · rintro ⟨ts, hts, ht⟩
    exact SourceFile.parse_of_derives hts ht

end ProcCompiler
