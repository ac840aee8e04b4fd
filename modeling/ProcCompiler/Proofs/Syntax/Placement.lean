import ProcCompiler.Proofs.Syntax.RoundTrip
/-!
# Syntax trees with their places

The grammar once more, now over lexemes and for trees whose parts know their places: a name has the
place of its word, an argument goes from its kind to its size, a procedure from its first word to
its closing brace. Each part of the parser takes lexemes that derive what it gives, places included.

* `IdentLexeme`, `StmtLexemes`, `ArgLexemes`, `ProcLexemes`, `ItemLexemes`: the lexemes of each
  part.
* `statement_placed`, `argument_placed`: the parts of bounded length.
* `statements_placed`, `arguments_placed`, `procedure_placed`: sequences.
* `declarations_placed`: a file is derived by all lexemes of its text.
-/
namespace ProcCompiler

/-! ## Derivations -/

/-- The bytes from the start of a lexeme to the end of another. -/
def Lexeme.upTo (l l' : Lexeme) : Span := ⟨l.start, l'.stop⟩

/-- The name is a word, in its place. -/
structure IdentLexeme (l : Lexeme) (id : Ident) : Prop where
  word : l.token.IsWord id.name
  span : id.span = l.upTo l

/-- The lexemes of a statement. -/
inductive StmtLexemes : List Lexeme → Stmt → Prop where
  | move {l e r : Lexeme} {dst src : Ident} (hd : IdentLexeme l dst) (he : e.token = .punct .equals)
      (hs : IdentLexeme r src) : StmtLexemes [l, e, r] (.move dst src)
  | label {l c : Lexeme} {name : Ident} (hn : IdentLexeme l name) (hc : c.token = .punct .colon) :
      StmtLexemes [l, c] (.label name)
  | call {k l r : Lexeme} {fn var : Ident} (hk : k.token = .keyword .call) (hf : IdentLexeme l fn)
      (hv : IdentLexeme r var) : StmtLexemes [k, l, r] (.call fn var)
  | goto {k l : Lexeme} {target : Ident} (hk : k.token = .keyword .goto)
      (ht : IdentLexeme l target) :
      StmtLexemes [k, l] (.goto target)
  | branch {k l g m e r : Lexeme} {cond yes no : Ident} (hk : k.token = .keyword .if)
      (hc : IdentLexeme l cond)
      (hg : g.token = .keyword .goto) (hy : IdentLexeme m yes) (he : e.token = .keyword .else)
      (hn : IdentLexeme r no) : StmtLexemes [k, l, g, m, e, r] (.branch cond yes no)
  | ret {k : Lexeme} (hk : k.token = .keyword .return) : StmtLexemes [k] (.ret (k.upTo k))

/-- The lexemes of an argument. -/
inductive ArgLexemes : List Lexeme → ArgDecl → Prop where
  | arg {l r d : Lexeme} {access name : Ident} {size : Nat} (ha : IdentLexeme l access)
      (hn : IdentLexeme r name)
      (hd : d.token = .number size) : ArgLexemes [l, r, d] { span := l.upTo d, access, name, size }

/-- The lexemes of an argument after a comma. -/
inductive MoreLexemes : List Lexeme → ArgDecl → Prop where
  | comma {c : Lexeme} {us : List Lexeme} {a : ArgDecl} (hc : c.token = .punct .comma)
      (ha : ArgLexemes us a) :
      MoreLexemes (c :: us) a

/-- Any number of parts. -/
inductive Parts {α : Type} (part : List Lexeme → α → Prop) : List Lexeme → List α → Prop where
  | nil : Parts part [] []
  | cons {us vs : List Lexeme} {a : α} {as : List α} (ha : part us a) (has : Parts part vs as) :
      Parts part (us ++ vs) (a :: as)

/-- The lexemes between the parentheses of a procedure. -/
inductive ArgsLexemes : List Lexeme → List ArgDecl → Prop where
  | none : ArgsLexemes [] []
  | some {us vs : List Lexeme} {a : ArgDecl} {as : List ArgDecl} (ha : ArgLexemes us a)
      (has : Parts MoreLexemes vs as) : ArgsLexemes (us ++ vs) (a :: as)

/-- The lexemes of a procedure. -/
inductive ProcLexemes : List Lexeme → ProcDecl → Prop where
  | proc {k l o c b e : Lexeme} {us vs : List Lexeme} {name : Ident} {args : List ArgDecl}
      {body : List Stmt}
      (hk : k.token = .keyword .proc) (hn : IdentLexeme l name) (ho : o.token = .punct .openParen)
      (hargs : ArgsLexemes us args) (hc : c.token = .punct .closeParen)
        (hb : b.token = .punct .openBrace)
      (hbody : Parts StmtLexemes vs body) (he : e.token = .punct .closeBrace) :
      ProcLexemes (k :: l :: o :: (us ++ c :: b :: (vs ++ [e])))
        { span := k.upTo e, name, args, body }

/-- The lexemes of a declaration. -/
inductive ItemLexemes : List Lexeme → Item → Prop where
  | foreign {k l : Lexeme} {id : Ident} (hk : k.token = .keyword .ffi) (hid : IdentLexeme l id) :
      ItemLexemes [k, l] (.foreign id)
  | proc {us : List Lexeme} {x : ProcDecl} (hx : ProcLexemes us x) : ItemLexemes us (.proc x)

namespace Input

variable {i i' : Input}

/-! ## Parts of bounded length -/

theorem rest_of_next {l : Lexeme} (h : i.next = .ok (some l, i')) :
    i.rest = l :: i'.rest ∧ i'.stop = l.stop := by
  unfold next at h
  split at h
  · rename_i hr
    cases h
    exact ⟨hr, rfl⟩
  · split at h <;> cases h

theorem name_placed {id : Ident} (h : i.name = .ok (id, i')) :
    ∃ l, i.rest = l :: i'.rest ∧ IdentLexeme l id := by
  obtain ⟨p, hn, h⟩ := ok_of_bind h
  split at h
  · cases h
    exact ⟨_, (rest_of_next hn).1, rfl, rfl⟩
  · cases h

theorem expect_placed {want : Token} (h : i.expect want = .ok i') :
    ∃ l, i.rest = l :: i'.rest ∧ l.token = want := by
  obtain ⟨⟨l, j⟩, hn, h⟩ := ok_of_bind h
  cases l with
  | none => cases h
  | some l =>
    dsimp only at h
    split at h
    · rename_i hl
      cases h
      exact ⟨l, (rest_of_next hn).1, Option.some.inj hl⟩
    · cases h

theorem goto_placed {s : Stmt} (h : i.goto = .ok (s, i')) {k : Lexeme}
    (hk : k.token = .keyword .goto) :
    ∃ us, i.rest = us ++ i'.rest ∧ StmtLexemes (k :: us) s := by
  obtain ⟨p, h₁, h⟩ := ok_of_bind h
  obtain ⟨l, hr, hl⟩ := name_placed h₁
  cases h
  exact ⟨[l], hr, .goto hk hl⟩

theorem call_placed {s : Stmt} (h : i.call = .ok (s, i')) {k : Lexeme}
    (hk : k.token = .keyword .call) :
    ∃ us, i.rest = us ++ i'.rest ∧ StmtLexemes (k :: us) s := by
  obtain ⟨p, h₁, h⟩ := ok_of_bind h
  obtain ⟨q, h₂, h⟩ := ok_of_bind h
  obtain ⟨l, hr₁, hl⟩ := name_placed h₁
  obtain ⟨r, hr₂, hr⟩ := name_placed h₂
  cases h
  exact ⟨[l, r], by simp [hr₁, hr₂], .call hk hl hr⟩

theorem branch_placed {s : Stmt} (h : i.branch = .ok (s, i')) {k : Lexeme}
    (hk : k.token = .keyword .if) :
    ∃ us, i.rest = us ++ i'.rest ∧ StmtLexemes (k :: us) s := by
  obtain ⟨p₁, h₁, h⟩ := ok_of_bind h
  obtain ⟨i₂, h₂, h⟩ := ok_of_bind h
  obtain ⟨p₃, h₃, h⟩ := ok_of_bind h
  obtain ⟨i₄, h₄, h⟩ := ok_of_bind h
  obtain ⟨p₅, h₅, h⟩ := ok_of_bind h
  obtain ⟨l, hr₁, hl⟩ := name_placed h₁
  obtain ⟨g, hr₂, hg⟩ := expect_placed h₂
  obtain ⟨m, hr₃, hm⟩ := name_placed h₃
  obtain ⟨e, hr₄, he⟩ := expect_placed h₄
  obtain ⟨r, hr₅, hr⟩ := name_placed h₅
  cases h
  exact ⟨[l, g, m, e, r], by simp [hr₁, hr₂, hr₃, hr₄, hr₅], .branch hk hl hg hm he hr⟩

theorem afterName_placed {s : Stmt} {id : Ident} (h : i.afterName id = .ok (s, i')) {l : Lexeme}
    (hl : IdentLexeme l id) : ∃ us, i.rest = us ++ i'.rest ∧ StmtLexemes (l :: us) s := by
  obtain ⟨p, hn, h⟩ := ok_of_bind h
  split at h
  · cases h
    exact ⟨_, (rest_of_next hn).1, .label hl rfl⟩
  · obtain ⟨q, hs, h⟩ := ok_of_bind h
    obtain ⟨r, hr, hsrc⟩ := name_placed (inside_ok hs)
    cases h
    exact ⟨[_, r], by rw [(rest_of_next hn).1, hr]; rfl, .move hl rfl hsrc⟩
  · cases h

/-- A statement was taken, or the brace that closes the body. -/
def Stepped (i i' : Input) : Option Stmt → Prop
  | none => ∃ l, i.rest = l :: i'.rest ∧ l.token = .punct .closeBrace ∧ i'.stop = l.stop
  | some s => ∃ us, i.rest = us ++ i'.rest ∧ StmtLexemes us s

theorem statement_placed {o : Option Stmt} (h : i.statement = .ok (o, i')) : i.Stepped i' o := by
  -- all forms but `return` start with a word and go on with a part of their own
  have hmore : ∀ {l : Lexeme} {i₁ : Input} {s : Stmt}, i.next = .ok (some l, i₁) →
      (∃ us, i₁.rest = us ++ i'.rest ∧ StmtLexemes (l :: us) s) → i.Stepped i' (some s) := by
    rintro l i₁ s hn ⟨us, hr, hs⟩
    exact ⟨l :: us, by rw [(rest_of_next hn).1, hr]; rfl, hs⟩
  obtain ⟨p, hn, h⟩ := ok_of_bind h
  split at h
  · cases h
  · cases h
    exact ⟨_, (rest_of_next hn).1, rfl, (rest_of_next hn).2⟩
  · cases h
    exact ⟨[_], (rest_of_next hn).1, .ret (k := ⟨.keyword .return, _, _⟩) rfl⟩
  · obtain ⟨s, rfl, hs⟩ := ok_of_map h
    exact hmore hn (goto_placed (inside_ok hs) rfl)
  · obtain ⟨s, rfl, hs⟩ := ok_of_map h
    exact hmore hn (call_placed (inside_ok hs) rfl)
  · obtain ⟨s, rfl, hs⟩ := ok_of_map h
    exact hmore hn (branch_placed (inside_ok hs) rfl)
  · obtain ⟨s, rfl, hs⟩ := ok_of_map h
    exact hmore hn (afterName_placed hs ⟨rfl, rfl⟩)
  · cases h

theorem argument_placed {proc : String} {a : ArgDecl} (h : i.argument proc = .ok (a, i')) :
    ∃ us, i.rest = us ++ i'.rest ∧ ArgLexemes us a := by
  obtain ⟨⟨found, i₁⟩, hn, h⟩ := ok_of_bind h
  dsimp only at h
  split at h
  · rename_i l access hword
    obtain ⟨p, h₂, h⟩ := ok_of_bind h
    obtain ⟨q, h₃, h⟩ := ok_of_bind h
    obtain ⟨r, hr, hname⟩ := name_placed (inside_ok h₂)
    split at h
    · rename_i size start stop _
      cases h
      have haccess : IdentLexeme l { span := ⟨l.start, l.stop⟩, name := access } := ⟨hword, rfl⟩
      refine ⟨[l, r, ⟨.number size, start, stop⟩], ?_, .arg haccess hname rfl⟩
      rw [(rest_of_next hn).1, hr, (rest_of_next h₃).1]
      rfl
    · cases h
  · cases h

/-! ## Sequences -/

theorem moreArguments_placed {proc : String} {as : List ArgDecl}
    (h : i.moreArguments proc = .ok (as, i')) :
    ∃ us c, i.rest = us ++ c :: i'.rest ∧ Parts MoreLexemes us as ∧
      c.token = .punct .closeParen := by
  fun_induction moreArguments proc i generalizing as with
  | case1 => cases h
  | case2 i _ _ i₁ hn =>
    cases h
    exact ⟨[], _, (rest_of_next hn).1, .nil, rfl⟩
  | case3 => cases h
  | case4 i start stop i₁ hn a i₂ ha ih =>
    obtain ⟨as, rfl, hr⟩ := ok_of_map h
    obtain ⟨us, hus, harg⟩ := argument_placed ha
    obtain ⟨vs, c, hvs, hargs, hc⟩ := ih hr
    refine ⟨_, c, ?_, .cons (.comma (c := ⟨.punct .comma, start, stop⟩) rfl harg) hargs, hc⟩
    rw [(rest_of_next hn).1, hus, hvs, List.cons_append, List.cons_append, List.append_assoc]
  | case5 => cases h

theorem arguments_placed {proc : String} {as : List ArgDecl} (h : i.arguments proc = .ok (as, i')) :
    ∃ us c, i.rest = us ++ c :: i'.rest ∧ ArgsLexemes us as ∧ c.token = .punct .closeParen := by
  unfold arguments at h
  split at h
  · rename_i hn
    cases h
    exact ⟨[], _, (rest_of_next hn).1, .none, rfl⟩
  · obtain ⟨p, ha, h⟩ := ok_of_bind h
    obtain ⟨q, has, h⟩ := ok_of_bind h
    obtain ⟨us, hus, harg⟩ := argument_placed ha
    obtain ⟨vs, c, hvs, hargs, hc⟩ := moreArguments_placed has
    cases h
    exact ⟨_, c, by rw [hus, hvs, List.append_assoc], .some harg hargs, hc⟩

theorem statements_placed {ss : List Stmt} (h : i.statements = .ok (ss, i')) :
    ∃ us e, i.rest = us ++ e :: i'.rest ∧ Parts StmtLexemes us ss ∧ e.token = .punct .closeBrace ∧
      i'.stop = e.stop := by
  fun_induction statements i generalizing ss with
  | case1 => cases h
  | case2 i i₁ hs =>
    cases h
    obtain ⟨e, hr, he, hstop⟩ := statement_placed hs
    exact ⟨[], e, hr, .nil, he, hstop⟩
  | case3 i s i₁ hs ih =>
    obtain ⟨ss, rfl, hr⟩ := ok_of_map h
    obtain ⟨us, hus, hstmt⟩ := statement_placed hs
    obtain ⟨vs, e, hvs, hbody, he⟩ := ih hr
    exact ⟨_, e, by rw [hus, hvs, List.append_assoc], .cons hstmt hbody, he⟩

theorem procedure_placed {k : Lexeme} {x : ProcDecl} (hk : k.token = .keyword .proc)
    (h : i.procedure k.start = .ok (x, i')) :
    ∃ us, i.rest = us ++ i'.rest ∧ ProcLexemes (k :: us) x := by
  obtain ⟨p₁, h₁, h⟩ := ok_of_bind h
  obtain ⟨i₂, h₂, h⟩ := ok_of_bind h
  obtain ⟨p₃, h₃, h⟩ := ok_of_bind h
  obtain ⟨i₄, h₄, h⟩ := ok_of_bind h
  obtain ⟨p₅, h₅, h⟩ := ok_of_bind h
  obtain ⟨l, hr₁, hl⟩ := name_placed h₁
  obtain ⟨o, hr₂, ho⟩ := expect_placed (inside_ok h₂)
  obtain ⟨us, c, hr₃, hargs, hc⟩ := arguments_placed h₃
  obtain ⟨b, hr₄, hb⟩ := expect_placed (inside_ok h₄)
  obtain ⟨vs, e, hr₅, hbody, he, hstop⟩ := statements_placed (inside_ok h₅)
  cases h
  have hproc := ProcLexemes.proc hk hl ho hargs hc hb hbody he
  rw [Lexeme.upTo, ← hstop] at hproc
  exact ⟨_, by simp [hr₁, hr₂, hr₃, hr₄, hr₅], hproc⟩

/-- A file is derived by all lexemes to come. -/
theorem declarations_placed {f : SourceFile} (h : i.declarations = .ok f) :
    ∃ items, Item.file items = f ∧ Parts ItemLexemes i.rest items := by
  fun_induction declarations i generalizing f with
  | case1 => cases h
  | case2 i i' hn =>
    cases h
    obtain ⟨htokens, -⟩ := next_none_iff.mp ⟨_, hn⟩
    rw [List.map_eq_nil_iff.mp htokens]
    exact ⟨[], rfl, .nil⟩
  | case3 => cases h
  | case4 i _ _ i₁ hn id i₂ hid ih =>
    cases hr : i₂.declarations with
    | error e => rw [hr] at h; cases h
    | ok g =>
      rw [hr] at h
      cases h
      obtain ⟨items, rfl, hitems⟩ := ih hr
      obtain ⟨l, hl, hident⟩ := name_placed (inside_ok hid)
      refine ⟨.foreign id :: items, rfl, ?_⟩
      rw [(rest_of_next hn).1, hl]
      exact .cons (.foreign (k := ⟨.keyword .ffi, _, _⟩) rfl hident) hitems
  | case5 => cases h
  | case6 i pos _ i₁ hn x i₂ hx ih =>
    cases hr : i₂.declarations with
    | error e => rw [hr] at h; cases h
    | ok g =>
      rw [hr] at h
      cases h
      obtain ⟨items, rfl, hitems⟩ := ih hr
      obtain ⟨us, hus, hproc⟩ := procedure_placed (k := ⟨.keyword .proc, pos, _⟩) rfl (inside_ok hx)
      refine ⟨.proc x :: items, rfl, ?_⟩
      rw [(rest_of_next hn).1, hus]
      exact .cons (.proc hproc) hitems
  | case7 => cases h

end Input

end ProcCompiler
