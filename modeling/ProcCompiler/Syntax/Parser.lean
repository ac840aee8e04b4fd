import ProcCompiler.Syntax.Input
/-!
# Parsing

A file is a sequence of `ffi NAME` and `proc NAME(ARGUMENTS) {STATEMENTS}`; see `SourceFile.parse`.
The parser stops at the first lexeme that does not fit.

* `arguments_lt`, `statements_lt`, `procedure_lt`: every sequence takes at least a token, so parsing
  ends.
-/
namespace ProcCompiler

namespace Input

/-- The arguments after the first, each after a comma, up to the closing parenthesis. -/
def moreArguments (proc : String) (i : Input) : Except ParseError (List ArgDecl × Input) :=
  match _hn : i.next with
  | .error e => .error e
  | .ok (some ⟨.punct .closeParen, _, _⟩, i₁) => .ok ([], i₁)
  | .ok (some ⟨.punct .comma, _, _⟩, i₁) =>
    match _ha : i₁.argument proc with
    | .error e => .error e
    | .ok (a, i₂) => (i₂.moreArguments proc).map fun (as, i) => (a :: as, i)
  | .ok (found, _) => .error (.commaExpected i.start proc (found.map (·.token)))
termination_by i.rest.length
decreasing_by exact Nat.lt_trans (argument_lt ‹_›) (next_some_lt ‹_›)

/-- The arguments of a procedure, up to the closing parenthesis. -/
def arguments (proc : String) (i : Input) : Except ParseError (List ArgDecl × Input) :=
  match i.next with
  | .ok (some ⟨.punct .closeParen, _, _⟩, i₁) => .ok ([], i₁)
  | _ => do
    let (a, i) ← i.argument proc
    let (as, i) ← i.moreArguments proc
    return (a :: as, i)

/-- The statements of a body, up to the closing brace. -/
def statements (i : Input) : Except ParseError (List Stmt × Input) :=
  match _h : i.statement with
  | .error e => .error e
  | .ok (none, i₁) => .ok ([], i₁)
  | .ok (some s, i₁) => i₁.statements.map fun (ss, i) => (s :: ss, i)
termination_by i.rest.length
decreasing_by exact statement_lt ‹_›

/-- A procedure that starts at `pos`, after its first word. -/
def procedure (pos : Nat) (i : Input) : Except ParseError (ProcDecl × Input) := do
  let (name, i) ← i.name
  let i ← inside (.procNamed name.name) (i.expect (.punct .openParen))
  let (args, i) ← i.arguments name.name
  let i ← inside (.procNamed name.name) (i.expect (.punct .openBrace))
  let (body, i) ← inside (.procNamed name.name) i.statements
  return ({ span := ⟨pos, i.stop⟩, name, args, body }, i)

theorem moreArguments_lt {i i' : Input} {proc : String} {as : List ArgDecl}
    (h : i.moreArguments proc = .ok (as, i')) : i'.rest.length < i.rest.length := by
  fun_induction moreArguments proc i generalizing as with
  | case1 => cases h
  | case2 => cases h; exact next_some_lt ‹_›
  | case3 => cases h
  | case4 i _ _ i₁ hn a i₂ ha ih =>
    obtain ⟨as', -, hr⟩ := ok_of_map h
    have := ih hr
    have := argument_lt ha
    have := next_some_lt hn
    omega
  | case5 => cases h

theorem arguments_lt {i i' : Input} {proc : String} {as : List ArgDecl}
    (h : i.arguments proc = .ok (as, i')) : i'.rest.length < i.rest.length := by
  unfold arguments at h
  split at h
  · cases h; exact next_some_lt ‹_›
  · obtain ⟨p, ha, h⟩ := ok_of_bind h
    obtain ⟨q, hm, h⟩ := ok_of_bind h
    cases h
    exact Nat.lt_trans (moreArguments_lt hm) (argument_lt ha)

theorem statements_lt {i i' : Input} {ss : List Stmt} (h : i.statements = .ok (ss, i')) :
    i'.rest.length < i.rest.length := by
  fun_induction statements i generalizing ss with
  | case1 => cases h
  | case2 => cases h; exact statement_lt ‹_›
  | case3 i s i₁ hs ih =>
    obtain ⟨ss', -, hr⟩ := ok_of_map h
    exact Nat.lt_trans (ih hr) (statement_lt hs)

theorem procedure_lt {i i' : Input} {pos : Nat} {p : ProcDecl} (h : i.procedure pos = .ok (p, i')) :
    i'.rest.length < i.rest.length := by
  obtain ⟨p₁, h₁, h⟩ := ok_of_bind h
  obtain ⟨i₂, h₂, h⟩ := ok_of_bind h
  obtain ⟨p₃, h₃, h⟩ := ok_of_bind h
  obtain ⟨i₄, h₄, h⟩ := ok_of_bind h
  obtain ⟨p₅, h₅, h⟩ := ok_of_bind h
  cases h
  have := name_lt h₁
  have := expect_lt (inside_ok h₂)
  have := arguments_lt h₃
  have := expect_lt (inside_ok h₄)
  have := statements_lt (inside_ok h₅)
  omega

/-- The declarations of a file, up to the end of the input. -/
def declarations (i : Input) : Except ParseError SourceFile :=
  match _hn : i.next with
  | .error e => .error e
  | .ok (none, _) => .ok {}
  | .ok (some ⟨.keyword .ffi, _, _⟩, i₁) =>
    match _h : inside .ffi i₁.name with
    | .error e => .error e
    | .ok (id, i₂) => i₂.declarations.map fun f => { f with foreign := id :: f.foreign }
  | .ok (some ⟨.keyword .proc, pos, _⟩, i₁) =>
    match _h : inside .proc (i₁.procedure pos) with
    | .error e => .error e
    | .ok (p, i₂) => i₂.declarations.map fun f => { f with procs := p :: f.procs }
  | .ok (some l, _) => .error (.itemExpected l.start (some l.token))
termination_by i.rest.length
decreasing_by
  · exact Nat.lt_trans (name_lt (inside_ok ‹_›)) (next_some_lt ‹_›)
  · exact Nat.lt_trans (procedure_lt (inside_ok ‹_›)) (next_some_lt ‹_›)

end Input

/-- The syntax tree of a text given as bytes. -/
def SourceFile.parse (bytes : List UInt8) : Except ParseError SourceFile :=
  let (rest, ending) := lexemes bytes
  Input.declarations { stop := 0, rest, ending }

end ProcCompiler
