import ProcCompiler.Syntax
import ProcCompiler.Syntax.ParseError
/-!
# The parts of a text

The parser reads lexemes one by one from an `Input`. Here are the parts of bounded length: names,
single arguments, single statements.

* `name_lt`, `argument_lt`, `statement_lt`: every part takes at least a token.
-/
namespace ProcCompiler

/-- A sequence succeeds only if its first step does. -/
theorem ok_of_bind {ε α β : Type} {x : Except ε α} {f : α → Except ε β} {b : β}
    (h : (x >>= f) = .ok b) :
    ∃ a, x = .ok a ∧ f a = .ok b := by
  cases x with
  | error e => cases h
  | ok a => exact ⟨a, rfl, h⟩

/-- Marks an error as one inside a construct. -/
def inside {α : Type} (context : Context) (r : Except ParseError α) : Except ParseError α :=
  r.mapError (.within context)

/-- What is left to parse: where the last token ended, the lexemes to come, and the ending. -/
structure Input where
  stop : Nat
  rest : List Lexeme
  ending : Ending
deriving DecidableEq

namespace Input

/-- The next lexeme, `none` at the end of the input. -/
def next (i : Input) : Except ParseError (Option Lexeme × Input) :=
  match i.rest with
  | l :: rest => .ok (some l, { i with stop := l.stop, rest })
  | [] =>
    match i.ending with
    | .eof _ => .ok (none, i)
    | .failed e => .error (.lex e)

/-- Where the next token starts, or the end of the input. -/
def start (i : Input) : Nat :=
  match i.rest with
  | l :: _ => l.start
  | [] =>
    match i.ending with
    | .eof pos => pos
    | .failed _ => i.stop

theorem next_some_lt {i i' : Input} {l : Lexeme} (h : i.next = .ok (some l, i')) :
    i'.rest.length < i.rest.length := by
  unfold next at h
  split at h
  · cases h; simp_all
  · split at h <;> cases h

theorem next_le {i i' : Input} {l : Option Lexeme} (h : i.next = .ok (l, i')) :
    i'.rest.length ≤ i.rest.length := by
  unfold next at h
  split at h
  · cases h; simp_all
  · split at h
    · cases h; exact Nat.le_refl _
    · cases h

/-! ## Parts -/

/-- A name that is no keyword. -/
def name (i : Input) : Except ParseError (Ident × Input) := do
  match ← i.next with
  | (some ⟨.name s, start, stop⟩, i') => return ({ span := ⟨start, stop⟩, name := s }, i')
  | (found, _) => throw (.nameExpected i.stop (found.map (·.token)))

/-- The given token. -/
def expect (want : Token) (i : Input) : Except ParseError Input := do
  let (found, i') ← i.next
  if found.map (·.token) = some want then return i'
  else throw (.tokenExpected i.stop want (found.map (·.token)))

/-- An argument: its access, which may be any word, its name and its size. -/
def argument (proc : String) (i : Input) : Except ParseError (ArgDecl × Input) := do
  let (found, i₁) ← i.next
  match found, found.bind (·.token.word?) with
  | some l, some access =>
    let (name, i₂) ← inside (.argument proc) i₁.name
    match ← i₂.next with
    | (some ⟨.number size, _, stop⟩, i₃) =>
      let access : Ident := { span := ⟨l.start, l.stop⟩, name := access }
      return ({ span := ⟨l.start, stop⟩, access, name, size }, i₃)
    | (found, _) => throw (.sizeExpected i₂.start proc name.name (found.map (·.token)))
  | _, _ => throw (.accessExpected i.start proc (found.map (·.token)))

/-- The rest of a statement that starts with a name: a label or a copy. -/
def afterName (id : Ident) (i : Input) : Except ParseError (Stmt × Input) := do
  match ← i.next with
  | (some ⟨.punct .colon, _, _⟩, i') => return (.label id, i')
  | (some ⟨.punct .equals, _, _⟩, i') =>
    let (src, i') ← inside (.assign id.name) i'.name
    return (.move id src, i')
  | (found, _) => throw (.operatorExpected i.stop id.name (found.map (·.token)))

/-- A conditional jump, after its first word. -/
def branch (i : Input) : Except ParseError (Stmt × Input) := do
  let (cond, i) ← i.name
  let i ← i.expect (.keyword .goto)
  let (yes, i) ← i.name
  let i ← i.expect (.keyword .else)
  let (no, i) ← i.name
  return (.branch cond yes no, i)

/-- A call, after its first word. -/
def call (i : Input) : Except ParseError (Stmt × Input) := do
  let (fn, i) ← i.name
  let (var, i) ← i.name
  return (.call fn var, i)

/-- A jump, after its first word. -/
def goto (i : Input) : Except ParseError (Stmt × Input) := do
  let (target, i) ← i.name
  return (.goto target, i)

/-- A statement, or `none` at the brace that closes the body. -/
def statement (i : Input) : Except ParseError (Option Stmt × Input) := do
  match ← i.next with
  | (none, _) => throw (.bodyUnclosed i.start)
  | (some ⟨.punct .closeBrace, _, _⟩, i') => return (none, i')
  | (some ⟨.keyword .return, start, stop⟩, i') => return (some (.ret ⟨start, stop⟩), i')
  | (some ⟨.keyword .goto, _, _⟩, i') => (inside .goto i'.goto).map fun (s, i) => (some s, i)
  | (some ⟨.keyword .call, _, _⟩, i') => (inside .call i'.call).map fun (s, i) => (some s, i)
  | (some ⟨.keyword .if, _, _⟩, i') => (inside .branch i'.branch).map fun (s, i) => (some s, i)
  | (some ⟨.name s, start, stop⟩, i') =>
    (i'.afterName { span := ⟨start, stop⟩, name := s }).map fun (s, i) => (some s, i)
  | (some l, _) => throw (.statementExpected i.start (some l.token))

/-! ## Progress -/

theorem inside_ok {α : Type} {context : Context} {r : Except ParseError α} {a : α}
    (h : inside context r = .ok a) : r = .ok a := by
  cases r with
  | error e => cases h
  | ok b => exact h

theorem name_lt {i i' : Input} {id : Ident} (h : i.name = .ok (id, i')) :
    i'.rest.length < i.rest.length := by
  obtain ⟨p, hn, h⟩ := ok_of_bind h
  split at h
  · cases h; exact next_some_lt hn
  · cases h

theorem expect_lt {i i' : Input} {want : Token} (h : i.expect want = .ok i') :
    i'.rest.length < i.rest.length := by
  obtain ⟨⟨l, j⟩, hn, h⟩ := ok_of_bind h
  cases l with
  | none => cases h
  | some l =>
    dsimp only at h
    split at h
    · cases h; exact next_some_lt hn
    · cases h

theorem argument_lt {i i' : Input} {proc : String} {a : ArgDecl}
    (h : i.argument proc = .ok (a, i')) :
    i'.rest.length < i.rest.length := by
  obtain ⟨⟨l, i₁⟩, hn, h⟩ := ok_of_bind h
  dsimp only at h
  split at h
  · obtain ⟨p, hm, h⟩ := ok_of_bind h
    obtain ⟨q, hs, h⟩ := ok_of_bind h
    split at h
    · cases h
      have hlt := Nat.lt_of_lt_of_le (name_lt (inside_ok hm)) (next_le hn)
      exact Nat.lt_of_le_of_lt (next_le hs) hlt
    · cases h
  · cases h

theorem afterName_lt {i i' : Input} {id : Ident} {s : Stmt} (h : i.afterName id = .ok (s, i')) :
    i'.rest.length < i.rest.length := by
  obtain ⟨p, hn, h⟩ := ok_of_bind h
  split at h
  · cases h; exact next_some_lt hn
  · obtain ⟨q, hm, h⟩ := ok_of_bind h
    cases h
    exact Nat.lt_trans (name_lt (inside_ok hm)) (next_some_lt hn)
  · cases h

theorem goto_lt {i i' : Input} {s : Stmt} (h : i.goto = .ok (s, i')) :
    i'.rest.length < i.rest.length := by
  obtain ⟨p, hn, h⟩ := ok_of_bind h
  cases h
  exact name_lt hn

theorem call_lt {i i' : Input} {s : Stmt} (h : i.call = .ok (s, i')) :
    i'.rest.length < i.rest.length := by
  obtain ⟨p, hf, h⟩ := ok_of_bind h
  obtain ⟨q, hv, h⟩ := ok_of_bind h
  cases h
  exact Nat.lt_trans (name_lt hv) (name_lt hf)

theorem branch_lt {i i' : Input} {s : Stmt} (h : i.branch = .ok (s, i')) :
    i'.rest.length < i.rest.length := by
  obtain ⟨p₁, h₁, h⟩ := ok_of_bind h
  obtain ⟨i₂, h₂, h⟩ := ok_of_bind h
  obtain ⟨p₃, h₃, h⟩ := ok_of_bind h
  obtain ⟨i₄, h₄, h⟩ := ok_of_bind h
  obtain ⟨p₅, h₅, h⟩ := ok_of_bind h
  cases h
  have := name_lt h₁
  have := expect_lt h₂
  have := name_lt h₃
  have := expect_lt h₄
  have := name_lt h₅
  omega

/-- Changing the result of a part does not change what is left. -/
theorem ok_of_map {α β : Type} {f : α → β} {b : β} {i' : Input} {r : Except ParseError (α × Input)}
    (h : (r.map fun (a, i) => (f a, i)) = .ok (b, i')) : ∃ a, b = f a ∧ r = .ok (a, i') := by
  cases r with
  | error e => cases h
  | ok p => cases h; exact ⟨p.1, rfl, rfl⟩

theorem statement_lt {i i' : Input} {s : Option Stmt} (h : i.statement = .ok (s, i')) :
    i'.rest.length < i.rest.length := by
  obtain ⟨p, hn, h⟩ := ok_of_bind h
  split at h
  · cases h
  · cases h; exact next_some_lt hn
  · cases h; exact next_some_lt hn
  · obtain ⟨s', -, hs⟩ := ok_of_map h
    exact Nat.lt_trans (goto_lt (inside_ok hs)) (next_some_lt hn)
  · obtain ⟨s', -, hs⟩ := ok_of_map h
    exact Nat.lt_trans (call_lt (inside_ok hs)) (next_some_lt hn)
  · obtain ⟨s', -, hs⟩ := ok_of_map h
    exact Nat.lt_trans (branch_lt (inside_ok hs)) (next_some_lt hn)
  · obtain ⟨s', -, hs⟩ := ok_of_map h
    exact Nat.lt_trans (afterName_lt hs) (next_some_lt hn)
  · cases h

end Input

end ProcCompiler
