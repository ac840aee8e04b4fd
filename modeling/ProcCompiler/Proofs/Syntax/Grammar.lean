import ProcCompiler.Proofs.Source.Static
import ProcCompiler.Token.Lexer
/-!
# The grammar

    File ::= ('ffi' NAME | 'proc' NAME '(' [Arg {',' Arg}] ')' '{' Stmt* '}')*
    Arg  ::= WORD NAME NUMBER
    Stmt ::= NAME '=' NAME | NAME ':' | 'call' NAME NAME | 'goto' NAME
           | 'if' NAME 'goto' NAME 'else' NAME | 'return'

A word may be a keyword, a name is none. What tokens derive is a syntax tree whose parts have no
places yet. The tokens of a text are those that the lexer finds, one after another from its start.

* `FileTokens`: the tokens of a file.
* `SourceFile.unplaced`: a syntax tree without its places.
* `Lexes`: the tokens of a text, if all of it can be read.
* `lexes_iff`: they are the tokens of the lexemes.
-/
namespace ProcCompiler

/-! ## Classes of tokens -/

theorem Keyword.ofText?_text (k : Keyword) : ofText? k.text = some k := by
  cases k <;> decide

namespace Token

/-- An identifier, keyword or not. -/
def IsWord (t : Token) (s : String) : Prop := t.word? = some s

/-- An identifier that is no keyword. -/
def IsName (t : Token) (s : String) : Prop := t.IsWord s ∧ Keyword.ofText? s = none

theorem isName_iff {t : Token} {s : String} :
    t.IsName s ↔ t = .name s ∧ Keyword.ofText? s = none := by
  cases t with
  | name n => simp [IsName, IsWord, word?]
  | keyword k =>
    simp only [IsName, IsWord, word?, Option.some.injEq, reduceCtorEq, false_and, iff_false]
    rintro ⟨rfl, h⟩
    rw [Keyword.ofText?_text] at h
    cases h
  | punct p => simp [IsName, IsWord, word?]
  | number n => simp [IsName, IsWord, word?]

theorem not_isName_keyword {k : Keyword} {s : String} : ¬ (keyword k).IsName s := by
  simp [isName_iff]

end Token

/-! ## Derivations -/

/-- Any number of parts. -/
inductive Many {α : Type} (part : List Token → α → Prop) : List Token → List α → Prop where
  | nil : Many part [] []
  | cons {us ts : List Token} {a : α} {as : List α} (ha : part us a) (has : Many part ts as) :
      Many part (us ++ ts) (a :: as)

theorem Many.exists_of_mem {α : Type} {part : List Token → α → Prop} {ts : List Token} {as : List α}
    (h : Many part ts as) {a : α} (ha : a ∈ as) : ∃ us, part us a := by
  induction h with
  | nil => cases ha
  | cons hb _ ih =>
    rcases List.mem_cons.mp ha with rfl | ha
    · exact ⟨_, hb⟩
    · exact ih ha

/-- A part after a comma. -/
inductive AfterComma {α : Type} (part : List Token → α → Prop) : List Token → α → Prop where
  | comma {us : List Token} {a : α} (ha : part us a) : AfterComma part (.punct .comma :: us) a

/-- The tokens of a statement. -/
inductive StmtTokens : List Token → Stmt → Prop where
  | move {t u : Token} {dst src : String} (ht : t.IsName dst) (hu : u.IsName src) :
      StmtTokens [t, .punct .equals, u] (.move (.bare dst) (.bare src))
  | label {t : Token} {name : String} (ht : t.IsName name) :
      StmtTokens [t, .punct .colon] (.label (.bare name))
  | call {t u : Token} {fn var : String} (ht : t.IsName fn) (hu : u.IsName var) :
      StmtTokens [.keyword .call, t, u] (.call (.bare fn) (.bare var))
  | goto {t : Token} {target : String} (ht : t.IsName target) :
      StmtTokens [.keyword .goto, t] (.goto (.bare target))
  | branch {t u v : Token} {cond yes no : String} (ht : t.IsName cond) (hu : u.IsName yes)
      (hv : v.IsName no) :
      StmtTokens [.keyword .if, t, .keyword .goto, u, .keyword .else, v]
        (.branch (.bare cond) (.bare yes) (.bare no))
  | ret : StmtTokens [.keyword .return] (.ret ⟨0, 0⟩)

/-- The tokens of an argument. -/
inductive ArgTokens : List Token → ArgDecl → Prop where
  | arg {t u : Token} {access name : String} {size : Nat} (ht : t.IsWord access)
      (hu : u.IsName name) :
      ArgTokens [t, u, .number size]
        { span := ⟨0, 0⟩, access := .bare access, name := .bare name, size := size }

theorem ArgTokens.starts_with_word {us : List Token} {a : ArgDecl} (h : ArgTokens us a) :
    ∃ t vs s, us = t :: vs ∧ t.IsWord s := by
  cases h with
  | arg ht _ => exact ⟨_, _, _, rfl, ht⟩

/-- The tokens between the parentheses of a procedure. -/
inductive ArgsTokens : List Token → List ArgDecl → Prop where
  | none : ArgsTokens [] []
  | some {us ts : List Token} {a : ArgDecl} {as : List ArgDecl} (ha : ArgTokens us a)
      (has : Many (AfterComma ArgTokens) ts as) : ArgsTokens (us ++ ts) (a :: as)

/-- The tokens of a procedure. -/
inductive ProcTokens : List Token → ProcDecl → Prop where
  | proc {t : Token} {name : String} {us ts : List Token} {args : List ArgDecl} {body : List Stmt}
      (ht : t.IsName name) (hargs : ArgsTokens us args) (hbody : Many StmtTokens ts body) :
      ProcTokens (.keyword .proc :: t :: .punct .openParen :: us ++ .punct .closeParen ::
        .punct .openBrace :: ts ++
        [.punct .closeBrace]) { span := ⟨0, 0⟩, name := .bare name, args, body }

theorem ProcTokens.starts_with_proc {us : List Token} {x : ProcDecl} (h : ProcTokens us x) :
    ∃ vs, us = .keyword .proc :: vs := by
  cases h with
  | proc _ _ _ => exact ⟨_, rfl⟩

/-- The tokens of a file. -/
inductive FileTokens : List Token → SourceFile → Prop where
  | nil : FileTokens [] {}
  | ffi {t : Token} {name : String} {ts : List Token} {f : SourceFile} (ht : t.IsName name)
      (hf : FileTokens ts f) : FileTokens (.keyword .ffi :: t :: ts)
        { f with foreign := .bare name :: f.foreign }
  | proc {us ts : List Token} {p : ProcDecl} {f : SourceFile} (hp : ProcTokens us p)
      (hf : FileTokens ts f) :
      FileTokens (us ++ ts) { f with procs := p :: f.procs }

/-! ## Trees without places -/

def Stmt.unplaced : Stmt → Stmt
  | .label name => .label (.bare name.name)
  | .move dst src => .move (.bare dst.name) (.bare src.name)
  | .call fn var => .call (.bare fn.name) (.bare var.name)
  | .goto target => .goto (.bare target.name)
  | .branch cond yes no => .branch (.bare cond.name) (.bare yes.name) (.bare no.name)
  | .ret _ => .ret ⟨0, 0⟩
  | .unknown => .unknown

def ArgDecl.unplaced (a : ArgDecl) : ArgDecl :=
  { span := ⟨0, 0⟩, access := .bare a.access.name, name := .bare a.name.name, size := a.size }

def ProcDecl.unplaced (x : ProcDecl) : ProcDecl where
  span := ⟨0, 0⟩
  name := .bare x.name.name
  args := x.args.map ArgDecl.unplaced
  body := x.body.map Stmt.unplaced

def SourceFile.unplaced (f : SourceFile) : SourceFile where
  foreign := f.foreign.map fun id => .bare id.name
  procs := f.procs.map ProcDecl.unplaced

/-! ## The tokens of a text -/

/-- The tokens that the lexer finds from a cursor on, if it comes to the end of the input. -/
inductive Lexes : Cursor → List Token → Prop where
  | done {c : Cursor} (h : c.next = .eof) : Lexes c []
  | more {c c' : Cursor} {t : Token} {ts : List Token} (h : c.next = .token t c')
      (hs : Lexes c' ts) :
      Lexes c (t :: ts)

namespace Cursor

theorem next_ne_comment {c after : Cursor} : c.next ≠ .comment after := by
  fun_induction next c with
  | case1 c after hs ih => exact ih
  | case2 => simp
  | case3 => simp
  | case4 => simp

/-- A word that is found is a keyword if it can be one. -/
theorem ofText?_of_item {c c' : Cursor} {b : UInt8} {rest : List UInt8} {s : String}
    (h : c.item b rest = .token (.name s) c') : Keyword.ofText? s = none := by
  unfold item at h
  split at h
  · cases h
  · split at h
    · cases h
    · split at h
      · dsimp only at h
        split at h <;> cases h
      · split at h
        · injection h with h _
          unfold Token.ofWord at h
          split at h
          · cases h
          · cases h; assumption
        · cases h

theorem ofText?_of_next {c c' : Cursor} {s : String} (h : c.next = .token (.name s) c') :
    Keyword.ofText? s = none := by
  fun_induction next c with
  | case1 c after hs ih => exact ih h
  | case2 => cases h
  | case3 c t after hs =>
    cases h
    unfold scan at hs
    split at hs
    · cases hs
    · exact ofText?_of_item hs
  | case4 => cases h

/-- No name among the lexemes is a keyword. -/
theorem ofText?_of_lexemes {c : Cursor} {l : Lexeme} (hl : l ∈ c.lexemes.1) {s : String}
    (hs : l.token = .name s) : Keyword.ofText? s = none := by
  fun_induction lexemes c with
  | case1 c t after h more ih =>
    rcases List.mem_cons.mp hl with rfl | hl
    · subst hs
      exact ofText?_of_next h
    · exact ih hl
  | case2 => cases hl
  | case3 => cases hl
  | case4 => cases hl

end Cursor

/-- All of the text can be read if the lexemes end with the input. -/
theorem lexes_iff {c : Cursor} {ts : List Token} :
    Lexes c ts ↔ c.lexemes.1.map Lexeme.token = ts ∧ ∃ pos, c.lexemes.2 = .eof pos := by
  constructor
  · intro h
    induction h with
    | @done c h =>
      rw [Cursor.lexemes]
      split
      all_goals simp_all
    | @more c c' t ts h _ ih =>
      rw [Cursor.lexemes]
      split
      all_goals simp_all
  · rintro ⟨rfl, pos, hend⟩
    fun_induction Cursor.lexemes c with
    | case1 c t after h more ih => exact .more h (ih hend)
    | case2 => cases hend
    | case3 c h => exact .done h
    | case4 c after h => exact absurd h Cursor.next_ne_comment

end ProcCompiler
