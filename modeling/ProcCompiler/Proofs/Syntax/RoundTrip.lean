import ProcCompiler.Proofs.Syntax.Derivation
import ProcCompiler.Proofs.Syntax.Spelling
/-!
# Parsing undoes printing

A file is printed as the tokens of its items, foreign functions and procedures in any order that
keeps the order among the foreign functions and the order among the procedures. The tokens are
written with any layout. What is parsed from such a text is the file that was printed, but for the
places of its parts.

* `Stmt.tokens`, `ArgDecl.tokens`, `ProcDecl.tokens`, `Item.tokens`: printing.
* `SourceFile.Legible`: the files that can be printed.
* `SourceFile.Rendered`: the texts that a file may be printed as.
* `fileTokens_items`: what is printed derives the file.
* `parse_rendered`: it is parsed to the file.
-/
namespace ProcCompiler

/-! ## Printing -/

def Stmt.tokens : Stmt → List Token
  | .label name => [.name name.name, .punct .colon]
  | .move dst src => [.name dst.name, .punct .equals, .name src.name]
  | .call fn var => [.keyword .call, .name fn.name, .name var.name]
  | .goto target => [.keyword .goto, .name target.name]
  | .branch cond yes no =>
    [.keyword .if, .name cond.name, .keyword .goto, .name yes.name, .keyword .else, .name no.name]
  | .ret _ => [.keyword .return]
  | .unknown => []

def ArgDecl.tokens (a : ArgDecl) : List Token :=
  [.ofWord a.access.name, .name a.name.name, .number a.size.toNat]

def ProcDecl.tokens (x : ProcDecl) : List Token :=
  .keyword .proc :: .name x.name.name :: .punct .openParen ::
    List.intercalate [.punct .comma] (x.args.map ArgDecl.tokens) ++
    .punct .closeParen :: .punct .openBrace :: x.body.flatMap Stmt.tokens ++ [.punct .closeBrace]

/-- A declaration of a file. -/
inductive Item where
  | foreign (id : Ident)
  | proc (x : ProcDecl)

namespace Item

def tokens : Item → List Token
  | foreign id => [.keyword .ffi, .name id.name]
  | proc x => x.tokens

def foreign? : Item → Option Ident
  | foreign id => some id
  | proc _ => none

def proc? : Item → Option ProcDecl
  | foreign _ => none
  | proc x => some x

/-- The file with the given items. -/
def file (items : List Item) : SourceFile where
  foreign := items.filterMap foreign?
  procs := items.filterMap proc?

end Item

/-- The text writes the items of the file, in some order of the two kinds among each other. -/
def SourceFile.Rendered (f : SourceFile) (bytes : List UInt8) : Prop :=
  ∃ items, Item.file items = f ∧ Laid none (items.flatMap Item.tokens) bytes

/-! ## What can be printed -/

/-- A name is an identifier other than a keyword. -/
def Ident.Legible (id : Ident) : Prop :=
  isIdentifier id.name = true ∧ Keyword.ofText? id.name = none

def Stmt.Legible : Stmt → Prop
  | .label name => name.Legible
  | .move dst src => dst.Legible ∧ src.Legible
  | .call fn var => fn.Legible ∧ var.Legible
  | .goto target => target.Legible
  | .branch cond yes no => cond.Legible ∧ yes.Legible ∧ no.Legible
  | .ret _ => True
  | .unknown => False

/-- The kind of an argument may be a keyword; its size fits into a signed word of 64 bits. -/
structure ArgDecl.Legible (a : ArgDecl) : Prop where
  kind : isIdentifier a.access.name = true
  name : a.name.Legible
  nonneg : 0 ≤ a.size
  le : a.size ≤ 9223372036854775807

structure ProcDecl.Legible (x : ProcDecl) : Prop where
  name : x.name.Legible
  args : ∀ a ∈ x.args, a.Legible
  body : ∀ s ∈ x.body, s.Legible

structure SourceFile.Legible (f : SourceFile) : Prop where
  foreign : ∀ id ∈ f.foreign, id.Legible
  procs : ∀ x ∈ f.procs, x.Legible

def Item.Legible : Item → Prop
  | foreign id => id.Legible
  | proc x => x.Legible

theorem SourceFile.Legible.items {items : List Item} (h : (Item.file items).Legible) :
    ∀ x ∈ items, x.Legible
  | .foreign id, hx => h.foreign id (List.mem_filterMap.mpr ⟨_, hx, rfl⟩)
  | .proc x, hx => h.procs x (List.mem_filterMap.mpr ⟨_, hx, rfl⟩)

/-! ## What is printed derives what was printed -/

theorem Keyword.text_of_ofText? {s : String} {k : Keyword} (h : ofText? s = some k) :
    k.text = s := by
  simpa using List.find?_some h

theorem Token.isWord_ofWord (s : String) : (ofWord s).IsWord s := by
  unfold ofWord IsWord
  cases h : Keyword.ofText? s with
  | none => rfl
  | some k => exact congrArg some (Keyword.text_of_ofText? h)

theorem Token.legible_ofWord {s : String} (h : isIdentifier s = true) : (ofWord s).Legible := by
  unfold ofWord
  cases hk : Keyword.ofText? s with
  | none => exact ⟨h, hk⟩
  | some k => trivial

theorem Ident.Legible.isName {id : Ident} (h : id.Legible) : (Token.name id.name).IsName id.name :=
  Token.isName_iff.mpr ⟨rfl, h.2⟩

theorem Stmt.Legible.derives {s : Stmt} (h : s.Legible) : StmtTokens s.tokens s.unplaced := by
  cases s with
  | label name => exact .label h.isName
  | move dst src => exact .move h.1.isName h.2.isName
  | call fn var => exact .call h.1.isName h.2.isName
  | goto target => exact .goto h.isName
  | branch cond yes no => exact .branch h.1.isName h.2.1.isName h.2.2.isName
  | ret span => exact .ret
  | unknown => exact h.elim

theorem ArgDecl.Legible.derives {a : ArgDecl} (h : a.Legible) : ArgTokens a.tokens a.unplaced := by
  have ha : ArgTokens a.tokens { a.unplaced with size := a.size.toNat } :=
    .arg (Token.isWord_ofWord a.access.name) h.name.isName
  rwa [Int.toNat_of_nonneg h.nonneg] at ha

theorem many_flatMap {α β : Type} {part : List Token → β → Prop} {print : α → List Token}
    {view : α → β} {as : List α} (h : ∀ a ∈ as, part (print a) (view a)) :
    Many part (as.flatMap print) (as.map view) := by
  induction as with
  | nil => exact .nil
  | cons a as ih => exact .cons (h a (.head _)) (ih fun b hb => h b (.tail _ hb))

/-- Between two parts stands the separator, so there is one before each part but the first. -/
theorem intercalate_cons {α : Type} (sep x : List α) (xs : List (List α)) :
    List.intercalate sep (x :: xs) = x ++ xs.flatMap (sep ++ ·) := by
  induction xs generalizing x with
  | nil => simp
  | cons y ys ih =>
    rw [List.intercalate_cons_cons, ih, List.flatMap_cons, List.append_assoc, List.append_assoc]

theorem argsTokens_intercalate {args : List ArgDecl} (h : ∀ a ∈ args, a.Legible) :
    ArgsTokens (List.intercalate [.punct .comma] (args.map ArgDecl.tokens))
      (args.map ArgDecl.unplaced) := by
  cases args with
  | nil => exact .none
  | cons a as =>
    rw [List.map_cons, intercalate_cons, List.flatMap_map]
    exact .some (h a (.head _)).derives (many_flatMap fun b hb => .comma (h b (.tail _ hb)).derives)

theorem ProcDecl.Legible.derives {x : ProcDecl} (h : x.Legible) : ProcTokens x.tokens x.unplaced :=
  .proc h.name.isName (argsTokens_intercalate h.args)
    (many_flatMap fun s hs => (h.body s hs).derives)

/-- What is printed derives the file of the items. -/
theorem fileTokens_items {items : List Item} (h : ∀ x ∈ items, x.Legible) :
    FileTokens (items.flatMap Item.tokens) (Item.file items).unplaced := by
  induction items with
  | nil => exact .nil
  | cons x items ih =>
    have hf := ih fun y hy => h y (.tail _ hy)
    cases x with
    | foreign id => exact .ffi (Ident.Legible.isName (h _ (.head _))) hf
    | proc x => exact .proc (ProcDecl.Legible.derives (h _ (.head _))) hf

/-! ## What is printed can be read -/

theorem Stmt.Legible.tokens {s : Stmt} (h : s.Legible) : ∀ t ∈ s.tokens, t.Legible := by
  cases s <;> simp_all [Stmt.tokens, Stmt.Legible, Token.Legible, Ident.Legible]

theorem ArgDecl.Legible.tokens {a : ArgDecl} (h : a.Legible) : ∀ t ∈ a.tokens, t.Legible := by
  intro t ht
  simp only [ArgDecl.tokens, List.mem_cons, List.not_mem_nil, or_false] at ht
  rcases ht with rfl | rfl | rfl
  · exact Token.legible_ofWord h.kind
  · exact h.name
  · have hle := h.le
    show a.size.toNat ≤ 9223372036854775807
    omega

theorem ProcDecl.Legible.tokens {x : ProcDecl} (h : x.Legible) : ∀ t ∈ x.tokens, t.Legible := by
  intro t ht
  simp only [ProcDecl.tokens, List.mem_append, List.mem_cons, List.not_mem_nil, or_false] at ht
  rcases ht with ((rfl | rfl | rfl | ht) | rfl | rfl | ht) | rfl
  all_goals try trivial
  · exact h.name
  · cases hargs : x.args with
    | nil => simp [hargs] at ht
    | cons a as =>
      rw [hargs, List.map_cons, intercalate_cons, List.flatMap_map, List.mem_append] at ht
      rcases ht with ht | ht
      · exact (h.args a (by simp [hargs])).tokens t ht
      · obtain ⟨b, hb, ht⟩ := List.mem_flatMap.mp ht
        rcases List.mem_cons.mp ht with rfl | ht
        · trivial
        · exact (h.args b (by simp [hargs, hb])).tokens t ht
  · obtain ⟨s, hs, ht⟩ := List.mem_flatMap.mp ht
    exact (h.body s hs).tokens t ht

theorem Item.Legible.tokens : ∀ {x : Item}, x.Legible → ∀ t ∈ x.tokens, t.Legible
  | .foreign _, h => by
    intro t ht
    simp only [Item.tokens, List.mem_cons, List.not_mem_nil, or_false] at ht
    rcases ht with rfl | rfl
    · trivial
    · exact h
  | .proc _, h => ProcDecl.Legible.tokens h

/-! ## Round trip -/

theorem Item.file_append (items items' : List Item) : file (items ++ items') =
    { foreign := (file items).foreign ++ (file items').foreign
      procs := (file items).procs ++ (file items').procs } := by
  simp [file]

/-- Every file can be printed, for instance with the foreign functions first. -/
theorem SourceFile.exists_rendered (f : SourceFile) : ∃ bytes, f.Rendered bytes := by
  have hforeign : ∀ ids : List Ident,
      Item.file (ids.map .foreign) = { foreign := ids, procs := [] } := by
    intro ids
    simp [Item.file, List.filterMap_map, Function.comp_def, Item.foreign?, Item.proc?]
  have hprocs : ∀ xs : List ProcDecl,
      Item.file (xs.map .proc) = { foreign := [], procs := xs } := by
    intro xs
    simp [Item.file, List.filterMap_map, Function.comp_def, Item.foreign?, Item.proc?]
  obtain ⟨bytes, h⟩ :=
    exists_laid none ((f.foreign.map Item.foreign ++ f.procs.map Item.proc).flatMap Item.tokens)
  exact ⟨bytes, _, by rw [Item.file_append, hforeign, hprocs]; simp, h⟩

/-- A legible file can be printed, and whatever text it is printed as is parsed to the file, but for
places. -/
theorem parse_rendered {f : SourceFile} (hf : f.Legible) : (∃ bytes, f.Rendered bytes) ∧
    ∀ bytes, f.Rendered bytes → ∃ f', SourceFile.parse bytes = .ok f' ∧
      f'.unplaced = f.unplaced := by
  refine ⟨f.exists_rendered, ?_⟩
  rintro bytes ⟨items, rfl, hbytes⟩
  have hitems := hf.items
  refine SourceFile.parse_of_derives (hbytes.lexes (fun t ht => ?_) 0) (fileTokens_items hitems)
  obtain ⟨x, hx, ht⟩ := List.mem_flatMap.mp ht
  exact (hitems x hx).tokens t ht

/-- A procedure before the foreign function, an argument of the kind `if`, a size with zeros in
front, a comment that is no valid text, marks that touch words, and a comment that ends with the
text. -/
def crampedText : List UInt8 :=
  utf8 "//" ++ [0xFF, 0x0A] ++ utf8 "proc p(if x 007)\x7bx=x\treturn\x7dffi f//"

def crampedProc : ProcDecl where
  span := ⟨0, 0⟩
  name := .bare "p"
  args := [{ span := ⟨0, 0⟩, access := .bare "if", name := .bare "x", size := 7 }]
  body := [.move (.bare "x") (.bare "x"), .ret ⟨0, 0⟩]

def crampedFile : SourceFile where
  foreign := [.bare "f"]
  procs := [crampedProc]

theorem legible_crampedFile : crampedFile.Legible := by
  have hname : ∀ s ∈ ["f", "p", "x"], (Ident.bare s).Legible := by
    unfold Ident.Legible
    decide
  refine ⟨?_, ?_⟩
  · simpa [crampedFile] using hname "f" (by decide)
  · simp only [crampedFile, crampedProc, List.mem_singleton, forall_eq]
    refine ⟨hname "p" (by decide), ?_, ?_⟩
    · simp only [List.mem_singleton, forall_eq]
      exact ⟨by decide, hname "x" (by decide), by decide, by decide⟩
    · intro s hs
      simp only [List.mem_cons, List.not_mem_nil, or_false] at hs
      rcases hs with rfl | rfl
      · exact ⟨hname "x" (by decide), hname "x" (by decide)⟩
      · trivial

theorem rendered_crampedText : crampedFile.Rendered crampedText := by
  refine ⟨[.proc crampedProc, .foreign (.bare "f")], rfl, ?_⟩
  have hspace : Gap [0x20] := .cons .space .nil
  have htab : Gap [0x09] := .cons .tab .nil
  have hcomment : Gap (0x2F :: 0x2F :: ([0xFF] ++ [0x0A]) ++ []) :=
    .cons (.comment (by decide)) .nil
  have hlaid : Laid none _ _ := .token hcomment (by decide) (.keyword .proc) <|
    .token hspace (by decide) (.name "p") <| .token .nil (by decide) (.punct .openParen) <|
    .token .nil (by decide) (.keyword .if) <| .token hspace (by decide) (.name "x") <|
    .token hspace (by decide) (.number 2 7) <| .token .nil (by decide) (.punct .closeParen) <|
    .token .nil (by decide) (.punct .openBrace) <| .token .nil (by decide) (.name "x") <|
    .token .nil (by decide) (.punct .equals) <| .token .nil (by decide) (.name "x") <|
    .token htab (by decide) (.keyword .return) <| .token .nil (by decide) (.punct .closeBrace) <|
    .token .nil (by decide) (.keyword .ffi) <| .token hspace (by decide) (.name "f") <|
    .done (.comment .nil (List.not_mem_nil (a := 0x0A)))
  convert hlaid using 1 <;> decide +kernel

theorem parse_crampedText : crampedFile.Legible ∧ crampedFile.Rendered crampedText ∧
    ∃ f', SourceFile.parse crampedText = .ok f' ∧ f'.unplaced = crampedFile :=
  ⟨legible_crampedFile, rendered_crampedText,
    (parse_rendered legible_crampedFile).2 _ rendered_crampedText⟩

end ProcCompiler
