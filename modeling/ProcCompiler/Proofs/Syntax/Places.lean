import ProcCompiler.Proofs.Syntax.Placement
import ProcCompiler.Proofs.Syntax.Tiling
/-!
# The places of a parsed file

What knows its place in a file forms a tree: names and returns are leaves, arguments and procedures
hold others. In a file that was parsed, each of these parts is derived by a stretch of lexemes and
goes from the first to the last of them. Since lexemes are ordered and each is written where it
says, so are the parts.

* `Node`, `SourceFile.Has`: the parts of a file that know their places.
* `Spread`: parts derived by stretches of lexemes, one after another.
* `Node.Exact`: a place that is right.
* `parse_places`: all places of a parsed file are.
-/
namespace ProcCompiler

/-! ## Parts with places -/

/-- A part of a syntax tree that knows its place. -/
inductive Node where
  | ident (id : Ident)
  | ret (span : Span)
  | arg (a : ArgDecl)
  | proc (x : ProcDecl)

/-- The parts of a statement, in the order of the text. -/
def Stmt.nodes : Stmt → List Node
  | label name => [.ident name]
  | move dst src => [.ident dst, .ident src]
  | call fn var => [.ident fn, .ident var]
  | goto target => [.ident target]
  | branch cond yes no => [.ident cond, .ident yes, .ident no]
  | ret span => [.ret span]
  | unknown => []

namespace Node

def span : Node → Span
  | ident id => id.span
  | ret span => span
  | arg a => a.span
  | proc x => x.span

/-- The parts right below a part, in the order of the text. -/
def children : Node → List Node
  | ident _ => []
  | ret _ => []
  | arg a => [ident a.access, ident a.name]
  | proc x => ident x.name :: (x.args.map arg ++ x.body.flatMap Stmt.nodes)

end Node

/-- The parts of a file, at any depth. -/
inductive SourceFile.Has (f : SourceFile) : Node → Prop where
  | foreign {id : Ident} (h : id ∈ f.foreign) : f.Has (.ident id)
  | proc {x : ProcDecl} (h : x ∈ f.procs) : f.Has (.proc x)
  | child {n m : Node} (hn : f.Has n) (hm : m ∈ n.children) : f.Has m

def Item.node : Item → Node
  | foreign id => .ident id
  | proc x => .proc x

/-! ## Places that are right -/

namespace Span

def text (bytes : List UInt8) (s : Span) : List UInt8 := bytes.extract s.pos.toNat s.stop.toNat

def Before (s t : Span) : Prop := s.stop ≤ t.pos

def Inside (s t : Span) : Prop := t.pos ≤ s.pos ∧ s.stop ≤ t.stop

end Span

/-- The lexemes of a part. Its place goes from the first to the last. -/
inductive NodeLexemes : List Lexeme → Node → Prop where
  | ident {l : Lexeme} {id : Ident} (h : IdentLexeme l id) : NodeLexemes [l] (.ident id)
  | ret {k : Lexeme} (hk : k.token = .keyword .return) : NodeLexemes [k] (.ret (k.upTo k))
  | arg {us : List Lexeme} {a : ArgDecl} (h : ArgLexemes us a) : NodeLexemes us (.arg a)
  | proc {us : List Lexeme} {x : ProcDecl} (h : ProcLexemes us x) : NodeLexemes us (.proc x)

/-- How the text of a part begins and ends. -/
def Node.Written (text : List UInt8) : Node → Prop
  | ident id => text = utf8 id.name
  | ret _ => text = utf8 "return"
  | arg a => ∃ inner digits, text = utf8 a.access.name ++ inner ++ digits ∧
      (Token.number a.size.toNat).Spelled digits
  | proc _ => ∃ inner, text = utf8 "proc" ++ inner ++ [Punct.closeBrace.byte]

/-- The part stands in the text where it says, from the first of its lexemes to the last; and what
it holds stands inside, in order. -/
structure Node.Exact (bytes : List UInt8) (ls : List Lexeme) (n : Node) : Prop where
  nonneg : 0 ≤ n.span.pos
  lt : n.span.pos < n.span.stop
  le : n.span.stop ≤ bytes.length
  written : n.Written (n.span.text bytes)
  derived : ∃ us, us <:+: ls ∧ NodeLexemes us n
  first : ∃ l ∈ ls, n.span.pos = l.start
  last : ∃ l ∈ ls, n.span.stop = l.stop
  ordered : n.children.Pairwise fun m m' => m.span.Before m'.span
  inside : ∀ m ∈ n.children, m.span.Inside n.span

/-! ## Stretches of lexemes -/

/-- Each lexeme has a byte, and they do not overlap. -/
structure Ordered (us : List Lexeme) : Prop where
  lt : ∀ l ∈ us, l.start < l.stop
  before : us.Pairwise fun l r => l.stop ≤ r.start

theorem Ordered.of_sublist {us vs : List Lexeme} (h : Ordered us) (hs : vs.Sublist us) :
    Ordered vs :=
  ⟨fun l hl => h.lt l (hs.subset hl), h.before.sublist hs⟩

theorem Tiled.isOrdered {pos : Nat} {ls : List Lexeme} {bytes : List UInt8}
    (h : Tiled pos ls bytes) : Ordered ls :=
  ⟨fun _ hl => (h.exact hl).2.1, h.ordered⟩

/-- From the start of the first lexeme to the end of the last. -/
def Covers (us : List Lexeme) (s : Span) : Prop := ∃ l ∈ us.head?, ∃ r ∈ us.getLast?, s = l.upTo r

theorem NodeLexemes.covers {us : List Lexeme} {n : Node} (h : NodeLexemes us n) :
    Covers us n.span := by
  cases h with
  | ident h => exact ⟨_, rfl, _, rfl, h.span⟩
  | ret _ => exact ⟨_, rfl, _, rfl, rfl⟩
  | arg h =>
    cases h with
    | arg _ _ _ => exact ⟨_, rfl, _, rfl, rfl⟩
  | proc h =>
    cases h with
    | proc _ _ _ _ _ _ _ _ => exact ⟨_, rfl, _, by simp [List.getLast?_cons], rfl⟩

/-- What covers ordered lexemes has them all inside. -/
theorem Covers.bounds {us : List Lexeme} {s : Span} (h : Covers us s) (ho : Ordered us) {l : Lexeme}
    (hl : l ∈ us) :
    s.pos ≤ l.start ∧ (l.stop : Int) ≤ s.stop := by
  obtain ⟨first, hfirst, last, hlast, rfl⟩ := h
  obtain ⟨rest, rfl⟩ := List.head?_eq_some_iff.mp hfirst
  obtain ⟨init, hinit⟩ := List.getLast?_eq_some_iff.mp hlast
  have hlo : first.start ≤ l.start := by
    rcases List.mem_cons.mp hl with rfl | hl
    · exact Nat.le_refl _
    · have := ho.lt first (.head _)
      have := List.rel_of_pairwise_cons ho.before hl
      omega
  have hhi : l.stop ≤ last.stop := by
    rw [hinit] at hl ho
    rcases List.mem_append.mp hl with hl | hl
    · have := ho.lt last (by simp)
      have := (List.pairwise_append.mp ho.before).2.2 l hl last (.head _)
      omega
    · rw [List.mem_singleton.mp hl]
  exact ⟨Int.ofNat_le.mpr hlo, Int.ofNat_le.mpr hhi⟩

/-- Parts that are derived by stretches of lexemes, one after another. -/
inductive Spread : List Lexeme → List Node → Prop where
  | nil {us : List Lexeme} : Spread us []
  | skip {l : Lexeme} {us : List Lexeme} {ns : List Node} (h : Spread us ns) : Spread (l :: us) ns
  | cons {us vs : List Lexeme} {n : Node} {ns : List Node} (hn : NodeLexemes us n)
      (h : Spread vs ns) :
      Spread (us ++ vs) (n :: ns)

namespace Spread

variable {us vs : List Lexeme} {ns ms : List Node}

theorem ident {l : Lexeme} {id : Ident} (hid : IdentLexeme l id) (h : Spread us ns) :
    Spread (l :: us) (.ident id :: ns) := cons (.ident hid) h

theorem single {n : Node} (h : NodeLexemes us n) : Spread us [n] := by
  have hnode := cons h (@nil [])
  rwa [List.append_nil] at hnode

theorem after (us : List Lexeme) (h : Spread vs ns) : Spread (us ++ vs) ns := by
  induction us with
  | nil => exact h
  | cons l us ih => exact .skip ih

theorem append (h : Spread us ns) (h' : Spread vs ms) : Spread (us ++ vs) (ns ++ ms) := by
  induction h with
  | nil => exact h'.after _
  | skip _ ih => exact .skip ih
  | cons hn _ ih => rw [List.append_assoc]; exact .cons hn ih

theorem exists_of_mem (h : Spread us ns) {n : Node} (hn : n ∈ ns) :
    ∃ vs, vs <:+: us ∧ NodeLexemes vs n := by
  induction h with
  | nil => cases hn
  | skip _ ih =>
    obtain ⟨vs, hvs, hd⟩ := ih hn
    exact ⟨vs, hvs.trans (List.suffix_cons _ _).isInfix, hd⟩
  | @cons us vs m ns hm _ ih =>
    rcases List.mem_cons.mp hn with rfl | hn
    · exact ⟨us, (List.prefix_append us vs).isInfix, hm⟩
    · obtain ⟨ws, hws, hd⟩ := ih hn
      exact ⟨ws, hws.trans (List.suffix_append us vs).isInfix, hd⟩

/-- Parts one after another are ordered. -/
theorem pairwise (h : Spread us ns) (ho : Ordered us) :
    ns.Pairwise fun n m => n.span.Before m.span := by
  induction h with
  | nil => exact .nil
  | skip _ ih => exact ih (ho.of_sublist (List.sublist_cons_self _ _))
  | @cons us vs n ns hn h ih =>
    refine .cons (fun m hm => ?_) (ih (ho.of_sublist (List.sublist_append_right us vs)))
    obtain ⟨ws, hws, hd⟩ := h.exists_of_mem hm
    obtain ⟨_, -, r, hr, hspan⟩ := hn.covers
    obtain ⟨l, hl, _, -, hspan'⟩ := hd.covers
    have hbefore := (List.pairwise_append.mp ho.before).2.2 r (List.mem_of_getLast? hr) l
      (hws.subset (List.mem_of_head? hl))
    rw [hspan, hspan']
    exact Int.ofNat_le.mpr hbefore

end Spread

theorem Parts.spread {α : Type} {part : List Lexeme → α → Prop} {us : List Lexeme} {as : List α}
    (h : Parts part us as) {nodes : α → List Node}
    (hpart : ∀ us a, part us a → Spread us (nodes a)) :
    Spread us (as.flatMap nodes) := by
  induction h with
  | nil => exact .nil
  | cons ha _ ih => exact (hpart _ _ ha).append ih

theorem StmtLexemes.spread {us : List Lexeme} {s : Stmt} (h : StmtLexemes us s) :
    Spread us s.nodes := by
  cases h with
  | move hd _ hs => exact .ident hd (.skip (.ident hs .nil))
  | label hn _ => exact .ident hn .nil
  | call _ hf hv => exact .skip (.ident hf (.ident hv .nil))
  | goto _ ht => exact .skip (.ident ht .nil)
  | branch _ hc _ hy _ hn => exact .skip (.ident hc (.skip (.ident hy (.skip (.ident hn .nil)))))
  | ret hk => exact .cons (.ret hk) .nil

theorem ArgsLexemes.spread {us : List Lexeme} {as : List ArgDecl} (h : ArgsLexemes us as) :
    Spread us (as.map .arg) := by
  cases h with
  | none => exact .nil
  | some ha has =>
    refine .cons (.arg ha) ?_
    rw [List.map_eq_flatMap]
    refine has.spread ?_
    rintro _ _ ⟨_, ha⟩
    exact .skip (.single (.arg ha))

/-- What a part holds is derived by stretches of its lexemes. -/
theorem NodeLexemes.spread {us : List Lexeme} {n : Node} (h : NodeLexemes us n) :
    Spread us n.children := by
  cases h with
  | ident _ => exact .nil
  | ret _ => exact .nil
  | arg h =>
    cases h with
    | arg ha hn _ => exact .ident ha (.ident hn .nil)
  | proc h =>
    cases h with
    | @proc _ _ _ _ _ e _ _ _ _ _ _ hn _ hargs _ _ hbody _ =>
      have hstmts := (hbody.spread fun _ _ => StmtLexemes.spread).append (@Spread.nil [e])
      rw [List.append_nil] at hstmts
      exact .skip (.ident hn (.skip (hargs.spread.append (.skip (.skip hstmts)))))

theorem ItemLexemes.spread {us : List Lexeme} {x : Item} (h : ItemLexemes us x) :
    Spread us [x.node] := by
  cases h with
  | foreign _ hid => exact .skip (.ident hid .nil)
  | proc hx => exact .single (.proc hx)

/-- Every part of a file is derived by a stretch of lexemes. -/
theorem SourceFile.Has.derived {ls : List Lexeme} {items : List Item}
    (h : Parts ItemLexemes ls items) {n : Node} (hn : (Item.file items).Has n) :
    ∃ us, us <:+: ls ∧ NodeLexemes us n := by
  have hroot : ∀ x ∈ items, ∃ us, us <:+: ls ∧ NodeLexemes us x.node := fun x hx =>
    (h.spread fun _ _ => ItemLexemes.spread).exists_of_mem (List.mem_flatMap.mpr ⟨x, hx, .head _⟩)
  induction hn with
  | foreign hid =>
    obtain ⟨x, hx, hid⟩ := List.mem_filterMap.mp hid
    cases x with
    | foreign id => cases hid; exact hroot _ hx
    | proc y => cases hid
  | proc hy =>
    obtain ⟨x, hx, hy⟩ := List.mem_filterMap.mp hy
    cases x with
    | foreign id => cases hy
    | proc y => cases hy; exact hroot _ hx
  | child _ hm ih =>
    obtain ⟨us, hus, hd⟩ := ih
    obtain ⟨vs, hvs, hd⟩ := hd.spread.exists_of_mem hm
    exact ⟨vs, hvs.trans hus, hd⟩

/-! ## The bytes of a part -/

section

variable {bytes : List UInt8} {ls us : List Lexeme} {l r : Lexeme}

theorem extract_append_extract {i j k : Nat} (hij : i ≤ j) (hjk : j ≤ k) :
    bytes.extract i j ++ bytes.extract j k = bytes.extract i k := by
  obtain ⟨m, rfl⟩ := Nat.exists_eq_add_of_le hij
  obtain ⟨n, rfl⟩ := Nat.exists_eq_add_of_le hjk
  simp only [List.extract_eq_take_drop]
  rw [Nat.add_sub_cancel_left, Nat.add_sub_cancel_left, Nat.add_assoc, Nat.add_sub_cancel_left,
    List.take_add, List.drop_drop]

theorem Tiled.spelled (h : Tiled 0 ls bytes) (hl : l ∈ ls) :
    l.token.Spelled ((l.upTo l).text bytes) :=
  (h.exact hl).2.2.2

theorem Token.Spelled.of_isWord {t : Token} {text : List UInt8} {s : String} (h : t.Spelled text)
    (ht : t.IsWord s) :
    text = utf8 s := by
  cases h with
  | punct p => cases ht
  | keyword k => cases ht; rfl
  | name s => cases ht; rfl
  | number zeros n => cases ht

theorem Token.Spelled.of_punct {p : Punct} {text : List UInt8} (h : (Token.punct p).Spelled text) :
    text = [p.byte] := by
  cases h
  rfl

/-- The bytes of two lexemes stand at the ends of what goes from one to the other. -/
theorem Tiled.text_upTo (h : Tiled 0 ls bytes) (hl : l ∈ ls) (hr : r ∈ ls)
    (hlr : l.stop ≤ r.start) :
    ∃ inner, (l.upTo r).text bytes = (l.upTo l).text bytes ++ inner ++ (r.upTo r).text bytes := by
  have hl := h.isOrdered.lt l hl
  have hr := h.isOrdered.lt r hr
  refine ⟨bytes.extract l.stop r.start, ?_⟩
  simp only [Lexeme.upTo, Span.text, Int.toNat_natCast]
  rw [extract_append_extract (by omega) hlr, extract_append_extract (by omega) (by omega)]

theorem NodeLexemes.written {n : Node} (h : NodeLexemes us n) (ht : Tiled 0 ls bytes)
    (hus : us <:+: ls) :
    n.Written (n.span.text bytes) := by
  have ho : Ordered us := ht.isOrdered.of_sublist hus.sublist
  cases h with
  | ident h =>
    have hs := ht.spelled (hus.subset (.head _))
    rw [← h.span] at hs
    exact hs.of_isWord h.word
  | ret hk =>
    have hs := ht.spelled (hus.subset (.head _))
    rw [hk] at hs
    exact hs.of_isWord rfl
  | arg h =>
    cases h with
    | @arg l r d access name size ha hn hd =>
      have hl := hus.subset (.head _)
      have hr : d ∈ ls := hus.subset (by simp)
      obtain ⟨inner, htext⟩ := ht.text_upTo hl hr (List.rel_of_pairwise_cons ho.before (by simp))
      have hs := ht.spelled hr
      rw [hd] at hs
      exact ⟨inner, _, by rw [← (ht.spelled hl).of_isWord ha.word]; exact htext, hs⟩
  | proc h =>
    cases h with
    | @proc k l o c b e us vs name args body hk hn ho hargs hc hb hbody he =>
      have hl := hus.subset (.head _)
      have hr : e ∈ ls := hus.subset (by simp)
      obtain ⟨inner, htext⟩ := ht.text_upTo hl hr (List.rel_of_pairwise_cons ho.before (by simp))
      have hs := ht.spelled hl
      have hs' := ht.spelled hr
      rw [hk] at hs
      rw [he] at hs'
      have hfirst : (k.upTo k).text bytes = utf8 "proc" := hs.of_isWord rfl
      have hlast : (e.upTo e).text bytes = [Punct.closeBrace.byte] := hs'.of_punct
      exact ⟨inner, by rw [← hfirst, ← hlast]; exact htext⟩

/-- What is derived by a stretch of the lexemes of a text has its place there. -/
theorem NodeLexemes.exact {n : Node} (h : NodeLexemes us n) (ht : Tiled 0 ls bytes)
    (hus : us <:+: ls) :
    n.Exact bytes ls := by
  have ho : Ordered us := ht.isOrdered.of_sublist hus.sublist
  obtain ⟨l, hl, r, hr, hspan⟩ := h.covers
  have hl := List.mem_of_head? hl
  have hr := List.mem_of_getLast? hr
  have hbounds := fun {l} (hl : l ∈ us) => h.covers.bounds ho hl
  have hlt := ho.lt r hr
  have hle := (ht.exact (hus.subset hr)).2.2.1
  refine ⟨?_, ?_, ?_, h.written ht hus, ⟨us, hus, h⟩, ?_, ?_, h.spread.pairwise ho, fun m hm => ?_⟩
  · rw [hspan]
    exact Int.natCast_nonneg _
  · have := (hbounds hr).1
    have := (hbounds hr).2
    omega
  · rw [hspan]
    simp only [Lexeme.upTo]
    omega
  · exact ⟨l, hus.subset hl, by rw [hspan]; rfl⟩
  · exact ⟨r, hus.subset hr, by rw [hspan]; rfl⟩
  · obtain ⟨vs, hvs, hm⟩ := h.spread.exists_of_mem hm
    obtain ⟨l', hl', r', hr', hspan'⟩ := hm.covers
    rw [hspan']
    exact ⟨(hbounds (hvs.subset (List.mem_of_head? hl'))).1,
      (hbounds (hvs.subset (List.mem_of_getLast? hr'))).2⟩

end

/-- Every place of a file that was parsed is right. The tokens cover the text, and the declarations
are derived by them all, in order. -/
theorem parse_places {bytes : List UInt8} {f : SourceFile} (h : SourceFile.parse bytes = .ok f) :
    Tiled 0 (lexemes bytes).1 bytes ∧
    (∃ items, Item.file items = f ∧ Parts ItemLexemes (lexemes bytes).1 items ∧
      items.Pairwise fun x y => x.node.span.Before y.node.span) ∧
    ∀ n, f.Has n → n.Exact bytes (lexemes bytes).1 := by
  have hparse : (Input.ofText bytes).declarations = .ok f := h
  obtain ⟨⟨pos, hend⟩, -⟩ := Input.declarations_sound (Input.lexed_ofText bytes) hparse
  have htiled : Tiled 0 (lexemes bytes).1 bytes := tiled_lexemes hend
  obtain ⟨items, rfl, hitems⟩ := Input.declarations_placed hparse
  refine ⟨htiled, ⟨items, rfl, hitems, ?_⟩, fun n hn => ?_⟩
  · have hspread := hitems.spread fun _ _ => ItemLexemes.spread
    rw [← List.map_eq_flatMap] at hspread
    have hpairwise := hspread.pairwise htiled.isOrdered
    rwa [List.pairwise_map] at hpairwise
  · obtain ⟨us, hus, hd⟩ := hn.derived hitems
    exact hd.exact htiled hus

/-- A text with comments before, inside and after its procedure, one of them right after a word. -/
def commentedText : List UInt8 :=
  utf8 "// a\nproc f( // b\n ro\tx 007)\x7bl:// \x7d\n return//\n\n\x7dffi g // c"

def commentedFile : SourceFile where
  foreign := [{ span := ⟨52, 53⟩, name := "g" }]
  procs := [{
    span := ⟨5, 48⟩
    name := { span := ⟨10, 11⟩, name := "f" }
    args := [{
      span := ⟨19, 27⟩
      access := { span := ⟨19, 21⟩, name := "ro" }
      name := { span := ⟨22, 23⟩, name := "x" }
      size := 7 }]
    body := [.label { span := ⟨29, 30⟩, name := "l" }, .ret ⟨37, 43⟩] }]

theorem parse_places_commented : SourceFile.parse commentedText = .ok commentedFile ∧
    ∀ n, commentedFile.Has n → n.Exact commentedText (lexemes commentedText).1 := by
  have hparse : SourceFile.parse commentedText = .ok commentedFile := by decide +kernel
  exact ⟨hparse, (parse_places hparse).2.2⟩

end ProcCompiler
