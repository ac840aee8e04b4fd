import ProcCompiler.Proofs.Syntax.Tiling
/-!
# What was parsed can be printed

The lexer finds only legible tokens: a word is an identifier, and a number is not too large. So the
syntax tree of a text is legible.

* `Cursor.legible_of_item`, `Cursor.legible_of_next`, `Lexes.legible`: the tokens of a text.
* `ArgTokens.legible`, `ProcTokens.legible`, `FileTokens.legible`: what legible tokens derive.
* `SourceFile.legible_of_parse`: the syntax tree of a text.
-/
namespace ProcCompiler

/-! ## Tokens -/

theorem char_of_isWordStart (b : UInt8) : isWordStart b = true →
    ((Char.ofNat b.toNat).isAlpha || Char.ofNat b.toNat == '_') = true :=
  byte_forall (P := fun b => isWordStart b = true →
    ((Char.ofNat b.toNat).isAlpha || Char.ofNat b.toNat == '_') = true) (by decide +kernel) b

theorem alphanum_of_isWordByte {b : UInt8} (h : isWordByte b = true) :
    ((Char.ofNat b.toNat).isAlphanum || Char.ofNat b.toNat == '_') = true := by
  obtain ⟨hlt, hb⟩ := char_of_isWordByte b h
  have hclass := (class_toUInt8 hlt).2.1
  rwa [hb, h, eq_comm] at hclass

theorem isIdentifier_byteText {b : UInt8} {bytes : List UInt8} (hb : isWordStart b = true)
    (hbytes : ∀ x ∈ bytes, isWordByte x = true) : isIdentifier (byteText (b :: bytes)) = true := by
  unfold isIdentifier byteText
  rw [String.toList_ofList, List.map_cons]
  refine Bool.and_eq_true_iff.mpr ⟨char_of_isWordStart b hb, List.all_eq_true.mpr fun c hc => ?_⟩
  obtain ⟨x, hx, rfl⟩ := List.mem_map.mp hc
  exact alphanum_of_isWordByte (hbytes x hx)

namespace Cursor

theorem legible_of_item {c after : Cursor} {b : UInt8} {rest : List UInt8} {t : Token}
    (hr : c.rest = b :: rest) (h : c.item b rest = .token t after) : t.Legible := by
  unfold item at h
  split at h
  · cases h
    trivial
  · split at h
    · cases h
    · split at h
      · dsimp only at h
        split at h
        · rename_i hle
          cases h
          exact hle
        · cases h
      · split at h
        · rename_i hstart
          cases h
          refine Token.legible_ofWord ?_
          rw [hr, List.takeWhile_cons_of_pos (by simp [isWordByte, hstart])]
          exact isIdentifier_byteText hstart fun x hx => List.mem_takeWhile_imp hx
        · cases h

theorem legible_of_next {c after : Cursor} {t : Token} (h : c.next = .token t after) :
    t.Legible := by
  rw [next_eq_scan] at h
  unfold scan at h
  split at h
  · cases h
  · rename_i hr
    exact legible_of_item hr h

end Cursor

theorem Lexes.legible {c : Cursor} {ts : List Token} (h : Lexes c ts) : ∀ t ∈ ts, t.Legible := by
  induction h with
  | done _ => simp
  | more hnext _ ih => exact List.forall_mem_cons.mpr ⟨Cursor.legible_of_next hnext, ih⟩

/-! ## Derivations -/

theorem Token.IsName.legible {t : Token} {s : String} (h : t.IsName s) (ht : t.Legible) :
    (Ident.bare s).Legible := by
  obtain ⟨rfl, -⟩ := Token.isName_iff.mp h
  exact ht

/-- A keyword is an identifier, too. -/
theorem Token.IsWord.isIdentifier {t : Token} {s : String} (h : t.IsWord s) (ht : t.Legible) :
    isIdentifier s = true := by
  cases t with
  | punct p => cases h
  | keyword k => cases h; cases k <;> decide
  | name n => cases h; exact ht.1
  | number n => cases h

theorem StmtTokens.legible {us : List Token} {s : Stmt} (h : StmtTokens us s)
    (hus : ∀ u ∈ us, u.Legible) :
    s.Legible := by
  cases h with
  | move ht hu => exact ⟨ht.legible (hus _ (by simp)), hu.legible (hus _ (by simp))⟩
  | label ht => exact ht.legible (hus _ (by simp))
  | call ht hu => exact ⟨ht.legible (hus _ (by simp)), hu.legible (hus _ (by simp))⟩
  | goto ht => exact ht.legible (hus _ (by simp))
  | branch ht hu hv =>
    exact ⟨ht.legible (hus _ (by simp)), hu.legible (hus _ (by simp)), hv.legible (hus _ (by simp))⟩
  | ret => trivial

theorem ArgTokens.legible {us : List Token} {a : ArgDecl} (h : ArgTokens us a)
    (hus : ∀ u ∈ us, u.Legible) :
    a.Legible := by
  cases h with
  | @arg t u access name size ht hu =>
    have hsize : size ≤ maxNumber := hus (.number size) (by simp)
    refine ⟨ht.isIdentifier (hus _ (by simp)), hu.legible (hus _ (by simp)),
      Int.natCast_nonneg size, ?_⟩
    exact Int.ofNat_le.mpr hsize

theorem AfterComma.legible {us : List Token} {a : ArgDecl} (h : AfterComma ArgTokens us a)
    (hus : ∀ u ∈ us, u.Legible) : a.Legible := by
  cases h with
  | comma ha => exact ha.legible fun u hu => hus u (.tail _ hu)

/-- What holds of each part holds of all. -/
theorem Many.legible {α : Type} {part : List Token → α → Prop} {ok : α → Prop} {ts : List Token}
    {as : List α} (h : Many part ts as) (hts : ∀ t ∈ ts, t.Legible)
    (hpart : ∀ {us a}, part us a → (∀ u ∈ us, u.Legible) → ok a) : ∀ a ∈ as, ok a := by
  induction h with
  | nil => simp
  | cons ha _ ih =>
    rw [List.forall_mem_append] at hts
    exact List.forall_mem_cons.mpr ⟨hpart ha hts.1, ih hts.2⟩

theorem ArgsTokens.legible {us : List Token} {as : List ArgDecl} (h : ArgsTokens us as)
    (hus : ∀ u ∈ us, u.Legible) : ∀ a ∈ as, a.Legible := by
  cases h with
  | none => simp
  | some ha has =>
    rw [List.forall_mem_append] at hus
    exact List.forall_mem_cons.mpr ⟨ha.legible hus.1, has.legible hus.2 AfterComma.legible⟩

theorem ProcTokens.legible {us : List Token} {x : ProcDecl} (h : ProcTokens us x)
    (hus : ∀ u ∈ us, u.Legible) :
    x.Legible := by
  cases h with
  | proc ht hargs hbody =>
    refine ⟨ht.legible (hus _ (by simp)), hargs.legible fun u hu => hus u ?_,
      hbody.legible (fun u hu => hus u ?_) StmtTokens.legible⟩
    · simp [hu]
    · simp [hu]

theorem FileTokens.legible {ts : List Token} {f : SourceFile} (h : FileTokens ts f)
    (hts : ∀ t ∈ ts, t.Legible) :
    f.Legible := by
  induction h with
  | nil => exact ⟨by simp, by simp⟩
  | ffi ht _ ih =>
    obtain ⟨hforeign, hprocs⟩ := ih fun t ht => hts t (by simp [ht])
    exact ⟨List.forall_mem_cons.mpr ⟨ht.legible (hts _ (by simp)), hforeign⟩, hprocs⟩
  | proc hp _ ih =>
    rw [List.forall_mem_append] at hts
    obtain ⟨hforeign, hprocs⟩ := ih hts.2
    exact ⟨hforeign, List.forall_mem_cons.mpr ⟨hp.legible hts.1, hprocs⟩⟩

/-! ## Syntax trees -/

theorem Stmt.legible_unplaced {s : Stmt} : s.unplaced.Legible ↔ s.Legible := by
  cases s <;> exact Iff.rfl

theorem ProcDecl.legible_of_unplaced {x : ProcDecl} (h : x.unplaced.Legible) : x.Legible where
  name := h.name
  args a ha := by
    obtain ⟨hkind, hname, hnonneg, hle⟩ := h.args a.unplaced (List.mem_map_of_mem ha)
    exact ⟨hkind, hname, hnonneg, hle⟩
  body s hs := Stmt.legible_unplaced.mp (h.body s.unplaced (List.mem_map_of_mem hs))

theorem SourceFile.legible_of_parse {bytes : List UInt8} {f : SourceFile}
    (h : SourceFile.parse bytes = .ok f) :
    f.Legible := by
  obtain ⟨ts, hlex, hts⟩ := derives_of_parse h
  obtain ⟨hforeign, hprocs⟩ := hts.legible hlex.legible
  refine ⟨fun id hid => ?_, fun x hx => ?_⟩
  · exact hforeign (.bare id.name) (List.mem_map.mpr ⟨id, hid, rfl⟩)
  · exact ProcDecl.legible_of_unplaced (hprocs x.unplaced (List.mem_map_of_mem hx))

end ProcCompiler
