import ProcCompiler.Proofs.Draft.Steps
import ProcCompiler.Proofs.Source.Static
/-!
# Drafting a body

A statement is drafted if it is permitted: a label that is not defined yet, or, where a block is
current, any other known statement whose foreign function is declared. Every other statement is
refused with an error of the user. Over a whole body this gives a draft of all statements, or such
an error.

* `Inv.statement_ok`, `statement_error`: one statement.
* `Inv.body_ok`, `Inv.body_error`: a list of statements.
-/
namespace ProcCompiler

/-- The error is no fault of the user. -/
def ProcError.isInternal : ProcError → Bool
  | building _ => true
  | lowering _ => true
  | unknownStatement => true
  | _ => false

theorem ForeignTable.lookup?_isSome {t : ForeignTable} {name : String} :
    (t.lookup? name).isSome ↔ name ∈ t.names := by
  unfold lookup?
  cases hi : t.names.idxOf? name with
  | none => simp [List.idxOf?_eq_none_iff.mp hi]
  | some i =>
    have : name ∈ t.names := by
      by_contra hm
      rw [List.idxOf?_eq_none_iff.mpr hm] at hi
      cases hi
    simp [this]

namespace Draft

/-- The statement can be drafted next. -/
def Permits (table : ForeignTable) (d : Draft) : Stmt → Prop
  | .label id => ∀ e ∈ d.labels, e.name = id.name → e.defined = false
  | .call fn _ => d.current.isSome ∧ fn.name ∈ table.names
  | .unknown => False
  | _ => d.current.isSome

variable {table : ForeignTable} {d : Draft} {sk : BlockId → Listing Var}

theorem statement_current {b : BlockId} (hb : d.current = some b) {s : Stmt}
    (hs : ∀ id, s ≠ .label id) :
    Drafting.statement table s d = Drafting.code table b s d := by
  cases s with
  | label id => exact absurd rfl (hs id)
  | _ =>
    simp only [Drafting.statement, bind, StateT.bind, get, getThe, MonadStateOf.get,
      StateT.get, pure, Except.pure, Except.bind, hb]

theorem statement_closed (hb : d.current = none) {s : Stmt} (hs : ∀ id, s ≠ .label id) :
    Drafting.statement table s d = .error (.unreachableCode s.pos) := by
  cases s with
  | label id => exact absurd rfl (hs id)
  | _ =>
    simp only [Drafting.statement, bind, StateT.bind, get, getThe, MonadStateOf.get,
      StateT.get, pure, Except.pure, Except.bind, hb]
    rfl

/-- A permitted statement is drafted. -/
theorem Inv.statement_ok (h : d.Inv sk) {s : Stmt} (hp : d.Permits table s) :
    ∃ d' sk', Drafting.statement table s d = .ok ((), d') ∧ d'.Inv sk' ∧
      Drafted table d sk s d' sk' := by
  have key : (∀ id, s ≠ .label id) → d.current.isSome → (∀ b, d.current = some b →
      ∃ d' sk', Drafting.code table b s d = .ok ((), d') ∧ d'.Inv sk' ∧
      Drafted table d sk s d' sk') →
      ∃ d' sk', Drafting.statement table s d = .ok ((), d') ∧ d'.Inv sk' ∧
        Drafted table d sk s d' sk' := by
    intro hs hc hcode
    obtain ⟨b, hb⟩ := Option.isSome_iff_exists.mp hc
    rw [statement_current hb hs]
    exact hcode b hb
  cases s with
  | label id => exact h.label table hp
  | move dst src => exact key (by simp) hp fun b hb => h.move table hb dst src
  | call fn var =>
    obtain ⟨i, hi⟩ := Option.isSome_iff_exists.mp (ForeignTable.lookup?_isSome.mpr hp.2)
    exact key (by simp) hp.1 fun b hb => h.call table hb var hi
  | goto target => exact key (by simp) hp fun b hb => h.goto table hb target
  | branch cond yes no => exact key (by simp) hp fun b hb => h.branch table hb cond yes no
  | ret span => exact key (by simp) hp fun b hb => h.ret table hb span
  | unknown => exact hp.elim

/-- A known statement that is not permitted is refused with an error of the user. -/
theorem statement_error {s : Stmt} (hs : s ≠ .unknown) (hp : ¬ d.Permits table s) :
    ∃ e, Drafting.statement table s d = .error e ∧ e.isInternal = false := by
  have hclosed : (∀ id, s ≠ .label id) → ¬ d.current.isSome →
      ∃ e, Drafting.statement table s d = .error e ∧ e.isInternal = false := fun hl hc =>
    ⟨_, statement_closed (by simpa using hc) hl, rfl⟩
  cases s with
  | label id =>
    have hany : (d.labels.any fun e => e.name = id.name && e.defined) = true := by
      simp only [Permits, not_forall] at hp
      obtain ⟨e, he, hn, hd⟩ := hp
      rw [List.any_eq_true]
      exact ⟨e, he, by simpa [hn] using hd⟩
    refine ⟨.labelRedefined id.span.pos id.name, ?_, rfl⟩
    simp only [Drafting.statement, Drafting.label, bind, StateT.bind, get, getThe, MonadStateOf.get,
      StateT.get, pure, Except.pure, Except.bind, hany]
    rfl
  | call fn var =>
    by_cases hc : d.current.isSome
    · obtain ⟨b, hb⟩ := Option.isSome_iff_exists.mp hc
      have hf : table.lookup? fn.name = none := by
        have hm : fn.name ∉ table.names := fun hm => hp ⟨hc, hm⟩
        rwa [← ForeignTable.lookup?_isSome, Option.not_isSome_iff_eq_none] at hm
      refine ⟨.undeclaredForeign fn.span.pos fn.name, ?_, rfl⟩
      rw [statement_current hb (by simp)]
      simp only [Drafting.code, hf]
      rfl
    · exact hclosed (by simp) hc
  | unknown => exact absurd rfl hs
  | _ => exact hclosed (by simp) hp

end Draft

/-! ## What the statements so far say -/

namespace Draft

/-- The draft holds the labels of the statements so far, and has a current block if control goes
on. -/
structure Notes (d : Draft) (done : List Stmt) : Prop where
  defined : ∀ name, (∃ e ∈ d.labels, e.name = name ∧ e.defined = true) ↔
    name ∈ done.filterMap Stmt.defines?
  met : ∀ name, (∃ e ∈ d.labels, e.name = name) ↔
    name ∈ done.filterMap Stmt.defines? ∨ name ∈ done.flatMap Stmt.uses
  current : d.current.isSome = Stmt.goesOn done

variable {table : ForeignTable} {d d' : Draft} {sk sk' : BlockId → Listing Var} {done : List Stmt}

theorem Notes.permits_iff (h : d.Notes done) {s : Stmt} :
    d.Permits table s ↔ s.MayFollow table done := by
  cases s with
  | label id =>
    simp only [Permits, Stmt.MayFollow, ← h.defined, not_exists, not_and]
    exact forall₃_congr fun e _ _ => by simp
  | call fn var => simp only [Permits, Stmt.MayFollow, h.current]
  | unknown => exact Iff.rfl
  | _ => simp only [Permits, Stmt.MayFollow, h.current]

theorem exists_addLabel {d : Draft} {id : Ident} {name : String} :
    (∃ e ∈ (d.addLabel id).labels, e.name = name) ↔ (∃ e ∈ d.labels, e.name = name) ∨
      name = id.name := by
  unfold addLabel
  split
  · rename_i hk
    obtain ⟨b, hb⟩ := Option.isSome_iff_exists.mp hk
    obtain ⟨e, he, hn, -⟩ := mem_of_blockAt? hb
    constructor
    · exact .inl
    · rintro (h | rfl)
      · exact h
      · exact ⟨e, he, hn⟩
  · simp only [List.mem_append, List.mem_singleton]
    constructor
    · rintro ⟨e, he | rfl, rfl⟩
      · exact .inl ⟨e, he, rfl⟩
      · exact .inr rfl
    · rintro (⟨e, he, rfl⟩ | rfl)
      · exact ⟨e, .inl he, rfl⟩
      · exact ⟨_, .inr rfl, rfl⟩

theorem exists_defined_addLabel {d : Draft} {id : Ident} {name : String} :
    (∃ e ∈ (d.addLabel id).labels, e.name = name ∧ e.defined = true) ↔
      ∃ e ∈ d.labels, e.name = name ∧ e.defined = true := by
  constructor
  · rintro ⟨e, he, hn, hd⟩
    rcases mem_labels_addLabel he with he | ⟨-, hd'⟩
    · exact ⟨e, he, hn, hd⟩
    · rw [hd] at hd'; cases hd'
  · rintro ⟨e, he, h⟩
    refine ⟨e, ?_, h⟩
    unfold addLabel
    split
    · exact he
    · exact List.mem_append_left _ he

theorem exists_defineLabel {labels : List LabelEntry} {name x : String} :
    (∃ e ∈ defineLabel labels x, e.name = name) ↔ ∃ e ∈ labels, e.name = name := by
  have hnames : (defineLabel labels x).map LabelEntry.name = labels.map LabelEntry.name :=
    map_defineLabel fun _ => rfl
  rw [← List.mem_map, hnames, List.mem_map]

theorem exists_defined_defineLabel {labels : List LabelEntry} {name x : String} :
    (∃ e ∈ defineLabel labels x, e.name = name ∧ e.defined = true) ↔
      (∃ e ∈ labels, e.name = name ∧ e.defined = true) ∨ name = x ∧ ∃ e ∈ labels, e.name = x := by
  constructor
  · rintro ⟨e, he, rfl, hd⟩
    obtain ⟨e', he', rfl⟩ := List.mem_map.mp he
    by_cases hn : e'.name = x
    · rw [if_pos hn]; exact .inr ⟨hn, e', he', hn⟩
    · rw [if_neg hn] at hd ⊢; exact .inl ⟨e', he', rfl, hd⟩
  · rintro (⟨e, he, rfl, hd⟩ | ⟨rfl, e, he, hn⟩)
    · refine ⟨_, List.mem_map.mpr ⟨e, he, rfl⟩, ?_⟩
      split
      · exact ⟨rfl, rfl⟩
      · exact ⟨rfl, hd⟩
    · exact ⟨_, List.mem_map.mpr ⟨e, he, rfl⟩, by rw [if_pos hn]; exact ⟨hn, rfl⟩⟩

/-- One statement, noted. -/
theorem Notes.step (h : d.Notes done) {s : Stmt} (hs : Drafted table d sk s d' sk') :
    d'.Notes (done ++ [s]) := by
  have hgoes : Stmt.goesOn (done ++ [s]) = !s.isTransfer := by simp [Stmt.goesOn]
  have same : ∀ {l}, s.defines? = none → s.uses = [] → d'.labels = l → l = d.labels →
      d'.current.isSome = !s.isTransfer → d'.Notes (done ++ [s]) := by
    rintro l hd hu rfl hl hc
    refine ⟨fun name => ?_, fun name => ?_, by rw [hgoes]; exact hc⟩
    · rw [hl, List.filterMap_append, h.defined]; simp [hd]
    · rw [hl, List.filterMap_append, List.flatMap_append, h.met]; simp [hd, hu]
  cases hs with
  | move hb hb' hl hv => exact same rfl rfl hl rfl (by rw [hb']; rfl)
  | call hf hb hb' hl hv => exact same rfl rfl hl rfl (by rw [hb']; rfl)
  | ret hb hb' hl hv => exact same rfl rfl hl rfl (by rw [hb']; rfl)
  | goto hb hb' hl ht hv =>
    refine ⟨fun name => ?_, fun name => ?_, by rw [hgoes, hb']; rfl⟩
    · rw [hl, exists_defined_addLabel, List.filterMap_append, h.defined]; simp [Stmt.defines?]
    · rw [hl, exists_addLabel, List.filterMap_append, List.flatMap_append, h.met]
      simp [Stmt.defines?, Stmt.uses, or_assoc]
  | branch hb hb' hl ht hu hv =>
    refine ⟨fun name => ?_, fun name => ?_, by rw [hgoes, hb']; rfl⟩
    · rw [hl, exists_defined_addLabel, exists_defined_addLabel, labels_addVar,
        List.filterMap_append, h.defined]
      simp [Stmt.defines?]
    · rw [hl, exists_addLabel, exists_addLabel, labels_addVar, List.filterMap_append,
        List.flatMap_append, h.met]
      simp [Stmt.defines?, Stmt.uses, or_assoc]
  | label hb' hl ht hnew hne hv =>
    refine ⟨fun name => ?_, fun name => ?_, by rw [hgoes, hb']; rfl⟩
    · rw [hl, exists_defined_defineLabel, exists_defined_addLabel, exists_addLabel,
        List.filterMap_append, h.defined]
      simp [Stmt.defines?]
    · rw [hl, exists_defineLabel, exists_addLabel, List.filterMap_append,
        List.flatMap_append, h.met]
      simp only [Stmt.defines?, Stmt.uses, List.filterMap_cons, List.filterMap_nil,
        List.flatMap_cons, List.flatMap_nil, List.append_nil, List.mem_append, List.mem_singleton]
      tauto

/-- What several statements do to a draft and its listings. -/
inductive DraftedAll (table : ForeignTable) :
    Draft → (BlockId → Listing Var) → List Stmt → Draft → (BlockId → Listing Var) → Prop where
  | nil {d : Draft} {sk : BlockId → Listing Var} : DraftedAll table d sk [] d sk
  | cons {d d₁ d₂ : Draft} {sk sk₁ sk₂ : BlockId → Listing Var} {s : Stmt} {rest : List Stmt}
      (hi : d.Inv sk) (hs : Drafted table d sk s d₁ sk₁) (h : DraftedAll table d₁ sk₁ rest d₂ sk₂) :
      DraftedAll table d sk (s :: rest) d₂ sk₂

theorem forM_cons_ok {s : Stmt} {rest : List Stmt}
    (hs : Drafting.statement table s d = .ok ((), d')) :
    (s :: rest).forM (Drafting.statement table) d = rest.forM (Drafting.statement table) d' := by
  show ((Drafting.statement table s) d).bind _ = _
  rw [hs]
  rfl

theorem forM_cons_error {s : Stmt} {rest : List Stmt} {e : ProcError}
    (hs : Drafting.statement table s d = .error e) :
    (s :: rest).forM (Drafting.statement table) d = .error e := by
  show ((Drafting.statement table s) d).bind _ = _
  rw [hs]
  rfl

/-- Admitted statements are drafted. -/
theorem Inv.body_ok {rest : List Stmt} (h : d.Inv sk) (hn : d.Notes done)
    (ha : Stmt.Admitted table done rest) :
    ∃ d' sk', rest.forM (Drafting.statement table) d = .ok ((), d') ∧ d'.Inv sk' ∧
      d'.Notes (done ++ rest) ∧ DraftedAll table d sk rest d' sk' := by
  induction rest generalizing d sk done with
  | nil => exact ⟨d, sk, rfl, h, by simpa using hn, .nil⟩
  | cons s rest ih =>
    obtain ⟨d₁, sk₁, hs, h₁, hd₁⟩ := h.statement_ok (hn.permits_iff.mpr ha.1)
    obtain ⟨d₂, sk₂, hr, h₂, hn₂, hd₂⟩ := ih h₁ (hn.step hd₁) ha.2
    exact ⟨d₂, sk₂, (forM_cons_ok hs).trans hr, h₂, by simpa using hn₂, .cons h hd₁ hd₂⟩

/-- Known statements that are not admitted are refused with an error of the user. -/
theorem Inv.body_error {rest : List Stmt} (h : d.Inv sk) (hn : d.Notes done)
    (hk : ∀ s ∈ rest, s ≠ .unknown) (ha : ¬ Stmt.Admitted table done rest) :
    ∃ e, rest.forM (Drafting.statement table) d = .error e ∧ e.isInternal = false := by
  induction rest generalizing d sk done with
  | nil => exact absurd trivial ha
  | cons s rest ih =>
    by_cases hs : d.Permits table s
    · obtain ⟨d₁, sk₁, hok, h₁, hd₁⟩ := h.statement_ok hs
      obtain ⟨e, he, hi⟩ := ih h₁ (hn.step hd₁) (fun t ht => hk t (by simp [ht])) fun hr =>
        ha ⟨hn.permits_iff.mp hs, hr⟩
      exact ⟨e, (forM_cons_ok hok).trans he, hi⟩
    · obtain ⟨e, he, hi⟩ := statement_error (hk s (by simp)) hs
      exact ⟨e, forM_cons_error he, hi⟩

end Draft

end ProcCompiler
