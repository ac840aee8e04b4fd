import ProcCompiler.Compilation
import ProcCompiler.Proofs.Draft.Exposure
/-!
# Outcomes of compilation

A known file is compiled if it is correct, and refused with an error of the user otherwise. This
holds of its arguments, of one procedure, and of all of them in turn.

* `ProcDecl.signature_cases`: the declared arguments.
* `SourceFile.compileProcs_redefined`, `compileProcs_incorrect`, `compileProcs_correct`: the next
  procedure.
* `SourceFile.compile_cases`: the whole file.
-/
namespace ProcCompiler

/-! ## Names declared once -/

section

variable {α : Type} {ok : α → Prop} {key : α → String} {names : List String} {a : α} {as : List α}

/-- The items pass a check and have names of their own, different from the given ones. -/
def AllNew (ok : α → Prop) (key : α → String) (names : List String) (as : List α) : Prop :=
  (∀ a ∈ as, ok a ∧ key a ∉ names) ∧ (as.map key).Nodup

theorem allNew_nil : AllNew ok key names [] := ⟨by simp, List.nodup_nil⟩

/-- The first item is new, and the others are after it. -/
theorem allNew_cons :
    AllNew ok key names (a :: as) ↔ (ok a ∧ key a ∉ names) ∧
      AllNew ok key (names ++ [key a]) as := by
  simp only [AllNew, List.map_cons, List.nodup_cons, List.mem_cons, List.mem_append, List.mem_map,
    List.not_mem_nil, or_false, not_or, forall_eq_or_imp]
  constructor
  · rintro ⟨⟨ha, has⟩, hnot, hn⟩
    exact ⟨ha, fun b hb => ⟨(has b hb).1, (has b hb).2, fun he => hnot ⟨b, hb, he⟩⟩, hn⟩
  · rintro ⟨ha, has, hn⟩
    refine ⟨⟨ha, fun b hb => ⟨(has b hb).1, (has b hb).2.1⟩⟩, ?_, hn⟩
    rintro ⟨b, hb, he⟩
    exact (has b hb).2.2 he

end

/-! ## Signatures -/

theorem Access.ofName?_isSome {name : String} :
    (ofName? name).isSome ↔ name ∈ ["ref", "mut", "out"] := by
  unfold ofName?
  split
  · simp_all
  · split
    · simp_all
    · split <;> simp_all

namespace ProcDecl

/-- One argument after those of `s`. -/
def declareArg (s : Signature) (a : ArgDecl) : Except ProcError Signature :=
  match Access.ofName? a.access.name with
  | none => .error (.unknownAccess a.access.span.pos a.access.name)
  | some access =>
    (s.declare { name := a.name.name, access, size := a.size }).mapError (.argument a.span.pos)

/-- An argument with a known way of access and a size. -/
def ArgOk (a : ArgDecl) : Prop := a.access.name ∈ ["ref", "mut", "out"] ∧ 0 < a.size

/-- The arguments can be declared in turn. -/
def ArgsOk (names : List String) (args : List ArgDecl) : Prop :=
  AllNew ArgOk (·.name.name) names args

theorem declareArg_ok {s : Signature} {a : ArgDecl} (ha : ArgOk a)
    (hname : a.name.name ∉ s.args.map Argument.name) :
    ∃ arg, arg.name = a.name.name ∧ declareArg s a = .ok { s with args := s.args ++ [arg] } := by
  obtain ⟨haccess, hsize⟩ := ha
  obtain ⟨access, ha⟩ := Option.isSome_iff_exists.mp (Access.ofName?_isSome.mpr haccess)
  refine ⟨{ name := a.name.name, access, size := a.size }, rfl, ?_⟩
  have hany : ¬ (s.args.any fun b => b.name = a.name.name) := by simpa using hname
  unfold declareArg Signature.declare
  simp only [ha]
  rw [if_neg (Int.not_le.mpr hsize), if_neg hany]
  rfl

theorem declareArg_error {s : Signature} {a : ArgDecl}
    (h : ¬ (ArgOk a ∧ a.name.name ∉ s.args.map Argument.name)) :
    ∃ e, declareArg s a = .error e ∧ e.isInternal = false := by
  unfold declareArg Signature.declare
  cases ha : Access.ofName? a.access.name with
  | none => exact ⟨_, rfl, rfl⟩
  | some access =>
    have haccess : a.access.name ∈ ["ref", "mut", "out"] :=
      Access.ofName?_isSome.mp (by rw [ha]; rfl)
    simp only
    split
    · exact ⟨_, rfl, rfl⟩
    · split
      · exact ⟨_, rfl, rfl⟩
      · rename_i hsize hany
        exact absurd ⟨⟨haccess, Int.not_le.mp hsize⟩, by simpa using hany⟩ h

theorem declareArgs_cases (args : List ArgDecl) (s : Signature) :
    (ArgsOk (s.args.map Argument.name) args ∧ ∃ s', args.foldlM declareArg s = .ok s' ∧
      s'.name = s.name ∧
      s'.args.map Argument.name = s.args.map Argument.name ++ args.map (·.name.name)) ∨
    (¬ ArgsOk (s.args.map Argument.name) args ∧
      ∃ e, args.foldlM declareArg s = .error e ∧ e.isInternal = false) := by
  induction args generalizing s with
  | nil => exact .inl ⟨allNew_nil, s, rfl, rfl, by simp⟩
  | cons a args ih =>
    rw [ArgsOk, allNew_cons, List.foldlM_cons]
    by_cases ha : ArgOk a ∧ a.name.name ∉ s.args.map Argument.name
    · obtain ⟨arg, hname, hok⟩ := declareArg_ok ha.1 ha.2
      rw [hok]
      have hnames : ({ s with args := s.args ++ [arg] } : Signature).args.map Argument.name =
          s.args.map Argument.name ++ [a.name.name] := by simp [hname]
      rcases ih { s with args := s.args ++ [arg] } with ⟨hall, s', hs', hn, hargs⟩ |
        ⟨hall, e, he, hi⟩
      · rw [hnames] at hall hargs
        exact .inl ⟨⟨ha, hall⟩, s', hs', hn, by simpa using hargs⟩
      · rw [hnames] at hall
        exact .inr ⟨fun h => hall h.2, e, he, hi⟩
    · obtain ⟨e, he, hi⟩ := declareArg_error ha
      exact .inr ⟨fun h => ha h.1, e, by rw [he]; rfl, hi⟩

/-- The declared arguments make a signature if they are correct. -/
theorem signature_cases (x : ProcDecl) :
    (ArgsOk [] x.args ∧ ∃ s, x.signature = .ok s ∧ s.name = x.name.name ∧
      s.args.length = x.args.length) ∨
    (¬ ArgsOk [] x.args ∧ ∃ e, x.signature = .error e ∧ e.isInternal = false) := by
  rcases declareArgs_cases x.args { name := x.name.name } with ⟨hall, s, hs, hn, hargs⟩ |
    ⟨hall, e, he, hi⟩
  · exact .inl ⟨hall, s, hs, hn, by simpa using congrArg List.length hargs⟩
  · exact .inr ⟨hall, e, he, hi⟩

end ProcDecl

/-! ## One procedure -/

/-- How a procedure was compiled: the drafted routine `f` with its plan, the routine `f₂` with split
joins, and the settled routine `F` whose code `p` holds. -/
structure Compiles (table : ForeignTable) (x : ProcDecl) (p : Procedure) (f : Routine)
    (slots : List Slot) (P : Plan) (n : Needs) (into : BlockId → Var → Option Reg)
    (f₂ F : Routine) : Prop where
  labels : Stmt.LabelsDefined x.body
  calls : ∀ fn var, .call fn var ∈ x.body → fn.name ∈ table.names
  planned : Planned table x f slots P
  lowers : Lowers f slots n into f₂ F
  name : p.name = x.name.name
  code : p.code = F.placedCode f₂.graph.order
  locals : p.locals = (F.locals (F.resolvedCode f₂.graph.order)).length
  args : p.args.length = slots.length

/-- The procedure was compiled to `p`. -/
def CompiledTo (table : ForeignTable) (x : ProcDecl) (p : Procedure) : Prop :=
  ∃ f slots P n into f₂ F, Compiles table x p f slots P n into f₂ F

theorem CompiledTo.verify_ok {table : ForeignTable} {x : ProcDecl} {p : Procedure}
    (h : CompiledTo table x p) :
    p.verify = .ok () := by
  obtain ⟨f, slots, P, n, into, f₂, F, h⟩ := h
  exact h.lowers.verify_ok h.code h.locals h.args

theorem CompiledTo.name_eq {table : ForeignTable} {x : ProcDecl} {p : Procedure}
    (h : CompiledTo table x p) :
    p.name = x.name.name := by
  obtain ⟨f, slots, P, n, into, f₂, F, h⟩ := h
  exact h.name

namespace ProcDecl

variable {table : ForeignTable} {x : ProcDecl}

/-- Correctness, in the order in which it is checked. -/
theorem correct_iff (hk : ∀ s ∈ x.body, s ≠ .unknown) : x.Correct table.names ↔ ArgsOk [] x.args ∧
    (Stmt.Admitted table [] x.body ∧ Stmt.LabelsDefined x.body) ∧
    ∀ name, Stmt.Exposed x.body x.body name → name ∈ x.args.map (·.name.name) := by
  rw [Stmt.admitted_iff hk]
  constructor
  · intro h
    exact ⟨⟨fun a ha => ⟨⟨h.access a ha, h.size a ha⟩, by simp⟩, h.args⟩,
      ⟨⟨h.labels, h.reachable, h.calls⟩, h.targets⟩, h.provided⟩
  · rintro ⟨⟨hall, hargs⟩, ⟨⟨hlabels, hreach, hcalls⟩, htargets⟩, hprov⟩
    exact ⟨fun a ha => (hall a ha).1.1, fun a ha => (hall a ha).1.2, hargs, hlabels, htargets,
      hreach, hcalls, hprov⟩

/-- A correct procedure is compiled. -/
theorem compiled_of_correct (hk : ∀ s ∈ x.body, s ≠ .unknown) (hc : x.Correct table.names) :
    ∃ s f slots p, x.signature = .ok s ∧ x.draft table = .ok (f, slots) ∧
      lowerDraft s f slots = .ok p ∧
      CompiledTo table x p := by
  obtain ⟨hargs, ⟨hadm, hlabels⟩, hprov⟩ := (correct_iff hk).mp hc
  obtain ⟨-, s, hs, hname, hlen⟩ | ⟨hnot, -⟩ := x.signature_cases
  · obtain ⟨f, slots, P, hdraft, hplan⟩ := draft_ok hadm hlabels
    obtain ⟨n, into, f₂, F, hl⟩ :=
      hplan.ready.exists_lowers ((hplan.provided_iff hlabels).mpr hprov)
    refine ⟨s, f, slots, _, hs, hdraft, by rw [lowerDraft, hl.lower_eq], f, slots, P, n, into,
      f₂, F, ?_⟩
    exact ⟨hlabels, hc.calls, hplan, hl, hname, rfl,
      rfl, by rw [hplan.slots, List.length_map]; exact hlen⟩
  · exact absurd hargs hnot

/-- A procedure that is not correct is refused with an error of the user. -/
theorem refused_of_not_correct (hk : ∀ s ∈ x.body, s ≠ .unknown) (hc : ¬ x.Correct table.names) :
    (∃ e, (do return (← x.signature, ← x.draft table) : Except ProcError _) = .error e ∧
      e.isInternal = false) ∨
    ∃ s f slots e, x.signature = .ok s ∧ x.draft table = .ok (f, slots) ∧
      lowerDraft s f slots = .error e ∧
      e.isInternal = false := by
  obtain ⟨hargs, s, hs, -, -⟩ | ⟨-, e, he, hi⟩ := x.signature_cases
  · by_cases hbody : Stmt.Admitted table [] x.body ∧ Stmt.LabelsDefined x.body
    · obtain ⟨f, slots, P, hdraft, hplan⟩ := draft_ok hbody.1 hbody.2
      have hmiss : ¬ ∀ v, f.Exposed f.route v → v ∈ slots.map Slot.var := fun hprov =>
        hc ((correct_iff hk).mpr ⟨hargs, hbody, (hplan.provided_iff hbody.2).mp hprov⟩)
      obtain ⟨f', vs, hl, -, -⟩ := hplan.ready.exists_missing hmiss
      exact .inr ⟨s, f, slots, _, hs, hdraft, by rw [lowerDraft, hl], rfl⟩
    · obtain ⟨e, he, hi⟩ := draft_error hk hbody
      exact .inl ⟨e, by rw [hs, he]; rfl, hi⟩
  · exact .inl ⟨e, by rw [he]; rfl, hi⟩

end ProcDecl

/-! ## All procedures -/

/-- The error is no fault of the user. -/
def FileError.isInternal : FileError → Bool
  | inProc _ e => e.isInternal
  | _ => false

namespace SourceFile

variable {program : Program} {x : ProcDecl} {xs : List ProcDecl}

theorem index?_isSome {name : String} :
    (program.index? name).isSome ↔ name ∈ program.procs.map Procedure.name := by
  simp [Program.index?]

theorem compileProcs_redefined (h : x.name.name ∈ program.procs.map Procedure.name) :
    (compileProcs program (x :: xs)).result = .error (.procRedefined x.span.pos x.name.name) := by
  rw [compileProcs, if_pos (index?_isSome.mpr h)]

theorem compileProcs_incorrect (xs : List ProcDecl)
    (h : x.name.name ∉ program.procs.map Procedure.name) (hk : ∀ s ∈ x.body, s ≠ .unknown)
    (hc : ¬ x.Correct program.foreign.names) :
    ∃ e, (compileProcs program (x :: xs)).result = .error e ∧ e.isInternal = false := by
  rw [compileProcs, if_neg fun hs => h (index?_isSome.mp hs)]
  rcases x.refused_of_not_correct hk hc with ⟨e, he, hi⟩ | ⟨s, f, slots, e, hs, hd, hl, hi⟩
  · rw [he]
    exact ⟨_, rfl, hi⟩
  · rw [hs, hd]
    simp only [bind, Except.bind, pure, Except.pure, hl]
    exact ⟨_, rfl, hi⟩

theorem compileProcs_correct (xs : List ProcDecl)
    (h : x.name.name ∉ program.procs.map Procedure.name) (hk : ∀ s ∈ x.body, s ≠ .unknown)
    (hc : x.Correct program.foreign.names) :
    ∃ p, CompiledTo program.foreign x p ∧ (compileProcs program (x :: xs)).result =
      (compileProcs { program with procs := program.procs ++ [p] } xs).result := by
  obtain ⟨s, f, slots, p, hs, hd, hl, hp⟩ := x.compiled_of_correct hk hc
  refine ⟨p, hp, ?_⟩
  rw [compileProcs, if_neg fun hs => h (index?_isSome.mp hs), hs, hd]
  simp only [bind, Except.bind, pure, Except.pure, hl]

/-- The procedures can be compiled in turn. -/
def ProcsOk (foreign names : List String) (xs : List ProcDecl) : Prop :=
  AllNew (ProcDecl.Correct foreign) (·.name.name) names xs

theorem compileProcs_cases (xs : List ProcDecl) (program : Program)
    (hk : ∀ x ∈ xs, ∀ s ∈ x.body, s ≠ .unknown) :
    (ProcsOk program.foreign.names (program.procs.map Procedure.name) xs ∧
      ∃ ps, (compileProcs program xs).result = .ok { program with procs := program.procs ++ ps } ∧
        List.Forall₂ (CompiledTo program.foreign) xs ps) ∨
    (¬ ProcsOk program.foreign.names (program.procs.map Procedure.name) xs ∧
      ∃ e, (compileProcs program xs).result = .error e ∧ e.isInternal = false) := by
  induction xs generalizing program with
  | nil => exact .inl ⟨allNew_nil, [], by simp [compileProcs], .nil⟩
  | cons x xs ih =>
    rw [ProcsOk, allNew_cons]
    by_cases hx : x.name.name ∈ program.procs.map Procedure.name
    · exact .inr ⟨fun h => h.1.2 hx, _, compileProcs_redefined hx, rfl⟩
    by_cases hc : x.Correct program.foreign.names
    · obtain ⟨p, hp, hr⟩ := compileProcs_correct xs hx (hk x (by simp)) hc
      rw [hr]
      have hnames :
          ({ program with procs := program.procs ++ [p] } : Program).procs.map Procedure.name =
          program.procs.map Procedure.name ++ [x.name.name] := by simp [hp.name_eq]
      rcases ih { program with procs := program.procs ++ [p] }
        (fun y hy => hk y (by simp [hy])) with
        ⟨hall, ps, hps, hf⟩ | ⟨hall, e, he, hi⟩
      · rw [hnames] at hall
        exact .inl ⟨⟨⟨hc, hx⟩, hall⟩, p :: ps, by rw [hps]; simp, .cons hp hf⟩
      · rw [hnames] at hall
        exact .inr ⟨fun h => hall h.2, e, he, hi⟩
    · obtain ⟨e, he, hi⟩ := compileProcs_incorrect xs hx (hk x (by simp)) hc
      exact .inr ⟨fun h => hc h.1.1, e, he, hi⟩

/-! ## The file -/

/-- One foreign function after those of `t`. -/
def declareForeign (t : ForeignTable) (id : Ident) : Except FileError ForeignTable :=
  match t.define? id.name with
  | some t => .ok t
  | none => .error (.foreignRedefined id.span.pos id.name)

theorem declareForeigns_cases (ids : List Ident) (t : ForeignTable) :
    (AllNew (fun _ => True) Ident.name t.names ids ∧
      ids.foldlM declareForeign t = .ok { names := t.names ++ ids.map Ident.name }) ∨
    (¬ AllNew (fun _ => True) Ident.name t.names ids ∧
      ∃ e, ids.foldlM declareForeign t = .error e ∧ e.isInternal = false) := by
  induction ids generalizing t with
  | nil => exact .inl ⟨allNew_nil, by simp; rfl⟩
  | cons id ids ih =>
    rw [allNew_cons, List.foldlM_cons, declareForeign, ForeignTable.define?]
    by_cases hid : id.name ∈ t.names
    · rw [if_pos hid]
      exact .inr ⟨fun h => h.1.2 hid, _, rfl, rfl⟩
    · rw [if_neg hid]
      rcases ih { names := t.names ++ [id.name] } with ⟨hall, hok⟩ | ⟨hall, e, he, hi⟩
      · rw [List.append_assoc] at hok
        exact .inl ⟨⟨⟨trivial, hid⟩, hall⟩, hok⟩
      · exact .inr ⟨fun h => hall h.2, e, he, hi⟩

theorem foreignTable_cases (file : SourceFile) :
    ((file.foreign.map Ident.name).Nodup ∧
      file.foreignTable = .ok { names := file.foreign.map Ident.name }) ∨
    (¬ (file.foreign.map Ident.name).Nodup ∧ ∃ e, file.foreignTable = .error e ∧
      e.isInternal = false) := by
  rcases declareForeigns_cases file.foreign {} with ⟨hall, hok⟩ | ⟨hall, e, he, hi⟩
  · exact .inl ⟨hall.2, hok⟩
  · exact .inr ⟨fun hn => hall ⟨fun id _ => ⟨trivial, by simp⟩, hn⟩, e, he, hi⟩

/-- A known file is compiled if it is correct, and refused with an error of the user otherwise. -/
theorem compile_cases {file : SourceFile} (hk : file.Known) :
    (file.Correct ∧ ∃ ps, file.compile.result =
        .ok { foreign := { names := file.foreign.map Ident.name }, procs := ps } ∧
      List.Forall₂ (CompiledTo { names := file.foreign.map Ident.name }) file.procs ps) ∨
    (¬ file.Correct ∧ ∃ e, file.compile.result = .error e ∧ e.isInternal = false) := by
  obtain ⟨hn, ht⟩ | ⟨hn, e, he, hi⟩ := file.foreignTable_cases
  · rw [compile, ht]
    rcases compileProcs_cases file.procs { foreign := { names := file.foreign.map Ident.name } }
      hk with
      ⟨⟨hall, hnames⟩, ps, hps, hf⟩ | ⟨hall, e, he, hi⟩
    · exact .inl ⟨⟨hn, hnames, fun x hx => (hall x hx).1⟩, ps, hps, hf⟩
    · exact .inr ⟨fun hc => hall ⟨fun x hx => ⟨hc.correct x hx, by simp⟩, hc.procs⟩, e, he, hi⟩
  · rw [compile, he]
    exact .inr ⟨fun hc => hn hc.foreign, e, rfl, hi⟩

end SourceFile

end ProcCompiler
