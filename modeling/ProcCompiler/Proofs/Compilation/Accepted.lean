import ProcCompiler.Proofs.Compilation.Procedures
import ProcCompiler.Proofs.Syntax.Derivation
/-!
# Which files are compiled

Compilation accepts exactly the correct files. Every other file, and every text, is refused with an
error of the user: no stage breaks a contract with another, and verification never finds a defect.

* `SourceFile.known_of_parse`, `SourceFile.known_of_compile`: parsed and compiled statements are
  known.
* `SourceFile.exists_compiledTo`: where the procedures of a program come from.
* `compile_ok_iff_correct`: the accepted files.
* `no_internal_error`: no input shows an internal error.
-/
namespace ProcCompiler

/-! ## Parsed statements are known -/

theorem StmtTokens.known {us : List Token} {s : Stmt} (h : StmtTokens us s) : s ≠ .unknown := by
  cases h <;> simp

theorem ProcTokens.known {us : List Token} {x : ProcDecl} (h : ProcTokens us x) :
    ∀ s ∈ x.body, s ≠ .unknown := by
  cases h with
  | proc _ _ hbody =>
    intro s hs
    obtain ⟨vs, hvs⟩ := hbody.exists_of_mem hs
    exact hvs.known

theorem FileTokens.known {ts : List Token} {f : SourceFile} (h : FileTokens ts f) : f.Known := by
  induction h with
  | nil => exact fun x hx => by cases hx
  | ffi _ _ ih => exact ih
  | proc hp _ ih =>
    rintro x (_ | ⟨_, hx⟩)
    · exact hp.known
    · exact ih x hx

theorem SourceFile.known_of_parse {bytes : List UInt8} {file : SourceFile}
    (h : SourceFile.parse bytes = .ok file) : file.Known := by
  obtain ⟨ts, -, hts⟩ := derives_of_parse h
  rintro x hx s hs rfl
  exact hts.known _ (List.mem_map_of_mem hx) _ (List.mem_map_of_mem hs) rfl

/-! ## Compiled statements are known -/

/-- Drafting stops at an unknown statement. -/
theorem Draft.known_of_forM {table : ForeignTable} {body : List Stmt} {d : Draft} {r : Unit × Draft}
    (h : body.forM (Drafting.statement table) d = .ok r) : ∀ s ∈ body, s ≠ .unknown := by
  induction body generalizing d with
  | nil => intro s hs; cases hs
  | cons s rest ih =>
    cases hs : Drafting.statement table s d with
    | error e => rw [forM_cons_error hs] at h; cases h
    | ok q =>
      rw [forM_cons_ok hs] at h
      rintro t (_ | ⟨_, ht⟩)
      · rintro rfl
        cases hb : d.current with
        | none => rw [statement_closed hb (by simp)] at hs; cases hs
        | some b => rw [statement_current hb (by simp)] at hs; cases hs
      · exact ih h t ht

theorem ProcDecl.known_of_draft {table : ForeignTable} {x : ProcDecl} {r : Routine × List Slot}
    (h : x.draft table = .ok r) : ∀ s ∈ x.body, s ≠ .unknown := by
  obtain ⟨d, slots, -, -, -, -, -, hdraft⟩ := x.exists_start table
  rw [hdraft] at h
  obtain ⟨r', hbody, -⟩ := ok_of_bind h
  exact Draft.known_of_forM hbody

theorem SourceFile.known_of_compileProcs {xs : List ProcDecl} {program program' : Program}
    (h : (compileProcs program xs).result = .ok program') :
    ∀ x ∈ xs, ∀ s ∈ x.body, s ≠ .unknown := by
  fun_induction compileProcs program xs with
  | case1 => intro x hx; cases hx
  | case2 => cases h
  | case3 => cases h
  | case4 => cases h
  | case5 program x xs _ signature f slots hx p _ more ih =>
    rintro y (_ | ⟨_, hy⟩)
    · obtain ⟨s, -, hdraft⟩ := ok_of_bind hx
      obtain ⟨r, hdraft, -⟩ := ok_of_bind hdraft
      exact x.known_of_draft hdraft
    · exact ih h y hy

theorem SourceFile.known_of_compile {file : SourceFile} {program : Program}
    (h : file.compile.result = .ok program) : file.Known := by
  unfold compile at h
  split at h
  · cases h
  · exact known_of_compileProcs h

/-- Every procedure of a program was compiled from one of the file. -/
theorem SourceFile.exists_compiledTo {file : SourceFile} {program : Program}
    (h : file.compile.result = .ok program) {p : Procedure} (hp : p ∈ program.procs) :
    ∃ x ∈ file.procs, CompiledTo program.foreign x p := by
  rcases compile_cases (known_of_compile h) with ⟨-, ps, hps, hall⟩ | ⟨-, e, he, -⟩
  · cases h.symm.trans hps
    obtain ⟨i, hi, rfl⟩ := List.getElem_of_mem hp
    have hi' : i < file.procs.length := hall.length_eq ▸ hi
    exact ⟨_, List.getElem_mem hi', hall.get hi' hi⟩
  · rw [he] at h
    cases h

/-! ## Accepted files -/

/-- A file of known statements is compiled exactly if it is correct. -/
theorem compile_ok_iff_correct {file : SourceFile} (hk : file.Known) :
    (∃ p, file.compile.result = .ok p) ↔ file.Correct := by
  rcases SourceFile.compile_cases hk with ⟨hc, ps, hps, -⟩ | ⟨hc, e, he, -⟩
  · exact ⟨fun _ => hc, fun _ => ⟨_, hps⟩⟩
  · refine ⟨?_, fun h => absurd h hc⟩
    rintro ⟨p, hp⟩
    rw [he] at hp
    cases hp

/-- Calls a function on `x` until it answers, then copies `x`. -/
def pollFile : SourceFile where
  foreign := [.bare "ask"]
  procs := [{
    span := ⟨0, 0⟩
    name := .bare "poll"
    args := [{ span := ⟨0, 0⟩, access := .bare "mut", name := .bare "x", size := 8 }]
    body := [.label (.bare "again"), .call (.bare "ask") (.bare "x"),
      .branch (.bare "x") (.bare "done") (.bare "again"), .label (.bare "done"),
      .move (.bare "y") (.bare "x")] }]

theorem compile_pollFile : ∃ p, pollFile.compile.result = .ok p := by
  have h : pollFile.compile.result.isOk := by decide +kernel
  cases hr : pollFile.compile.result with
  | ok p => exact ⟨p, rfl⟩
  | error e => rw [hr] at h; cases h

theorem pollFile_correct : pollFile.Known ∧ pollFile.Correct :=
  ⟨by decide, (compile_ok_iff_correct (by decide)).mp compile_pollFile⟩

/-! ## Errors -/

/-- The error is no fault of the user: a stage broke its contract, or the code has a defect. -/
def CompileError.isInternal : CompileError → Bool
  | parse _ => false
  | compile e => e.isInternal
  | verify _ _ => true

theorem Program.verify_eq_ok {p : Program} (h : ∀ x ∈ p.procs, x.verify = .ok ()) :
    p.verify = .ok p := by
  have hall : p.procs.forM (fun x => x.verify.mapError (CompileError.verify x.name)) = .ok () :=
    forM_eq_ok fun x hx => by rw [h x hx]; rfl
  rw [verify, hall]
  rfl

theorem verify_of_compiledTo {table : ForeignTable} {xs : List ProcDecl} {ps : List Procedure}
    (h : List.Forall₂ (CompiledTo table) xs ps) : ∀ p ∈ ps, p.verify = .ok () := by
  induction h with
  | nil => simp
  | cons hp _ ih =>
    rintro q (_ | ⟨_, hq⟩)
    · exact hp.verify_ok
    · exact ih q hq

/-- A file of known statements is refused with an error of the user, or its program passes
verification. -/
theorem SourceFile.compile_verified {file : SourceFile} (hk : file.Known) :
    (∃ e, file.compile.result = .error e ∧ e.isInternal = false) ∨
      ∃ p, file.compile.result = .ok p ∧ p.verify = .ok p := by
  rcases compile_cases hk with ⟨-, ps, hps, hf⟩ | ⟨-, e, he, hi⟩
  · exact .inr ⟨_, hps, Program.verify_eq_ok (verify_of_compiledTo hf)⟩
  · exact .inl ⟨e, he, hi⟩

/-- No input shows an internal error: a text is compiled or refused with an error of the user, and
so is a syntax tree of known statements. -/
theorem no_internal_error :
    (∀ bytes e, (compile bytes).result = .error e → e.isInternal = false) ∧
    ∀ file : SourceFile, file.Known → ∀ e, file.compile.result = .error e →
      e.isInternal = false := by
  constructor
  · intro bytes e h
    rw [compile] at h
    cases hparse : SourceFile.parse bytes with
    | error e' => rw [hparse] at h; cases h; rfl
    | ok file =>
      rw [hparse] at h
      rcases SourceFile.compile_verified (SourceFile.known_of_parse hparse) with
        ⟨e', he, hi⟩ | ⟨p, hp, hv⟩
      · simp only [he] at h
        cases h
        exact hi
      · simp only [hp] at h
        rw [show (Except.mapError CompileError.compile (.ok p)).bind Program.verify = p.verify from
          rfl, hv] at h
        cases h
  · intro file hk e h
    rcases SourceFile.compile_verified hk with ⟨e', he, hi⟩ | ⟨p, hp, -⟩
    · rw [he] at h
      cases h
      exact hi
    · rw [hp] at h
      cases h

/-- A text that jumps to a label that is not there. -/
def danglingText : List UInt8 := "proc p() { goto l }".toUTF8.toList

theorem compile_danglingText :
    (compile danglingText).result = .error (.compile (.inProc "p" (.undefinedLabel 16 "l"))) := by
  decide +kernel

/-- A procedure that copies `y`, which nothing provides. -/
def unprovidedFile : SourceFile where
  procs := [
    { span := ⟨0, 0⟩, name := .bare "p", args := [], body := [.move (.bare "x") (.bare "y")] }]

theorem compile_unprovidedFile : unprovidedFile.compile.result =
    .error (.inProc "p" (.signature { proc := "p", missing := ["y"] })) := by decide +kernel

theorem danglingText_unprovidedFile_refused :
    (∃ e, (compile danglingText).result = .error e ∧ e.isInternal = false) ∧
    unprovidedFile.Known ∧ ∃ e, unprovidedFile.compile.result = .error e ∧ e.isInternal = false :=
  ⟨⟨_, compile_danglingText, no_internal_error.1 _ _ compile_danglingText⟩, by decide,
    _, compile_unprovidedFile, no_internal_error.2 _ (by decide) _ compile_unprovidedFile⟩

end ProcCompiler
