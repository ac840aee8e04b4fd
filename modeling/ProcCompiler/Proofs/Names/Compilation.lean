import ProcCompiler.Proofs.Compilation.Accepted
import ProcCompiler.Proofs.Names.Draft
import Mathlib.Logic.Equiv.Basic
/-!
# Names do not reach the code

A file whose variables, labels, foreign functions and procedures have other names is compiled if and
only if the file itself is. The procedures then have the same code, the same number of locals and
arguments of the same access and size, and the ids of foreign functions stand for the new names. Nor
do places matter. Names of different kinds never meet: a variable may have the name of a label
before or after.

* `signature_renamed`, `lowerDraft_renamed`: one procedure.
* `compileProcs_cons`, `compileProcs_renamed`: procedures one after another.
* `compile_renamed`: files.
-/
namespace ProcCompiler

/-! ## Renamed files and programs -/

section

variable (m : Renaming) (place : Int → Int)

def SourceFile.renamed (f : SourceFile) : SourceFile where
  foreign := f.foreign.map (Ident.renamed m.foreign place)
  procs := f.procs.map (ProcDecl.renamed m place)

def Argument.renamed (a : Argument) : Argument := { a with name := m.var a.name }

def Signature.renamed (s : Signature) : Signature where
  name := m.proc s.name
  args := s.args.map (Argument.renamed m)

/-- Code and locals stay. -/
def Procedure.renamed (p : Procedure) : Procedure where
  name := m.proc p.name
  signature := p.signature.map (Signature.renamed m)
  code := p.code
  locals := p.locals

def Program.renamed (p : Program) : Program where
  foreign := p.foreign.renamed m
  procs := p.procs.map (Procedure.renamed m)

/-! ## One procedure -/

theorem Signature.declare_renamed (s : Signature) (a : Argument) :
    ((s.renamed m).declare (a.renamed m)).toOption = (s.declare a).toOption.map
      (Signature.renamed m) := by
  have hany : ((s.renamed m).args.any (·.name = (a.renamed m).name)) =
      s.args.any (·.name = a.name) := by
    simp only [renamed, List.any_map]
    congr 1
    funext b
    simp [Argument.renamed]
  rw [declare, declare, hany]
  by_cases hsize : a.size ≤ 0
  · rw [if_pos hsize, if_pos (show (a.renamed m).size ≤ 0 from hsize)]
    rfl
  · rw [if_neg hsize, if_neg (show ¬ (a.renamed m).size ≤ 0 from hsize)]
    split
    · rfl
    · simp [renamed, Except.toOption]

theorem ProcDecl.signature_renamed (x : ProcDecl) :
    (x.renamed m place).signature.toOption = x.signature.toOption.map (Signature.renamed m) := by
  unfold signature
  refine toOption_foldlM (φ := Signature.renamed m)
    (ψ := ArgDecl.renamed m place) (fun s a => ?_) x.args
    { name := x.name.name }
  rw [show (a.renamed m place).access.name = a.access.name from rfl]
  cases Access.ofName? a.access.name with
  | none => rfl
  | some access =>
    dsimp only
    rw [toOption_mapError, toOption_mapError]
    exact s.declare_renamed m { name := a.name.name, access, size := a.size }

theorem lowerDraft_eq (s : Signature) (f : Routine) (slots : List Slot) :
    (lowerDraft s f slots).toOption =
    (f.lowered? slots).map fun l =>
      { name := s.name, signature := some s, code := l.code, locals := l.locals } := by
  unfold lowerDraft Routine.lowered?
  cases f.lower slots with
  | error v => rfl
  | ok p =>
    obtain ⟨F, r⟩ := p
    cases r <;> rfl

theorem lowerDraft_renamed (s : Signature) (f : Routine) (slots : List Slot) :
    (lowerDraft (s.renamed m) (f.renamed m) slots).toOption =
      (lowerDraft s f slots).toOption.map (Procedure.renamed m) := by
  rw [lowerDraft_eq, lowerDraft_eq, Routine.renamed, Routine.lowered?_withNames, Option.map_map]
  rfl

/-! ## Files -/

theorem SourceFile.foreignTable_renamed (f : SourceFile) :
    (f.renamed m place).foreignTable.toOption = f.foreignTable.toOption.map
      (ForeignTable.renamed m) := by
  unfold foreignTable
  refine toOption_foldlM (φ := ForeignTable.renamed m)
    (ψ := Ident.renamed m.foreign place) (fun t id => ?_)
    f.foreign {}
  have hdefine : (t.renamed m).define? (id.renamed m.foreign place).name =
      (t.define? id.name).map (ForeignTable.renamed m) := by
    have hmem : m.foreign id.name ∈ t.names.map m.foreign ↔ id.name ∈ t.names :=
      List.mem_map_of_injective m.foreign.injective
    by_cases h : id.name ∈ t.names <;>
      simp [ForeignTable.define?, ForeignTable.renamed, Ident.renamed, hmem, h]
  rw [hdefine]
  cases t.define? id.name <;> rfl

theorem Program.index?_renamed (p : Program) (name : String) :
    (p.renamed m).index? (m.proc name) = p.index? name := by
  simp only [index?, renamed, List.findIdx?_map]
  congr 1
  funext q
  simp [Procedure.renamed]

end

namespace SourceFile

/-- A procedure after others. -/
theorem compileProcs_cons (p : Program) (x : ProcDecl) (xs : List ProcDecl) :
    (compileProcs p (x :: xs)).result.toOption =
      if (p.index? x.name.name).isSome then none
      else x.signature.toOption.bind fun s => (x.draft p.foreign).toOption.bind fun q =>
        (lowerDraft s q.1 q.2).toOption.bind fun y =>
          (compileProcs { p with procs := p.procs ++ [y] } xs).result.toOption := by
  rw [compileProcs]
  split
  · rfl
  · cases x.signature with
    | error e => rfl
    | ok s =>
      cases x.draft p.foreign with
      | error e => rfl
      | ok q =>
        obtain ⟨f, slots⟩ := q
        show _ = (lowerDraft s f slots).toOption.bind _
        dsimp only [bind, Except.bind, pure, Except.pure]
        cases lowerDraft s f slots <;> rfl

variable (m : Renaming) (place : Int → Int)

theorem compileProcs_renamed (p : Program) (xs : List ProcDecl) :
    (compileProcs (p.renamed m) (xs.map (ProcDecl.renamed m place))).result.toOption =
      (compileProcs p xs).result.toOption.map (Program.renamed m) := by
  induction xs generalizing p with
  | nil => rfl
  | cons x xs ih =>
    rw [List.map_cons, compileProcs_cons, compileProcs_cons]
    rw [show (x.renamed m place).name.name = m.proc x.name.name from rfl, Program.index?_renamed]
    split
    · rfl
    · refine bind_view (x.signature_renamed m place) fun s => ?_
      refine bind_view (x.draft_renamed m place p.foreign) fun q => ?_
      refine bind_view (lowerDraft_renamed m s q.1 q.2) fun y => ?_
      have hprocs : (p.renamed m).procs ++ [y.renamed m] =
          (p.procs ++ [y]).map (Procedure.renamed m) := by
        rw [List.map_append]
        rfl
      rw [hprocs]
      exact ih { p with procs := p.procs ++ [y] }

theorem renamed_compile (f : SourceFile) :
    (f.renamed m place).compile.result.toOption = f.compile.result.toOption.map
      (Program.renamed m) := by
  have hcompile : ∀ f : SourceFile, f.compile.result.toOption =
      f.foreignTable.toOption.bind fun foreign =>
        (compileProcs { foreign } f.procs).result.toOption := by
    intro f
    rw [compile]
    cases f.foreignTable <;> rfl
  rw [hcompile, hcompile]
  exact bind_view (f.foreignTable_renamed m place) fun t =>
    compileProcs_renamed m place { foreign := t } f.procs

end SourceFile

/-! ## Places -/

namespace Renaming

/-- All names stay. -/
def keep : Renaming := ⟨.refl _, .refl _, .refl _, .refl _⟩

end Renaming

theorem Program.renamed_keep (p : Program) : p.renamed .keep = p := by
  have hargs : Argument.renamed .keep = id := rfl
  have hsignature : Signature.renamed .keep = id := funext fun s => by
    rw [Signature.renamed, hargs, List.map_id]
    rfl
  have hproc : Procedure.renamed .keep = id := funext fun q => by
    rw [Procedure.renamed, hsignature, Option.map_id]
    rfl
  have hforeign : p.foreign.renamed .keep = p.foreign := by
    rw [ForeignTable.renamed, show ⇑Renaming.keep.foreign = id from rfl, List.map_id]
  rw [renamed, hproc, List.map_id, hforeign]

/-- A tree without its places is a tree with other places. -/
theorem SourceFile.unplaced_eq (f : SourceFile) : f.unplaced = f.renamed .keep fun _ => 0 := by
  have hstmt : Stmt.unplaced = Stmt.renamed .keep fun _ => 0 := funext fun s => by cases s <;> rfl
  have harg : ArgDecl.unplaced = ArgDecl.renamed .keep fun _ => 0 := rfl
  have hproc : ProcDecl.unplaced = ProcDecl.renamed .keep fun _ => 0 := funext fun x => by
    rw [ProcDecl.unplaced, hstmt, harg]
    rfl
  rw [unplaced, hproc]
  rfl

theorem SourceFile.compile_unplaced (f : SourceFile) :
    f.unplaced.compile.result.toOption = f.compile.result.toOption := by
  rw [unplaced_eq, renamed_compile, show Program.renamed .keep = id from
    funext Program.renamed_keep, Option.map_id]
  rfl

/-- A file under other names, its parts in whatever places, is compiled if and only if the file is,
and to the same program under the new names. -/
theorem compile_renamed (m : Renaming) {file file' : SourceFile}
    (h : file'.unplaced = (file.renamed m id).unplaced) :
    file'.compile.result.toOption = file.compile.result.toOption.map (Program.renamed m) := by
  rw [← file'.compile_unplaced, h, SourceFile.compile_unplaced, SourceFile.renamed_compile]

/-- The variable gets the name of the label, and the foreign function and the procedure get each
other's. -/
def sharing : Renaming where
  var := (Equiv.swap "x" "again").toEmbedding
  label := .refl _
  foreign := (Equiv.swap "ask" "poll").toEmbedding
  proc := (Equiv.swap "ask" "poll").toEmbedding

def sharedFile : SourceFile where
  foreign := [{ span := ⟨4, 8⟩, name := "poll" }]
  procs := [{
    span := ⟨9, 90⟩
    name := { span := ⟨14, 17⟩, name := "ask" }
    args := [{
      span := ⟨18, 29⟩
      access := { span := ⟨18, 21⟩, name := "mut" }
      name := { span := ⟨22, 27⟩, name := "again" }
      size := 8 }]
    body := [.label (.bare "again"), .call (.bare "poll") (.bare "again"),
      .branch (.bare "again") (.bare "done") (.bare "again"), .label (.bare "done"),
      .move (.bare "y") (.bare "again")] }]

theorem compile_sharedFile : sharedFile.unplaced = (pollFile.renamed sharing id).unplaced ∧
    ∃ p, pollFile.compile.result = .ok p ∧
    sharedFile.compile.result.toOption = some (p.renamed sharing) := by
  have hfile : sharedFile.unplaced = (pollFile.renamed sharing id).unplaced := by decide +kernel
  obtain ⟨p, hp⟩ := compile_pollFile
  refine ⟨hfile, p, hp, ?_⟩
  rw [compile_renamed sharing hfile, hp]
  rfl

end ProcCompiler
