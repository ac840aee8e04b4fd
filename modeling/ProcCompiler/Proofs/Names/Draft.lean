import ProcCompiler.Draft
import ProcCompiler.Proofs.Names.Lowering
import ProcCompiler.Proofs.Routine.Builder
import ProcCompiler.Proofs.Syntax.Grammar
import Mathlib.Logic.Embedding.Basic
/-!
# Drafting under other names

Variables, labels, foreign functions and procedures get new names, each kind by an injection of its
own, and the parts of the text get new places. Each step of drafting does to the renamed state what
it did before, renamed. So the draft of the renamed procedure is the renamed draft; neither exists
without the other.

* `Renaming`: the injections. `Stmt.renamed`, `ProcDecl.renamed`, `Draft.renamed`: what they do.
* `Build.Mirrors`, `Drafting.Mirrors`: a step and its image.
* `Mirrors.varOf`, `Mirrors.blockOf`: the two tables that are searched by name.
* `Mirrors.statement`: one statement.
* `draft_renamed`: a whole procedure.
-/
namespace ProcCompiler

/-- New names for variables, labels, foreign functions and procedures, each kind on its own. -/
structure Renaming where
  var : String ↪ String
  label : String ↪ String
  foreign : String ↪ String
  proc : String ↪ String

/-! ## Renamed parts -/

def Span.moved (place : Int → Int) (s : Span) : Span := ⟨place s.pos, place s.stop⟩

def Ident.renamed (name : String → String) (place : Int → Int) (id : Ident) : Ident where
  span := id.span.moved place
  name := name id.name

section

variable (m : Renaming) (place : Int → Int)

def Stmt.renamed : Stmt → Stmt
  | .label name => .label (name.renamed m.label place)
  | .move dst src => .move (dst.renamed m.var place) (src.renamed m.var place)
  | .call fn var => .call (fn.renamed m.foreign place) (var.renamed m.var place)
  | .goto target => .goto (target.renamed m.label place)
  | .branch cond yes no =>
    .branch (cond.renamed m.var place) (yes.renamed m.label place) (no.renamed m.label place)
  | .ret span => .ret (span.moved place)
  | .unknown => .unknown

/-- The access keeps its name. -/
def ArgDecl.renamed (a : ArgDecl) : ArgDecl where
  span := a.span.moved place
  access := a.access.renamed id place
  name := a.name.renamed m.var place
  size := a.size

def ProcDecl.renamed (x : ProcDecl) : ProcDecl where
  span := x.span.moved place
  name := x.name.renamed m.proc place
  args := x.args.map (ArgDecl.renamed m place)
  body := x.body.map (Stmt.renamed m place)

def ForeignTable.renamed (t : ForeignTable) : ForeignTable where
  names := t.names.map m.foreign

def Routine.renamed (f : Routine) : Routine := f.withNames (m.proc f.name) (f.vars.map m.var)

def LabelEntry.renamed (e : LabelEntry) : LabelEntry :=
  { e with name := m.label e.name, firstUse := place e.firstUse }

def Draft.renamed (d : Draft) : Draft where
  routine := d.routine.renamed m
  labels := d.labels.map (LabelEntry.renamed m place)
  current := d.current

end

/-- A name is found where it was. -/
theorem idxOf?_map_embedding (e : String ↪ String) (names : List String) (s : String) :
    (names.map e).idxOf? (e s) = names.idxOf? s := by
  rw [List.idxOf?, List.idxOf?, List.findIdx?_map]
  congr 1
  funext t
  simp

theorem ForeignTable.lookup?_renamed (m : Renaming) (t : ForeignTable) (name : String) :
    (t.renamed m).lookup? (m.foreign name) = t.lookup? name :=
  idxOf?_map_embedding m.foreign t.names name

/-! ## Steps of building -/

namespace Build

variable {α β : Type} {m : Renaming}

/-- What a step gives, if it succeeds. -/
def outcome (x : Build α) (f : Routine) : Option (α × Routine) :=
  match x f with
  | .ok a f => some (a, f)
  | .error _ _ => none

theorem outcome_bind (x : Build α) (k : α → Build β) (f : Routine) :
    outcome (x >>= k) f = (outcome x f).bind fun p => outcome (k p.1) p.2 := by
  simp only [outcome, bind, EStateM.bind]
  cases x f <;> rfl

/-- The step `x'` does to the renamed routine what `x` does, renamed. -/
def Mirrors (m : Renaming) (x x' : Build α) : Prop :=
  ∀ f, outcome x' (f.renamed m) = (outcome x f).map fun p => (p.1, p.2.renamed m)

theorem Mirrors.bind {x x' : Build α} {k k' : α → Build β} (h : Mirrors m x x')
    (hk : ∀ a, Mirrors m (k a) (k' a)) : Mirrors m (x >>= k) (x' >>= k') := by
  intro f
  rw [outcome_bind, outcome_bind]
  exact bind_view (h f) fun p => hk p.1 p.2

theorem mirrors_pure (a : α) : Mirrors m (pure a) (pure a) := fun _ => rfl

theorem mirrors_newVar (name : String) : Mirrors m (newVar name) (newVar (m.var name)) := by
  intro f
  have hpush : (f.vars.map m.var).push (m.var name) = (f.vars.push name).map m.var :=
    Array.map_push.symm
  have hsize : (f.renamed m).vars.size = f.vars.size := Array.size_map
  show some (((f.renamed m).vars.size : Var), _) = some ((f.vars.size : Var), _)
  rw [hsize]
  show some (_, { f.renamed m with vars := (f.vars.map m.var).push (m.var name) }) = _
  rw [hpush]
  rfl

theorem mirrors_createBlock : Mirrors m createBlock createBlock := fun _ => rfl

theorem mirrors_read (b : Label) (v : Var) : Mirrors m (read b v) (read b v) := by
  intro f
  simp only [outcome, read_eq]
  rw [show (f.renamed m).find? b = f.find? b from rfl]
  cases f.find? b <;> rfl

theorem mirrors_write (b : Label) (v : Var) : Mirrors m (write b v) (write b v) := by
  intro f
  simp only [outcome, write_eq]
  rw [show (f.renamed m).find? b = f.find? b from rfl]
  cases f.find? b with
  | none => rfl
  | some p =>
    dsimp only
    rw [show (f.renamed m).block p = f.block p from rfl]
    cases (f.block p).isComplete <;> rfl

theorem mirrors_add (b : Label) (x : Instr Reg Operand Label) : Mirrors m (add b x) (add b x) := by
  intro f
  simp only [outcome, add_eq]
  rw [show (f.renamed m).find? b = f.find? b from rfl]
  cases f.find? b with
  | none => rfl
  | some p =>
    dsimp only
    rw [show (f.renamed m).block p = f.block p from rfl]
    cases (f.block p).isComplete <;> rfl

theorem mirrors_move (b : Label) (dst src : Var) : Mirrors m (move b dst src) (move b dst src) :=
  (mirrors_read b src).bind fun _ => (mirrors_write b dst).bind fun _ =>
    (mirrors_add b _).bind fun _ =>
    mirrors_pure _

theorem mirrors_call (b : Label) (fn : FuncId) (v : Var) : Mirrors m (call b fn v) (call b fn v) :=
  (mirrors_read b v).bind fun _ => (mirrors_write b v).bind fun _ => (mirrors_add b _).bind fun _ =>
    mirrors_pure _

theorem mirrors_branch (b : Label) (cond : Var) (taken other : Label) :
    Mirrors m (branch b cond taken other) (branch b cond taken other) :=
  (mirrors_read b cond).bind fun _ => (mirrors_add b _).bind fun _ => mirrors_pure _

end Build

/-! ## Steps of drafting -/

namespace Drafting

variable {α β : Type} {m : Renaming} {place : Int → Int}

/-- The step `x'` does to the renamed draft what `x` does, renamed. -/
def Mirrors (m : Renaming) (place : Int → Int) (x x' : Drafting α) : Prop :=
  ∀ d, (x' (d.renamed m place)).toOption = (x d).toOption.map fun p => (p.1, p.2.renamed m place)

namespace Mirrors

theorem pure (a : α) : Mirrors m place (pure a) (pure a) := fun _ => rfl

theorem throw (e e' : ProcError) : Mirrors m place (throw e : Drafting α) (throw e') := fun _ => rfl

theorem bind {x x' : Drafting α} {k k' : α → Drafting β} (h : Mirrors m place x x')
    (hk : ∀ a, Mirrors m place (k a) (k' a)) : Mirrors m place (x >>= k) (x' >>= k') := by
  intro d
  show (x' (d.renamed m place) >>= fun p => k' p.1 p.2).toOption =
    (x d >>= fun p => k p.1 p.2).toOption.map _
  rw [toOption_bind, toOption_bind]
  exact bind_view (h d) fun p => hk p.1 p.2

/-- A step that is left out if a check fails. -/
theorem checked {c : Bool} {e e' : ProcError} {x x' : Drafting α} (h : Mirrors m place x x') :
    Mirrors m place (if c then (MonadExcept.throw e : Drafting Unit) >>= fun _ => x else x)
      (if c then (MonadExcept.throw e' : Drafting Unit) >>= fun _ => x' else x') := by
  cases c with
  | true => exact (throw e e').bind fun _ => h
  | false => exact h

/-- A step that depends on the draft. -/
theorem get {k k' : Draft → Drafting α} (hk : ∀ d, Mirrors m place (k d) (k' (d.renamed m place))) :
    Mirrors m place (get >>= k) (get >>= k') := fun d => hk d d

theorem modify {change change' : Draft → Draft}
    (h : ∀ d, change' (d.renamed m place) = (change d).renamed m place) :
    Mirrors m place (modify change) (modify change') := by
  intro d
  show some (_, change' (d.renamed m place)) = some (_, (change d).renamed m place)
  rw [h d]

theorem build {x x' : Build α} (h : Build.Mirrors m x x') :
    Mirrors m place (build x) (build x') := by
  have hbuild : ∀ (x : Build α) (d : Draft),
      (Drafting.build x d).toOption = (Build.outcome x d.routine).map fun p =>
        (p.1, { d with routine := p.2 }) := by
    intro x d
    simp only [Drafting.build, Build.outcome]
    cases x d.routine <;> rfl
  intro d
  rw [hbuild, hbuild]
  show (Build.outcome x' (d.routine.renamed m)).map _ = _
  rw [h d.routine, Option.map_map, Option.map_map]
  rfl

theorem discard {x x' : Drafting α} (h : Mirrors m place x x') :
    Mirrors m place (discard x) (discard x') := by
  have hdiscard : ∀ x : Drafting α, (Functor.discard x : Drafting PUnit) = x >>= fun _ =>
      Pure.pure ⟨⟩ := fun _ => rfl
  rw [hdiscard, hdiscard]
  exact h.bind fun _ => pure _

/-- A variable is found under its new name where it was, or is new under both. -/
theorem varOf (name : String) : Mirrors m place (varOf name) (varOf (m.var name)) := by
  refine get fun d => ?_
  have hfind : (d.renamed m place).routine.vars.toList.idxOf? (m.var name) =
      d.routine.vars.toList.idxOf? name := by
    show (d.routine.vars.map m.var).toList.idxOf? (m.var name) = _
    rw [Array.toList_map, idxOf?_map_embedding]
  rw [hfind]
  cases d.routine.vars.toList.idxOf? name with
  | some v => exact pure _
  | none => exact build (Build.mirrors_newVar name)

/-- So is the block of a label. -/
theorem blockOf (id : Ident) :
    Mirrors m place (blockOf id) (blockOf (id.renamed m.label place)) := by
  refine get fun d => ?_
  have hfind : (d.renamed m place).labels.find? (·.name = (id.renamed m.label place).name) =
      (d.labels.find? (·.name = id.name)).map (LabelEntry.renamed m place) := by
    show (d.labels.map (LabelEntry.renamed m place)).find? _ = _
    rw [List.find?_map]
    congr 2
    funext e
    simp [LabelEntry.renamed, Ident.renamed]
  rw [hfind]
  cases d.labels.find? (·.name = id.name) with
  | some e => exact pure _
  | none =>
    refine (build Build.mirrors_createBlock).bind fun b => bind (modify fun d => ?_) fun _ => pure _
    simp [Draft.renamed, LabelEntry.renamed, Ident.renamed, Span.moved]

theorem define (name : String) : Mirrors m place (define name) (define (m.label name)) := by
  refine modify fun d => ?_
  simp only [Draft.renamed, List.map_map]
  congr 1
  refine List.map_congr_left fun e _ => ?_
  by_cases he : e.name = name <;> simp [LabelEntry.renamed, he]

theorem leave : Mirrors m place leave leave := modify fun _ => rfl

theorem label (id : Ident) : Mirrors m place (label id) (label (id.renamed m.label place)) := by
  refine get fun d => ?_
  have hdefined :
      ((d.renamed m place).labels.any fun e => e.name = (id.renamed m.label place).name &&
        e.defined) =
      d.labels.any fun e => e.name = id.name && e.defined := by
    simp only [Draft.renamed, List.any_map]
    congr 1
    funext e
    simp [LabelEntry.renamed, Ident.renamed]
  rw [hdefined]
  refine checked ((blockOf id).bind fun b => (define id.name).bind fun _ => get fun d => ?_)
  rw [show (d.renamed m place).current = d.current from rfl]
  cases d.current with
  | some last => exact (build (Build.mirrors_add last _)).bind fun _ => modify fun _ => rfl
  | none => exact modify fun _ => rfl

/-- A statement other than a label. -/
theorem code (table : ForeignTable) (b : BlockId) (s : Stmt) :
    Mirrors m place (code table b s) (code (table.renamed m) b (s.renamed m place)) := by
  cases s with
  | label id => exact throw _ _
  | move dst src =>
    exact (varOf src.name).bind fun v => (varOf dst.name).bind fun w =>
      (build (Build.mirrors_move b w v)).discard
  | call fn var =>
    simp only [Drafting.code, Stmt.renamed]
    rw [show (fn.renamed m.foreign place).name = m.foreign fn.name from
      rfl, ForeignTable.lookup?_renamed]
    cases table.lookup? fn.name with
    | none => exact throw _ _
    | some i => exact (varOf var.name).bind fun v => (build (Build.mirrors_call b i v)).discard
  | goto target =>
    exact (blockOf target).bind fun t => (build (Build.mirrors_add b _)).bind fun _ => leave
  | branch cond yes no =>
    exact (varOf cond.name).bind fun v => (blockOf yes).bind fun t => (blockOf no).bind fun u =>
      (build (Build.mirrors_branch b v t u)).discard.bind fun _ => leave
  | ret span => exact (build (Build.mirrors_add b _)).bind fun _ => leave
  | unknown => exact throw _ _

/-- One statement. -/
theorem statement (table : ForeignTable) (s : Stmt) :
    Mirrors m place (statement table s) (statement (table.renamed m) (s.renamed m place)) := by
  cases s with
  | label id => exact label id
  | _ =>
    refine get fun d => ?_
    rw [show (d.renamed m place).current = d.current from rfl]
    cases d.current with
    | some b => exact code table b _
    | none => exact throw _ _

theorem finish : Mirrors m place finish finish := by
  have hfind : ∀ d : Draft, (d.renamed m place).labels.find? (!·.defined) =
      (d.labels.find? (!·.defined)).map (LabelEntry.renamed m place) := fun _ => List.find?_map
  refine get fun d => ?_
  rw [show (d.renamed m place).current = d.current from rfl]
  cases d.current
  case' some b => refine (build (Build.mirrors_add b _)).bind fun _ => ?_
  all_goals
    refine get fun d => ?_
    rw [hfind]
    cases d.labels.find? (!·.defined) with
    | some e => exact throw _ _
    | none => exact pure _

theorem forM {x x' : Stmt → Drafting PUnit}
    (h : ∀ s, Mirrors m place (x s) (x' (s.renamed m place))) :
    ∀ ss : List Stmt, Mirrors m place (ss.forM x) ((ss.map (Stmt.renamed m place)).forM x')
  | [] => pure _
  | s :: ss => (h s).bind fun _ => forM h ss

theorem mapM {x x' : ArgDecl → Drafting α}
    (h : ∀ a, Mirrors m place (x a) (x' (a.renamed m place))) :
    ∀ as : List ArgDecl, Mirrors m place (as.mapM x) ((as.map (ArgDecl.renamed m place)).mapM x')
  | [] => pure _
  | a :: as => by
    rw [List.map_cons, List.mapM_cons, List.mapM_cons]
    exact (h a).bind fun _ => (mapM h as).bind fun _ => pure _

end Mirrors

end Drafting

namespace ProcDecl

variable (m : Renaming) (place : Int → Int)

theorem mirrors_drafting (table : ForeignTable) (x : ProcDecl) :
    Drafting.Mirrors m place (x.drafting table)
      ((x.renamed m place).drafting (table.renamed m)) := by
  refine (Drafting.Mirrors.mapM (fun a => ?_) x.args).bind fun slots => ?_
  · exact (Drafting.Mirrors.varOf a.name.name).bind fun _ => .pure _
  · refine (Drafting.Mirrors.build Build.mirrors_createBlock).bind fun b => ?_
    refine .bind (.modify fun _ => rfl) fun _ => ?_
    refine (Drafting.Mirrors.forM (Drafting.Mirrors.statement table) x.body).bind fun _ => ?_
    exact Drafting.Mirrors.finish.bind fun _ => .pure _

/-- The draft of the renamed procedure is the renamed draft. -/
theorem draft_renamed (table : ForeignTable) (x : ProcDecl) :
    ((x.renamed m place).draft (table.renamed m)).toOption =
      (x.draft table).toOption.map fun p => (p.1.renamed m, p.2) := by
  have hnew : ({ routine := .new (m.proc x.name.name) } : Draft) =
      Draft.renamed m place { routine := .new x.name.name } := by
    simp [Draft.renamed, Routine.renamed, Routine.withNames, Routine.new]
  have hrun := mirrors_drafting m place table x { routine := .new x.name.name }
  rw [← hnew] at hrun
  rw [draft, draft, toOption_bind, toOption_bind]
  exact bind_view hrun fun _ => rfl

end ProcDecl

end ProcCompiler
