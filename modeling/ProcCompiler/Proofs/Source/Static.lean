import ProcCompiler.ForeignTable
import ProcCompiler.Syntax
import Mathlib.Data.List.Nodup
import Mathlib.Data.List.Infix
/-!
# Static correctness

When a file is correct, said of its syntax tree alone. Names are declared once. The labels of a body
are defined once and those it uses are defined, no statement stands where control cannot reach it,
and a variable that some path through the body reads before writing it is an argument.

`Stmt.Admitted` is the part of this that a pass over the body can check statement by statement.

* `Stmt.Exposed`: some path reads a variable before writing it.
* `ProcDecl.Correct`, `SourceFile.Correct`: static correctness.
* `Stmt.admitted_iff`: what the pass over the body checks.
-/
namespace ProcCompiler

/-- A name that stands nowhere. -/
def Ident.bare (name : String) : Ident := { span := ⟨0, 0⟩, name }

namespace Stmt

/-! ## One statement -/

/-- The label that a statement defines. -/
def defines? : Stmt → Option String
  | label id => some id.name
  | _ => none

/-- The labels that a statement uses. -/
def uses : Stmt → List String
  | goto target => [target.name]
  | branch _ yes no => [yes.name, no.name]
  | _ => []

/-- Control does not go on to the next statement. -/
def isTransfer : Stmt → Bool
  | goto _ => true
  | branch _ _ _ => true
  | ret _ => true
  | _ => false

/-- The variable that a statement reads. -/
def reads? : Stmt → Option String
  | move _ src => some src.name
  | call _ var => some var.name
  | branch cond _ _ => some cond.name
  | _ => none

/-- The variable that a statement writes, after it has read. -/
def writes? : Stmt → Option String
  | move dst _ => some dst.name
  | call _ var => some var.name
  | _ => none

/-! ## Paths through a body -/

/-- What stands after a label. -/
def after (name : String) : List Stmt → Option (List Stmt)
  | [] => none
  | s :: rest => if s.defines? = some name then some rest else after name rest

/-- Some path through the body, from the statements `rest` on, reads the variable before it writes
it. -/
inductive Exposed (body : List Stmt) : List Stmt → String → Prop where
  | read {s : Stmt} {rest : List Stmt} {x : String} (hr : s.reads? = some x) :
      Exposed body (s :: rest) x
  | next {s : Stmt} {rest : List Stmt} {x : String} (ht : s.isTransfer = false)
      (hw : s.writes? ≠ some x)
      (h : Exposed body rest x) : Exposed body (s :: rest) x
  | jump {s : Stmt} {rest target : List Stmt} {l x : String} (hl : l ∈ s.uses)
      (ha : after l body = some target)
      (h : Exposed body target x) : Exposed body (s :: rest) x

theorem after_suffix {name : String} {body rest : List Stmt} (h : after name body = some rest) :
    rest <:+ body := by
  induction body with
  | nil => cases h
  | cons s body ih =>
    rw [after] at h
    split at h
    · cases h; exact List.suffix_cons s _
    · exact (ih h).trans (List.suffix_cons s body)

theorem after_isSome {name : String} {body : List Stmt} :
    (after name body).isSome ↔ name ∈ body.filterMap defines? := by
  induction body with
  | nil => simp [after]
  | cons s body ih =>
    rw [after]
    split
    · rename_i hs; simp [hs]
    · rename_i hs
      rw [ih, List.mem_filterMap, List.mem_filterMap]
      simp [hs]

/-- Every label that the statements use is defined by one of them. -/
def LabelsDefined (body : List Stmt) : Prop :=
  ∀ name ∈ body.flatMap uses, name ∈ body.filterMap defines?

theorem LabelsDefined.exists_after {body rest : List Stmt} {s : Stmt} {name : String}
    (h : LabelsDefined body) (hs : s :: rest <:+ body) (hu : name ∈ s.uses) :
    ∃ target, after name body = some target :=
  Option.isSome_iff_exists.mp (after_isSome.mpr (h name
    (List.mem_flatMap.mpr ⟨s, hs.subset (by simp), hu⟩)))

/-! ## Statement by statement -/

/-- Control reaches the end of the statements. -/
def goesOn (done : List Stmt) : Bool :=
  match done.getLast? with
  | some s => !s.isTransfer
  | none => true

/-- The statement may stand after others. -/
def MayFollow (table : ForeignTable) (done : List Stmt) : Stmt → Prop
  | .label id => id.name ∉ done.filterMap defines?
  | .call fn _ => goesOn done ∧ fn.name ∈ table.names
  | .unknown => False
  | _ => goesOn done

/-- Every statement may stand where it does, after the statements `done`. -/
def Admitted (table : ForeignTable) (done : List Stmt) : List Stmt → Prop
  | [] => True
  | s :: rest => s.MayFollow table done ∧ Admitted table (done ++ [s]) rest

end Stmt

/-! ## Correct files -/

/-- A correct procedure, in a file that declares the given foreign functions. -/
structure ProcDecl.Correct (foreign : List String) (x : ProcDecl) : Prop where
  access : ∀ a ∈ x.args, a.access.name ∈ ["ref", "mut", "out"]
  size : ∀ a ∈ x.args, 0 < a.size
  args : (x.args.map (·.name.name)).Nodup
  labels : (x.body.filterMap Stmt.defines?).Nodup
  targets : Stmt.LabelsDefined x.body
  reachable : ∀ before s between t rest, x.body = before ++ s :: (between ++ t :: rest) →
    s.isTransfer →
    t.defines? = none → ∃ u ∈ between, u.defines?.isSome
  calls : ∀ fn var, .call fn var ∈ x.body → fn.name ∈ foreign
  provided : ∀ name, Stmt.Exposed x.body x.body name → name ∈ x.args.map (·.name.name)

structure SourceFile.Correct (file : SourceFile) : Prop where
  foreign : (file.foreign.map Ident.name).Nodup
  procs : (file.procs.map (·.name.name)).Nodup
  correct : ∀ x ∈ file.procs, x.Correct (file.foreign.map Ident.name)

/-- Every statement of the file is of a known form. -/
def SourceFile.Known (file : SourceFile) : Prop := ∀ x ∈ file.procs, ∀ s ∈ x.body, s ≠ .unknown

instance (file : SourceFile) : Decidable file.Known :=
  inferInstanceAs (Decidable (∀ x ∈ file.procs, ∀ s ∈ x.body, s ≠ .unknown))

namespace Stmt

variable {table : ForeignTable}

theorem admitted_iff_mayFollow {done rest : List Stmt} : Admitted table done rest ↔
    ∀ before s after, rest = before ++ s :: after → s.MayFollow table (done ++ before) := by
  induction rest generalizing done with
  | nil => simp [Admitted]
  | cons t rest ih =>
    rw [Admitted, ih]
    constructor
    · rintro ⟨ht, hr⟩ before s after heq
      cases before with
      | nil => cases heq; simpa using ht
      | cons u before => cases heq; simpa using hr before s after rfl
    · intro h
      exact ⟨by simpa using h [] t rest rfl, fun before s after heq => by
        simpa using h (t :: before) s after (by rw [heq]; rfl)⟩

theorem nodup_defines_iff {body : List Stmt} : (body.filterMap defines?).Nodup ↔
    ∀ before s after, body = before ++ s :: after → ∀ l, s.defines? = some l →
      l ∉ before.filterMap defines? := by
  constructor
  · rintro h before s after rfl l hl hm
    rw [List.filterMap_append, List.filterMap_cons_some hl, List.nodup_append] at h
    exact h.2.2 l hm l (by simp) rfl
  · intro h
    induction body using List.reverseRecOn with
    | nil => exact List.nodup_nil
    | append_singleton body s ih =>
      have hbody := ih fun before t after heq => h before t (after ++ [s]) (by rw [heq]; simp)
      rw [List.filterMap_append]
      cases hs : s.defines? with
      | none => simpa [hs] using hbody
      | some l =>
        have hnot := h body s [] rfl l hs
        rw [List.filterMap_cons_some hs, List.filterMap_nil, List.nodup_append]
        refine ⟨hbody, List.nodup_singleton l, fun a ha b hb => ?_⟩
        rw [List.mem_singleton.mp hb]
        rintro rfl
        exact hnot ha

/-- No statement stands where control cannot reach it, of neighbours and of statements apart. -/
theorem reachable_iff {body : List Stmt} :
    (∀ before s after, body = before ++ s :: after → s.defines? = none → goesOn before) ↔
      ∀ before s between t rest, body = before ++ s :: (between ++ t :: rest) → s.isTransfer →
        t.defines? = none → ∃ u ∈ between, u.defines?.isSome := by
  constructor
  · intro h before s between t rest heq hs ht
    have hfirst : ∀ u after, body = (before ++ [s]) ++ u :: after → u.defines? ≠ none :=
      fun u after hu hnone => by
      simpa [goesOn, hs] using h _ u after hu hnone
    cases between with
    | nil => exact absurd ht (hfirst t rest (by simp [heq]))
    | cons u between =>
      exact ⟨u, by simp,
        Option.isSome_iff_ne_none.mpr (hfirst u (between ++ t :: rest) (by simp [heq]))⟩
  · intro h before t after heq ht
    rcases List.eq_nil_or_concat before with rfl | ⟨before, s, rfl⟩
    · rfl
    · by_contra hg
      obtain ⟨u, hu, -⟩ :=
        h before s [] t after (by simpa using heq) (by simpa [goesOn] using hg) ht
      cases hu

/-- What the pass over a body checks. -/
theorem admitted_iff {body : List Stmt} (hk : ∀ s ∈ body, s ≠ .unknown) : Admitted table [] body ↔
    (body.filterMap defines?).Nodup ∧
    (∀ before s between t rest, body = before ++ s :: (between ++ t :: rest) → s.isTransfer →
      t.defines? = none → ∃ u ∈ between, u.defines?.isSome) ∧
    ∀ fn var, .call fn var ∈ body → fn.name ∈ table.names := by
  rw [admitted_iff_mayFollow, nodup_defines_iff, ← reachable_iff]
  simp only [List.nil_append]
  constructor
  · intro h
    refine ⟨fun before s after heq l hl => ?_, fun before s after heq hs => ?_, fun fn var hm => ?_⟩
    · have := h before s after heq
      cases s <;> simp_all [defines?, MayFollow]
    · have := h before s after heq
      cases s <;> simp_all [defines?, MayFollow]
    · obtain ⟨before, after, heq⟩ := List.append_of_mem hm
      exact (h before _ after heq).2
  · rintro ⟨hl, hr, hc⟩ before s after heq
    have hm : s ∈ body := by rw [heq]; simp
    have hgo := hr before s after heq
    cases s with
    | label id => exact hl before _ after heq id.name rfl
    | call fn var => exact ⟨hgo rfl, hc fn var hm⟩
    | unknown => exact hk _ hm rfl
    | _ => exact hgo rfl

end Stmt

end ProcCompiler
