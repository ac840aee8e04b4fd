import ProcCompiler.Instr
/-!
# Instruction words

A word stores an instruction in six fields: operation code, function, written slot, read slot, jump
target and other target. An operation uses some of the fields and leaves the others idle. The view
of a word is the instruction it stores, `Word.instr`; changing the instruction leaves idle fields
alone, changing the type of a field resets it where it is idle.

* `Word.instr_replaceRead`, `Word.instr_retarget`, `Word.instr_mapWrite`, `Word.instr_mapRead`,
  `Word.instr_mapLabel`: a change of a word is a change of the instruction that it stores.
* `Word.replaceRead_eq`, `Word.retarget_eq`, `Word.mapWrite_eq`, `Word.mapRead_eq`,
  `Word.mapLabel_eq`: the fields after a change.
-/
namespace ProcCompiler

structure Word (ω ρ ℓ : Type) where
  op : Int
  fn : FuncId
  out : ω
  arg : ρ
  label : ℓ
  other : ℓ
deriving DecidableEq

namespace Word

variable {ω ω' ρ ρ' ℓ ℓ' : Type}

/-- The instruction stored in the word. -/
def instr (w : Word ω ρ ℓ) : Instr ω ρ ℓ :=
  if w.op = 1 then .action (.move w.out w.arg)
  else if w.op = 2 then .action (.call w.fn w.out w.arg)
  else if w.op = 3 then .exit (.jump w.label)
  else if w.op = 4 then .exit (.branch w.arg w.label w.other)
  else if w.op = 5 then .exit .ret
  else .action (.unknown w.op)

/-- Stores an instruction into the fields it uses; the idle fields stay. -/
def store (w : Word ω ρ ℓ) : Instr ω ρ ℓ → Word ω ρ ℓ
  | .action (.move out arg) => { w with op := 1, out, arg }
  | .action (.call fn out arg) => { w with op := 2, fn, out, arg }
  | .exit (.jump label) => { w with op := 3, label }
  | .exit (.branch arg label other) => { w with op := 4, arg, label, other }
  | .exit .ret => { w with op := 5 }
  | .action (.unknown op) => { w with op }

def replaceRead [DecidableEq ρ] (old new : ρ) (w : Word ω ρ ℓ) : Word ω ρ ℓ :=
  w.store (w.instr.replaceRead old new)

def retarget [DecidableEq ℓ] (old new : ℓ) (w : Word ω ρ ℓ) : Word ω ρ ℓ :=
  w.store (w.instr.retarget old new)

def mapWrite [Inhabited ω'] (f : ω → ω') (w : Word ω ρ ℓ) : Word ω' ρ ℓ :=
  let idle : Word ω' ρ ℓ :=
    { op := w.op, fn := w.fn, out := default, arg := w.arg, label := w.label, other := w.other }
  idle.store (w.instr.mapWrite f)

def mapRead [Inhabited ρ'] (f : ρ → ρ') (w : Word ω ρ ℓ) : Word ω ρ' ℓ :=
  let idle : Word ω ρ' ℓ :=
    { op := w.op, fn := w.fn, out := w.out, arg := default, label := w.label, other := w.other }
  idle.store (w.instr.mapRead f)

def mapLabel [Inhabited ℓ'] (f : ℓ → ℓ') (w : Word ω ρ ℓ) : Word ω ρ ℓ' :=
  let idle : Word ω ρ ℓ' :=
    { op := w.op, fn := w.fn, out := w.out, arg := w.arg, label := default, other := default }
  idle.store (w.instr.mapLabel f)

/-! ## The view -/

/-- The operation codes with a meaning. -/
def codes : List Int := [1, 2, 3, 4, 5]

/-- A word by its operation. -/
@[elab_as_elim] theorem opCases {motive : Word ω ρ ℓ → Prop} (w : Word ω ρ ℓ)
    (move : ∀ fn out arg label other, motive ⟨1, fn, out, arg, label, other⟩)
    (call : ∀ fn out arg label other, motive ⟨2, fn, out, arg, label, other⟩)
    (jump : ∀ fn out arg label other, motive ⟨3, fn, out, arg, label, other⟩)
    (branch : ∀ fn out arg label other, motive ⟨4, fn, out, arg, label, other⟩)
    (ret : ∀ fn out arg label other, motive ⟨5, fn, out, arg, label, other⟩)
    (unknown : ∀ w : Word ω ρ ℓ, w.op ∉ codes → motive w) : motive w := by
  by_cases hop : w.op ∈ codes
  · obtain ⟨op, fn, out, arg, label, other⟩ := w
    simp only [codes, List.mem_cons, List.not_mem_nil, or_false] at hop
    rcases hop with rfl | rfl | rfl | rfl | rfl
    · exact move ..
    · exact call ..
    · exact jump ..
    · exact branch ..
    · exact ret ..
  · exact unknown w hop

theorem instr_of_unknown {w : Word ω ρ ℓ} (h : w.op ∉ codes) :
    w.instr = .action (.unknown w.op) := by
  simp only [codes, List.mem_cons, List.not_mem_nil, not_or] at h
  simp [instr, h]

/-- An instruction is proper if it has no operation code, or one without a meaning. -/
def Proper : Instr ω ρ ℓ → Prop
  | .action (.unknown op) => op ∉ codes
  | _ => True

theorem proper_instr (w : Word ω ρ ℓ) : Proper w.instr := by
  cases w using opCases with
  | unknown w hop =>
    rw [instr_of_unknown hop]
    exact hop
  | _ => trivial

/-- The view of a word is what was stored in it. -/
theorem instr_store (w : Word ω ρ ℓ) {x : Instr ω ρ ℓ} (hx : Proper x) : (w.store x).instr = x := by
  rcases x with (⟨out, arg⟩ | ⟨fn, out, arg⟩ | op) | (target | ⟨cond, taken, other⟩ | _)
  case action.unknown => exact instr_of_unknown hx
  all_goals rfl

/-- Storing the instruction that a word holds changes nothing. -/
theorem store_instr (w : Word ω ρ ℓ) : w.store w.instr = w := by
  cases w using opCases with
  | unknown w hop =>
    rw [instr_of_unknown hop]
    rfl
  | _ => rfl

theorem proper_mapWrite {f : ω → ω'} {x : Instr ω ρ ℓ} : Proper (x.mapWrite f) ↔ Proper x := by
  rcases x with (_ | _ | _) | (_ | _ | _) <;> rfl

theorem proper_mapRead {f : ρ → ρ'} {x : Instr ω ρ ℓ} : Proper (x.mapRead f) ↔ Proper x := by
  rcases x with (_ | _ | _) | (_ | _ | _) <;> rfl

theorem proper_mapLabel {f : ℓ → ℓ'} {x : Instr ω ρ ℓ} : Proper (x.mapLabel f) ↔ Proper x := by
  rcases x with (_ | _ | _) | (_ | _ | _) <;> rfl

theorem instr_replaceRead [DecidableEq ρ] (old new : ρ) (w : Word ω ρ ℓ) :
    (w.replaceRead old new).instr = w.instr.replaceRead old new :=
  instr_store w (proper_mapRead.mpr w.proper_instr)

theorem instr_retarget [DecidableEq ℓ] (old new : ℓ) (w : Word ω ρ ℓ) :
    (w.retarget old new).instr = w.instr.retarget old new :=
  instr_store w (proper_mapLabel.mpr w.proper_instr)

theorem instr_mapWrite [Inhabited ω'] (f : ω → ω') (w : Word ω ρ ℓ) :
    (w.mapWrite f).instr = w.instr.mapWrite f :=
  instr_store _ (proper_mapWrite.mpr w.proper_instr)

theorem instr_mapRead [Inhabited ρ'] (f : ρ → ρ') (w : Word ω ρ ℓ) :
    (w.mapRead f).instr = w.instr.mapRead f :=
  instr_store _ (proper_mapRead.mpr w.proper_instr)

theorem instr_mapLabel [Inhabited ℓ'] (f : ℓ → ℓ') (w : Word ω ρ ℓ) :
    (w.mapLabel f).instr = w.instr.mapLabel f :=
  instr_store _ (proper_mapLabel.mpr w.proper_instr)

/-! ## Idle fields -/

/-- The target of a jump, or the taken one of a branch. -/
def target? (w : Word ω ρ ℓ) : Option ℓ := if w.op = 3 ∨ w.op = 4 then some w.label else none

/-- The other target of a branch. -/
def other? (w : Word ω ρ ℓ) : Option ℓ := if w.op = 4 then some w.other else none

theorem target?_of_unknown {w : Word ω ρ ℓ} (h : w.op ∉ codes) : w.target? = none := by
  refine if_neg fun hop => h ?_
  rcases hop with hop | hop <;> simp [hop, codes]

theorem other?_of_unknown {w : Word ω ρ ℓ} (h : w.op ∉ codes) : w.other? = none :=
  if_neg fun hop => h (by simp [hop, codes])

/-- An idle slot is reset, and the other fields stay. -/
theorem mapWrite_eq [Inhabited ω'] (f : ω → ω') (w : Word ω ρ ℓ) :
    w.mapWrite f =
      { op := w.op, fn := w.fn, out := (w.instr.write?.map f).getD default, arg := w.arg
        label := w.label, other := w.other } := by
  cases w using opCases with
  | unknown w hop =>
    rw [mapWrite, instr_of_unknown hop]
    rfl
  | _ => rfl

theorem mapRead_eq [Inhabited ρ'] (f : ρ → ρ') (w : Word ω ρ ℓ) :
    w.mapRead f =
      { op := w.op, fn := w.fn, out := w.out, arg := (w.instr.read?.map f).getD default
        label := w.label, other := w.other } := by
  cases w using opCases with
  | unknown w hop =>
    rw [mapRead, instr_of_unknown hop]
    rfl
  | _ => rfl

theorem mapLabel_eq [Inhabited ℓ'] (f : ℓ → ℓ') (w : Word ω ρ ℓ) :
    w.mapLabel f =
      { op := w.op, fn := w.fn, out := w.out, arg := w.arg
        label := (w.target?.map f).getD default, other := (w.other?.map f).getD default } := by
  cases w using opCases with
  | unknown w hop =>
    rw [mapLabel, instr_of_unknown hop, target?_of_unknown hop, other?_of_unknown hop]
    rfl
  | _ => rfl

/-- Only a slot that is read is replaced. -/
theorem replaceRead_eq [DecidableEq ρ] (old new : ρ) (w : Word ω ρ ℓ) :
    w.replaceRead old new = if w.instr.read? = some old then { w with arg := new } else w := by
  cases w using opCases with
  | unknown w hop =>
    rw [replaceRead, instr_of_unknown hop]
    rfl
  | jump | ret => rfl
  | move fn out arg | call fn out arg | branch fn out arg =>
    by_cases h : arg = old <;>
      simp [replaceRead, Instr.replaceRead, instr, Instr.mapRead, Action.mapRead, Exit.mapRead,
        store, Instr.read?, Action.read?, Exit.read?, h]

/-- Only a target that is used is replaced. -/
theorem retarget_eq [DecidableEq ℓ] (old new : ℓ) (w : Word ω ρ ℓ) :
    w.retarget old new =
      { w with
        label := if w.target? = some old then new else w.label
        other := if w.other? = some old then new else w.other } := by
  cases w using opCases with
  | unknown w hop =>
    rw [retarget, instr_of_unknown hop, target?_of_unknown hop, other?_of_unknown hop]
    rfl
  | _ =>
    simp [retarget, Instr.retarget, instr, Instr.mapLabel, Exit.mapLabel, store, target?, other?]

end Word

end ProcCompiler
