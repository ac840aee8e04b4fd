import ProcCompiler.Bytecode
import ProcCompiler.Proofs.Draft.Plan
import ProcCompiler.Proofs.Semantics.Machine
import ProcCompiler.Proofs.Source.Static
import Mathlib.Logic.Function.Basic
/-!
# What code does

Code runs on a store: a value for each location, and the world that foreign functions act on. The
meaning of a foreign function depends on its name only, and a condition holds or not depending on
its value. Every call is an event.

* `sourceMachine`: the statements of a body, on variables by name.
* `blockMachine`: blocks of straight-line code, on locations of any kind.
* `codeMachine`: code with offsets, such as bytecode, on locations of any kind.
-/
namespace ProcCompiler

/-- What foreign functions do, and which values count as true. -/
structure Interp (V W : Type) where
  apply : String → V → W → V × W
  holds : V → Bool

/-- A call that was made: the function and the value it was called on. -/
structure Event (V : Type) where
  fn : String
  value : V

/-- The values of locations, and the world. -/
structure Store (ρ V W : Type) where
  mem : ρ → V
  world : W

variable {ρ ℓ V W : Type} [DecidableEq ρ]

namespace Store

/-- Gives a location a value. -/
def set (s : Store ρ V W) (r : ρ) (v : V) : Store ρ V W :=
  { s with mem := Function.update s.mem r v }

/-- Calls a function on a value and leaves its answer in a location. -/
def call (s : Store ρ V W) (I : Interp V W) (fn : String) (out : ρ) (v : V) : Store ρ V W where
  mem := Function.update s.mem out (I.apply fn v s.world).1
  world := (I.apply fn v s.world).2

@[simp] theorem mem_set (s : Store ρ V W) (r : ρ) (v : V) :
    (s.set r v).mem = Function.update s.mem r v := rfl

@[simp] theorem world_set (s : Store ρ V W) (r : ρ) (v : V) : (s.set r v).world = s.world := rfl

@[simp] theorem mem_call (s : Store ρ V W) (I : Interp V W) (fn : String) (out : ρ) (v : V) :
    (s.call I fn out v).mem = Function.update s.mem out (I.apply fn v s.world).1 := rfl

@[simp] theorem world_call (s : Store ρ V W) (I : Interp V W) (fn : String) (out : ρ) (v : V) :
    (s.call I fn out v).world = (I.apply fn v s.world).2 := rfl

end Store

/-! ## Statements -/

/-- Where a body is: the statements to come, and the variables. -/
structure SourceState (V W : Type) where
  rest : List Stmt
  store : Store String V W

/-- Goes on after a label. -/
def jumpAfter (body : List Stmt) (label : String) (s : Store String V W) :
    Next (SourceState V W) (Event V) :=
  match Stmt.after label body with
  | some rest => .go none { rest, store := s }
  | none => .stuck

/-- The statements of a body. The end of the body halts. -/
def sourceStep (I : Interp V W) (body : List Stmt) :
    SourceState V W → Next (SourceState V W) (Event V)
  | ⟨[], _⟩ => .halt
  | ⟨.label _ :: rest, s⟩ => .go none { rest, store := s }
  | ⟨.move dst src :: rest, s⟩ => .go none { rest, store := s.set dst.name (s.mem src.name) }
  | ⟨.call fn var :: rest, s⟩ =>
    .go (some { fn := fn.name, value := s.mem var.name })
      { rest, store := s.call I fn.name var.name (s.mem var.name) }
  | ⟨.goto target :: _, s⟩ => jumpAfter body target.name s
  | ⟨.branch cond yes no :: _, s⟩ =>
    jumpAfter body (if I.holds (s.mem cond.name) then yes.name else no.name) s
  | ⟨.ret _ :: _, _⟩ => .halt
  | ⟨.unknown :: _, _⟩ => .stuck

def sourceMachine (I : Interp V W) (body : List Stmt) : Machine (SourceState V W) (Event V) W where
  step := sourceStep I body
  world s := s.store.world

/-- The variables at the start of a procedure: arguments have the given values, and other names have
any. -/
def ProcDecl.startMem (x : ProcDecl) (values : Nat → V) (others : String → V) (name : String) : V :=
  match x.args.findIdx? (·.name.name = name) with
  | some i => values i
  | none => others name

/-! ## Instructions -/

/-- What an action shows and leaves. -/
def Action.exec (I : Interp V W) (fnName : FuncId → String) (s : Store ρ V W) :
    Action ρ ρ → Option (Option (Event V) × Store ρ V W)
  | .move out arg => some (none, s.set out (s.mem arg))
  | .call fn out arg =>
    some (some { fn := fnName fn, value := s.mem arg }, s.call I (fnName fn) out (s.mem arg))
  | .unknown _ => none

omit [DecidableEq ρ] in
/-- Where an exit leads, unless it returns. -/
def Exit.follow (I : Interp V W) (mem : ρ → V) : Exit ρ ℓ → Option ℓ
  | .jump target => some target
  | .branch cond taken other => some (if I.holds (mem cond) then taken else other)
  | .ret => none

/-- An action with other locations for what it reads and writes does the same, if it reads the same
value. -/
theorem Action.exec_rename {ρ' : Type} [DecidableEq ρ'] (I : Interp V W) (fnName : FuncId → String)
    {a : Action ρ ρ} {v w : ρ} {r r' : ρ'} {s : Store ρ V W} {t : Store ρ' V W}
    (hv : a.read? = some v) (hw : a.write? = some w) (hval : t.mem r' = s.mem v)
    (hworld : t.world = s.world) : ∃ event value world,
      a.exec I fnName s = some (event, ⟨Function.update s.mem w value, world⟩) ∧
      ((a.mapRead fun _ => r').mapWrite fun _ => r).exec I fnName t =
        some (event, ⟨Function.update t.mem r value, world⟩) := by
  cases a with
  | move out arg =>
    cases hv; cases hw
    refine ⟨none, s.mem v, s.world, rfl, ?_⟩
    simp [Action.exec, Action.mapRead, Action.mapWrite, Store.set, hval, hworld]
  | call fn out arg =>
    cases hv; cases hw
    refine ⟨_, _, _, rfl, ?_⟩
    simp [Action.exec, Action.mapRead, Action.mapWrite, Store.call, hval, hworld]
  | unknown code => cases hv

/-- A location and its other name get the same value. -/
theorem update_renamed {ρ' : Type} [DecidableEq ρ'] {g : ρ → ρ'} {a : ρ → V} {c : ρ' → V} {r w : ρ}
    (hinj : g r = g w → r = w) (h : c (g r) = a r) (x : V) :
    Function.update c (g w) x (g r) = Function.update a w x r := by
  by_cases hr : r = w
  · rw [hr, Function.update_self, Function.update_self]
  · rw [Function.update_of_ne hr, Function.update_of_ne fun he => hr (hinj he), h]

/-! ## Blocks -/

/-- Where code in blocks is, and its store. -/
structure BlockState (ρ V W : Type) where
  point : Point
  store : Store ρ V W

/-- Takes an exit to the start of a block. -/
def leaveBlock (I : Interp V W) (s : Store ρ V W) (e : Exit ρ Label) :
    Next (BlockState ρ V W) (Event V) :=
  match e.follow I s.mem with
  | none => .halt
  | some (.ofNat t) => .go none { point := { block := t, index := 0 }, store := s }
  | some (.negSucc _) => .stuck

/-- Straight-line code in blocks. -/
def blockStep (I : Interp V W) (fnName : FuncId → String) (blocks : BlockId → Listing ρ)
    (s : BlockState ρ V W) :
    Next (BlockState ρ V W) (Event V) :=
  match (blocks s.point.block).body[s.point.index]? with
  | some a =>
    match a.exec I fnName s.store with
    | some (event, store) =>
      .go event { point := { s.point with index := s.point.index + 1 }, store }
    | none => .stuck
  | none =>
    match (blocks s.point.block).exit with
    | some e => leaveBlock I s.store e
    | none => .stuck

def blockMachine (I : Interp V W) (fnName : FuncId → String) (blocks : BlockId → Listing ρ) :
    Machine (BlockState ρ V W) (Event V) W where
  step := blockStep I fnName blocks
  world s := s.store.world

section

variable {I : Interp V W} {fnName : FuncId → String} {blocks : BlockId → Listing ρ} {q : Point}
  {s : Store ρ V W}

theorem blockStep_action {a : Action ρ ρ} (h : (blocks q.block).body[q.index]? = some a)
    {event : Option (Event V)} {s' : Store ρ V W} (ha : a.exec I fnName s = some (event, s')) :
    (blockMachine I fnName blocks).step ⟨q, s⟩ =
      .go event ⟨{ q with index := q.index + 1 }, s'⟩ := by
  simp only [blockMachine, blockStep, h, ha]

theorem blockStep_exit {e : Exit ρ Label} (h : (blocks q.block).body[q.index]? = none)
    (he : (blocks q.block).exit = some e) :
    (blockMachine I fnName blocks).step ⟨q, s⟩ = leaveBlock I s e := by
  simp only [blockMachine, blockStep, h, he]

end

/-! ## Bytecode -/

/-- Where code with offsets for labels is, and its store. -/
structure CodeState (ρ V W : Type) where
  pc : Int
  store : Store ρ V W

/-- The instruction at an offset. -/
def fetch (code : List (Instr ρ ρ Int)) : Int → Option (Instr ρ ρ Int)
  | .ofNat i => code[i]?
  | .negSucc _ => none

def codeStep (I : Interp V W) (fnName : FuncId → String) (code : List (Instr ρ ρ Int))
    (s : CodeState ρ V W) :
    Next (CodeState ρ V W) (Event V) :=
  match fetch code s.pc with
  | none => .stuck
  | some (.action a) =>
    match a.exec I fnName s.store with
    | some (event, store) => .go event { pc := s.pc + 1, store }
    | none => .stuck
  | some (.exit e) =>
    match e.follow I s.store.mem with
    | none => .halt
    | some target => .go none { s with pc := target }

/-- Code with offsets for labels, such as bytecode. -/
def codeMachine (I : Interp V W) (fnName : FuncId → String) (code : List (Instr ρ ρ Int)) :
    Machine (CodeState ρ V W) (Event V) W where
  step := codeStep I fnName code
  world s := s.store.world

section

variable {I : Interp V W} {fnName : FuncId → String} {code : List (Instr ρ ρ Int)} {pc : Int}
  {s : Store ρ V W}

theorem codeStep_action {a : Action ρ ρ} (h : fetch code pc = some (.action a))
    {event : Option (Event V)} {s' : Store ρ V W} (ha : a.exec I fnName s = some (event, s')) :
    (codeMachine I fnName code).step ⟨pc, s⟩ = .go event ⟨pc + 1, s'⟩ := by
  simp only [codeMachine, codeStep, h, ha]

theorem codeStep_halt {e : Exit ρ Int} (h : fetch code pc = some (.exit e))
    (he : e.follow I s.mem = none) :
    (codeMachine I fnName code).step ⟨pc, s⟩ = .halt := by
  simp only [codeMachine, codeStep, h, he]

theorem codeStep_jump {e : Exit ρ Int} (h : fetch code pc = some (.exit e)) {target : Int}
    (he : e.follow I s.mem = some target) :
    (codeMachine I fnName code).step ⟨pc, s⟩ = .go none ⟨target, s⟩ := by
  simp only [codeMachine, codeStep, h, he]

end

end ProcCompiler
