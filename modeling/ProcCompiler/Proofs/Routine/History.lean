import ProcCompiler.Proofs.Routine.Session
/-!
# What the builder keeps in every history

A history is any run of builder calls, with the answer that each call got. A call may name blocks,
variables and registers that do not exist; it is then refused, or it does what it says. A call that
is not refused edits one block at most. So each block is what its own edits made of it: reads, which
may add a parameter, and, while the block has no exit, bindings and instructions.

* `BuildCall.perform`: a call with its answer.
* `Effect`: what a call may do, when it is refused, and that a refused one does nothing.
* `Effect.block`: what a call does to one block.
* `Block.Grown.follows`: what a block owes to its edits.
* `History.grown`: every block of a history has grown by its edits.
* `builder_invariant`: all of this, for every history.
-/
namespace ProcCompiler

/-! ## Histories -/

/-- What a call answers. -/
inductive Answer where
  | var (v : Var)
  | block (b : BlockId)
  | reg (r : Reg)
  | operand (o : Operand)
  | done
  | refused (e : Violation)

/-- The answer of a computation, and the routine after it. -/
def Build.answer {α : Type} (x : Build α) (wrap : α → Answer) (f : Routine) : Answer × Routine :=
  match x f with
  | .ok a f' => (wrap a, f')
  | .error e f' => (.refused e, f')

/-- The answer of a call, and the routine after it. -/
def BuildCall.perform (f : Routine) : BuildCall → Answer × Routine
  | .newVar name => (Build.newVar name).answer .var f
  | .createBlock => Build.createBlock.answer .block f
  | .createRegister v => (Build.createRegister v).answer .reg f
  | .read b v => (Build.read b v).answer .operand f
  | .write b v => (Build.write b v).answer .reg f
  | .writeReg b v r => (Build.writeReg b v r).answer (fun _ => .done) f
  | .add b x => (Build.add b x).answer (fun _ => .done) f

/-- The block that a call names. -/
def BuildCall.block? : BuildCall → Option Label
  | .newVar _ => none
  | .createBlock => none
  | .createRegister _ => none
  | .read b _ => some b
  | .write b _ => some b
  | .writeReg b _ _ => some b
  | .add b _ => some b

/-- A routine under construction, and all calls so far with their answers, the first call first. -/
structure History where
  routine : Routine
  log : List (BuildCall × Answer) := []

namespace History

def perform (h : History) (c : BuildCall) : History where
  routine := (c.perform h.routine).2
  log := h.log ++ [(c, (c.perform h.routine).1)]

/-- The history of a new routine. -/
def of (name : String) (calls : List BuildCall) : History :=
  calls.foldl perform { routine := .new name }

end History

/-- A call is barred if it names a block that does not exist, or would bind or add in a complete
one. -/
def BuildCall.Barred (f : Routine) : BuildCall → Prop
  | .newVar _ => False
  | .createBlock => False
  | .createRegister _ => False
  | .read b _ => f.find? b = none
  | .write b _ => ∀ q, f.find? b = some q → (f.block q).isComplete = true
  | .writeReg b _ _ => ∀ q, f.find? b = some q → (f.block q).isComplete = true
  | .add b _ => ∀ q, f.find? b = some q → (f.block q).isComplete = true

/-- What a call may do. It is accepted if the block that it names exists and, for bindings and
instructions, has no exit yet; a barred call is refused. -/
inductive Effect (f : Routine) : BuildCall → Answer → Routine → Prop where
  | newVar (name : String) : Effect f (.newVar name) (.var f.vars.size)
      { f with vars := f.vars.push name }
  | createBlock : Effect f .createBlock (.block f.blocks.size) (f.pushBlock {})
  | createRegister (v : Var) :
      Effect f (.createRegister v) (.reg f.regs.size) (f.pushReg { var := v })
  | read {q : BlockId} (hq : q < f.blocks.size) (v : Var) :
      Effect f (.read q v) (.operand ((f.block q).read v).1)
        (f.modifyBlock q fun _ => ((f.block q).read v).2)
  | write {q : BlockId} (hq : q < f.blocks.size) (hopen : (f.block q).isComplete = false)
      (v : Var) :
      Effect f (.write q v) (.reg f.regs.size)
        ((f.pushReg { var := v }).modifyBlock q (·.bind v f.regs.size))
  | writeReg {q : BlockId} (hq : q < f.blocks.size) (hopen : (f.block q).isComplete = false)
      (v : Var) (r : Reg) :
      Effect f (.writeReg q v r) .done (f.modifyBlock q (·.bind v r))
  | add {q : BlockId} (hq : q < f.blocks.size) (hopen : (f.block q).isComplete = false)
      (x : Instr Reg Operand Label) : Effect f (.add q x) .done (f.modifyBlock q (·.add x))
  | refused (c : BuildCall) (e : Violation) (hbar : c.Barred f) : Effect f c (.refused e) f

/-- A call that is refused unless the label names an open block. It is barred in the other cases,
and only what it does to the open block differs from call to call. -/
theorem Effect.of_guarded {α : Type} {f : Routine} {c : BuildCall} {b : Label} {x : Build α}
    {wrap : α → Answer} {complete missing : Violation} {result : α} {next : BlockId → Routine}
    (hx : x f = match f.find? b with
      | some q => if (f.block q).isComplete then .error complete f else .ok result (next q)
      | none => .error missing f)
    (hbar : (∀ q, f.find? b = some q → (f.block q).isComplete = true) → c.Barred f)
    (hopen : ∀ q : BlockId, b = q → q < f.blocks.size → (f.block q).isComplete = false →
      Effect f c (wrap result) (next q)) :
    Effect f c (x.answer wrap f).1 (x.answer wrap f).2 := by
  unfold Build.answer
  rw [hx]
  cases hb : f.find? b with
  | none =>
    refine .refused c missing (hbar fun q hq => ?_)
    rw [hb] at hq
    cases hq
  | some q =>
    by_cases hc : (f.block q).isComplete = true
    · simp only [if_pos hc]
      refine .refused c complete (hbar fun p hp => ?_)
      rwa [← Option.some.inj (hb.symm.trans hp)]
    · simp only [if_neg hc]
      obtain ⟨hq, hlt⟩ := Routine.find?_eq_some.mp hb
      exact hopen q hq hlt (Bool.eq_false_iff.mpr hc)

theorem effect_perform (f : Routine) (c : BuildCall) :
    Effect f c (c.perform f).1 (c.perform f).2 := by
  cases c with
  | newVar name => exact .newVar name
  | createBlock => exact .createBlock
  | createRegister v => exact .createRegister v
  | read b v =>
    simp only [BuildCall.perform, Build.answer, Build.read_eq]
    cases hb : f.find? b with
    | none => exact .refused _ _ hb
    | some q =>
      obtain ⟨rfl, hq⟩ := Routine.find?_eq_some.mp hb
      exact .read hq v
  | write b v =>
    refine .of_guarded (Build.write_eq b v f) id fun q hb hq hopen => ?_
    exact hb ▸ .write hq hopen v
  | writeReg b v r =>
    refine .of_guarded (Build.writeReg_eq b v r f) id fun q hb hq hopen => ?_
    exact hb ▸ .writeReg hq hopen v r
  | add b x =>
    refine .of_guarded (Build.add_eq b x f) id fun q hb hq hopen => ?_
    exact hb ▸ .add hq hopen x

namespace Effect

variable {f f' : Routine} {c : BuildCall} {a : Answer}

/-- A call that is refused is barred, and leaves the routine as it was. -/
theorem of_refused {e : Violation} (h : Effect f c (.refused e) f') : c.Barred f ∧ f' = f := by
  cases h with
  | refused c e hbar => exact ⟨hbar, rfl⟩

/-- A call that names a block is refused unless there is one. -/
theorem named (h : Effect f c a f') {b : Label} (hb : c.block? = some b) :
    (∃ e, a = .refused e) ∨ ∃ p < f.blocks.size, b = (p : Label) := by
  cases h with
  | newVar name => cases hb
  | createBlock => cases hb
  | createRegister v => cases hb
  | read hq v => cases hb; exact .inr ⟨_, hq, rfl⟩
  | write hq hopen v => cases hb; exact .inr ⟨_, hq, rfl⟩
  | writeReg hq hopen v r => cases hb; exact .inr ⟨_, hq, rfl⟩
  | add hq hopen x => cases hb; exact .inr ⟨_, hq, rfl⟩
  | refused c e _ => exact .inl ⟨e, rfl⟩

theorem size_le (h : Effect f c a f') : f.blocks.size ≤ f'.blocks.size := by
  cases h <;> simp [Routine.pushReg]

end Effect

/-! ## Edits of a block -/

/-- What a call does to a block. -/
inductive Edit where
  | read (v : Var) (o : Operand)
  | bind (v : Var) (r : Reg)
  | add (x : Instr Reg Operand Label)

namespace Edit

/-- The instruction that is added. -/
def instr? : Edit → Option (Instr Reg Operand Label)
  | read _ _ => none
  | bind _ _ => none
  | add x => some x

/-- The register that a variable is bound to. -/
def reg? (v : Var) : Edit → Option Reg
  | read _ _ => none
  | bind w r => if w = v then some r else none
  | add _ => none

end Edit

/-- The register that a variable was bound to last. -/
def lastBound (v : Var) (edits : List Edit) : Option Reg := edits.reverse.findSome? (Edit.reg? v)

/-- What a call with its answer does to the block at a place. -/
def edit? (p : BlockId) : BuildCall × Answer → Option Edit
  | (.read b v, .operand o) => if b = p then some (.read v o) else none
  | (.write b v, .reg r) => if b = p then some (.bind v r) else none
  | (.writeReg b v r, .done) => if b = p then some (.bind v r) else none
  | (.add b x, .done) => if b = p then some (.add x) else none
  | _ => none

/-- The edits of a block, the first one first. -/
def History.edits (h : History) (p : BlockId) : List Edit := h.log.filterMap (edit? p)

namespace Block

/-- A block before and after an edit. Only a read may edit a complete block. -/
inductive Edited (b : Block) : Edit → Block → Prop where
  | read (v : Var) : Edited b (.read v (b.read v).1) (b.read v).2
  | bind (hopen : b.isComplete = false) (v : Var) (r : Reg) : Edited b (.bind v r) (b.bind v r)
  | add (hopen : b.isComplete = false) (x : Instr Reg Operand Label) : Edited b (.add x) (b.add x)

/-- A block that was empty, after some edits. -/
inductive Grown : Block → List Edit → Prop where
  | empty : Grown {} []
  | edit {b b' : Block} {edits : List Edit} {e : Edit} (h : Grown b edits) (he : Edited b e b') :
      Grown b' (edits ++ [e])

/-! ### What a block owes to its edits -/

/-- The parameters are distinct and are those that reads returned, the code is what was added, an
exit is the last instruction of just the complete blocks, and a variable is bound to the register
that it was bound to last. A read returned the register bound last before it, and where there was
none, a parameter. -/
structure Follows (b : Block) (edits : List Edit) : Prop where
  nodup : b.params.Nodup
  param : ∀ v i, .read v (.param i) ∈ edits → b.params[i]? = some v
  code : b.code = edits.filterMap Edit.instr?
  complete : b.isComplete = true ↔ ∃ e, b.code.getLast? = some (.exit e)
  early : ∀ x ∈ b.code.dropLast, x.isExit = false
  binding : ∀ v, b.binding? v = lastBound v edits
  answered : ∀ before after v o, edits = before ++ .read v o :: after →
    (∃ r, o = .reg r ∧ lastBound v before = some r) ∨ ∃ i, o = .param i ∧ lastBound v before = none

theorem code_add {b : Block} (hopen : b.isComplete = false) (x : Instr Reg Operand Label) :
    (b.add x).code = b.code ++ [x] := by
  have hx : b.exit = none := Option.isSome_eq_false_iff.mp hopen |> Option.isNone_iff_eq_none.mp
  cases x <;> simp [code, add, hx]

theorem code_of_open {b : Block} (hopen : b.exit = none) : b.code = b.body.map .action := by
  simp [code, hopen]

theorem code_of_exit {b : Block} {e : Exit Operand Label} (he : b.exit = some e) :
    b.code = b.body.map .action ++ [.exit e] := by
  simp [code, he]

theorem isComplete_iff (b : Block) :
    b.isComplete = true ↔ ∃ e, b.code.getLast? = some (.exit e) := by
  cases he : b.exit with
  | none =>
    rw [code_of_open he, isComplete, he]
    simp
  | some e =>
    rw [code_of_exit he, isComplete, he]
    simp

theorem isExit_of_mem_dropLast {b : Block} {x : Instr Reg Operand Label}
    (hx : x ∈ b.code.dropLast) :
    x.isExit = false := by
  have hbody : x ∈ b.body.map Instr.action := by
    cases he : b.exit with
    | none => exact (List.dropLast_subset _) (code_of_open he ▸ hx)
    | some e => rwa [code_of_exit he, List.dropLast_concat] at hx
  obtain ⟨a, -, rfl⟩ := List.mem_map.mp hbody
  rfl

theorem code_read (b : Block) (v : Var) : (b.read v).2.code = b.code := by
  rcases b.read_cases v with h | ⟨-, h⟩ <;> rw [h]
  rfl

theorem bindings_read (b : Block) (v : Var) : (b.read v).2.bindings = b.bindings := by
  rcases b.read_cases v with h | ⟨-, h⟩ <;> rw [h]

/-- A parameter that a read returns stands for the variable. -/
theorem params_read {b : Block} {v : Var} {i : Nat} (h : (b.read v).1 = .param i) :
    (b.read v).2.params[i]? = some v := by
  unfold read at h ⊢
  split at h
  · cases h
  · split at h
    · rename_i hj
      cases h
      exact getElem?_of_idxOf? hj
    · cases h
      simp

/-- A read returns the register that the variable is bound to, or else a parameter. -/
theorem answer_read (b : Block) (v : Var) :
    (∃ r, (b.read v).1 = .reg r ∧ b.binding? v = some r) ∨
      ∃ i, (b.read v).1 = .param i ∧ b.binding? v = none := by
  unfold read
  cases hb : b.binding? v with
  | some r => exact .inl ⟨r, rfl, rfl⟩
  | none =>
    right
    cases hi : b.params.idxOf? v with
    | some i => exact ⟨i, rfl, rfl⟩
    | none => exact ⟨b.params.length, rfl, rfl⟩

namespace Edited

variable {b b' : Block} {e : Edit}

theorem read_eq {v : Var} {o : Operand} (h : Edited b (.read v o) b') :
    (b.read v).1 = o ∧ (b.read v).2 = b' := by
  cases h
  exact ⟨rfl, rfl⟩

/-- Parameters stay where they are. -/
theorem params (h : Edited b e b') : ∃ vs, b'.params = b.params ++ vs := by
  cases h with
  | read v =>
    rcases b.read_cases v with h | ⟨-, h⟩ <;> rw [h]
    · exact ⟨[], by simp⟩
    · exact ⟨[v], rfl⟩
  | bind hopen v r => exact ⟨[], by simp [Block.bind]⟩
  | add hopen x => exact ⟨[], by cases x <;> simp [Block.add]⟩

theorem nodup (h : Edited b e b') (hb : b.params.Nodup) : b'.params.Nodup := by
  cases h with
  | read v =>
    rcases b.read_cases v with h | ⟨hv, h⟩ <;> rw [h]
    · exact hb
    · exact List.nodup_append.mpr ⟨hb, List.nodup_singleton v, fun x hx y hy => by
        rw [List.mem_singleton] at hy; rintro rfl; exact hv (hy ▸ hx)⟩
  | bind hopen v r => exact hb
  | add hopen x => cases x <;> exact hb

theorem code (h : Edited b e b') : b'.code = b.code ++ e.instr?.toList := by
  cases h with
  | read v => rw [code_read]; exact (List.append_nil _).symm
  | bind hopen v r => exact (List.append_nil _).symm
  | add hopen x => exact code_add hopen x

theorem binding? (h : Edited b e b') (v : Var) : b'.binding? v = (e.reg? v).or (b.binding? v) := by
  cases h with
  | read w => rw [Block.binding?, bindings_read]; rfl
  | bind hopen w r =>
    rw [binding?_bind, Edit.reg?]
    by_cases hw : w = v
    · simp [hw]
    · simp [hw, Ne.symm hw]
  | add hopen x => cases x <;> rfl

/-- A complete block keeps its code and its bindings. -/
theorem frozen (h : Edited b e b') (hb : b.isComplete = true) :
    b'.code = b.code ∧ b'.bindings = b.bindings := by
  cases h with
  | read v => exact ⟨code_read b v, bindings_read b v⟩
  | bind hopen v r => rw [hb] at hopen; cases hopen
  | add hopen x => rw [hb] at hopen; cases hopen

end Edited

theorem lastBound_concat (v : Var) (edits : List Edit) (e : Edit) :
    lastBound v (edits ++ [e]) = (e.reg? v).or (lastBound v edits) := by
  unfold lastBound
  rw [List.reverse_append, List.reverse_singleton, List.singleton_append, List.findSome?_cons]
  cases e.reg? v <;> rfl

namespace Grown

variable {b : Block} {edits : List Edit}

theorem nodup (h : Grown b edits) : b.params.Nodup := by
  induction h with
  | empty => exact List.nodup_nil
  | edit _ he ih => exact he.nodup ih

theorem param (h : Grown b edits) {v : Var} {i : Nat} (hm : .read v (.param i) ∈ edits) :
    b.params[i]? = some v := by
  induction h with
  | empty => cases hm
  | @edit b b' edits e h he ih =>
    rcases List.mem_append.mp hm with hm | hm
    · obtain ⟨vs, hvs⟩ := he.params
      rw [hvs, List.getElem?_append_left (List.getElem?_eq_some_iff.mp (ih hm)).1]
      exact ih hm
    · rw [← List.mem_singleton.mp hm] at he
      obtain ⟨ho, rfl⟩ := he.read_eq
      exact params_read ho

theorem code (h : Grown b edits) : b.code = edits.filterMap Edit.instr? := by
  induction h with
  | empty => rfl
  | @edit b b' edits e h he ih =>
    rw [he.code, ih, List.filterMap_append]
    cases e <;> rfl

theorem binding? (h : Grown b edits) (v : Var) : b.binding? v = lastBound v edits := by
  induction h with
  | empty => rfl
  | edit _ he ih => rw [he.binding?, ih, lastBound_concat]

/-- A read returned the register bound last before it, or else a parameter. -/
theorem answered (h : Grown b edits) {before after : List Edit} {v : Var} {o : Operand}
    (hedits : edits = before ++ .read v o :: after) :
    (∃ r, o = .reg r ∧ lastBound v before = some r) ∨
      ∃ i, o = .param i ∧ lastBound v before = none := by
  induction h generalizing after with
  | empty => simp at hedits
  | @edit b b' edits e h he ih =>
    -- the read is the last edit, or one of those before it
    rcases List.eq_nil_or_concat after with rfl | ⟨after, x, rfl⟩
    · obtain ⟨rfl, hlast⟩ := List.append_inj' hedits rfl
      cases hlast
      rw [← h.binding?, ← he.read_eq.1]
      exact b.answer_read v
    · rw [List.concat_eq_append, ← List.cons_append, ← List.append_assoc] at hedits
      exact ih (List.append_inj' hedits rfl).1

theorem follows (h : Grown b edits) : b.Follows edits where
  nodup := h.nodup
  param _ _ := h.param
  code := h.code
  complete := b.isComplete_iff
  early _ := isExit_of_mem_dropLast
  binding := h.binding?
  answered _ _ _ _ := h.answered

end Grown

end Block

/-! ## Calls -/

/-- A block before and after a call that may edit it. -/
inductive Block.Moves (b : Block) : Option Edit → Block → Prop where
  | keep : Moves b none b
  | edit {e : Edit} {b' : Block} (h : Edited b e b') : Moves b (some e) b'

theorem Block.Moves.frozen {b b' : Block} {e : Option Edit} (h : b.Moves e b')
    (hb : b.isComplete = true) :
    b'.code = b.code ∧ b'.bindings = b.bindings := by
  cases h with
  | keep => exact ⟨rfl, rfl⟩
  | edit h => exact h.frozen hb

/-- A change to one block, seen from all blocks. -/
theorem moves_modifyBlock {f : Routine} {q : BlockId} (hq : q < f.blocks.size)
    (change : Block → Block) {e : Edit} (he : (f.block q).Edited e (change (f.block q)))
    (p : BlockId) :
    (f.block p).Moves (if (q : Label) = p then some e else none)
      ((f.modifyBlock q change).block p) := by
  by_cases hp : q = p
  · subst hp
    rw [if_pos rfl, Routine.block_modifyBlock_self hq]
    exact .edit he
  · rw [if_neg (by exact_mod_cast hp), Routine.block_modifyBlock_ne hp]
    exact .keep

/-- A call edits a block, or leaves it as it is. -/
theorem Effect.block {f f' : Routine} {c : BuildCall} {a : Answer} (h : Effect f c a f')
    (p : BlockId) :
    (f.block p).Moves (edit? p (c, a)) (f'.block p) := by
  cases h with
  | newVar name => exact .keep
  | createBlock =>
    have hnew : (f.pushBlock {}).block p = f.block p := by
      by_cases hp : p = f.blocks.size
      · rw [hp, Routine.block_pushBlock_self, Routine.block_of_le (Nat.le_refl _)]
      · exact Routine.block_pushBlock_ne hp {}
    rw [hnew]
    exact .keep
  | createRegister v => exact .keep
  | read hq v => exact moves_modifyBlock hq _ (.read v) p
  | write hq hopen v =>
    exact moves_modifyBlock (f := f.pushReg { var := v }) hq (·.bind v f.regs.size)
      (.bind hopen v _) p
  | writeReg hq hopen v r => exact moves_modifyBlock hq _ (.bind hopen v r) p
  | add hq hopen x => exact moves_modifyBlock hq _ (.add hopen x) p
  | refused c e _ => cases c <;> exact .keep

/-! ## All histories -/

namespace History

theorem of_append (name : String) (calls more : List BuildCall) :
    of name (calls ++ more) = more.foldl perform (of name calls) :=
  List.foldl_append

/-- What one call keeps of a block. -/
theorem grown_perform {h : History} {p : BlockId} (hg : (h.routine.block p).Grown (h.edits p))
    (c : BuildCall) :
    ((h.perform c).routine.block p).Grown ((h.perform c).edits p) := by
  have hmove := (effect_perform h.routine c).block p
  have hedits : (h.perform c).edits p = h.edits p ++
      (edit? p (c, (c.perform h.routine).1)).toList := by
    unfold edits perform
    rw [List.filterMap_append, List.filterMap_cons, List.filterMap_nil]
    cases edit? p (c, (c.perform h.routine).1) <;> rfl
  rw [hedits]
  show ((c.perform h.routine).2.block p).Grown _
  generalize edit? p (c, (c.perform h.routine).1) = e at hmove ⊢
  generalize (c.perform h.routine).2.block p = b' at hmove ⊢
  cases hmove with
  | keep => simpa using hg
  | edit he => exact hg.edit he

/-- Every block of a history has grown by its edits. -/
theorem grown (name : String) (calls : List BuildCall) (p : BlockId) :
    ((of name calls).routine.block p).Grown ((of name calls).edits p) := by
  refine foldl_inv perform (fun _ h => (h.routine.block p).Grown (h.edits p)) calls _ ?_
    fun _ c _ _ _ hg => grown_perform hg c
  cases p <;> exact .empty

/-- Further calls leave a complete block as it is, but for its parameters. -/
theorem frozen (more : List BuildCall) (h : History) {p : BlockId}
    (hc : (h.routine.block p).isComplete = true) :
    ((more.foldl perform h).routine.block p).isComplete = true ∧
      ((more.foldl perform h).routine.block p).code = (h.routine.block p).code ∧
      ((more.foldl perform h).routine.block p).bindings = (h.routine.block p).bindings := by
  induction more generalizing h with
  | nil => exact ⟨hc, rfl, rfl⟩
  | cons c more ih =>
    obtain ⟨hcode, hbind⟩ := ((effect_perform h.routine c).block p).frozen hc
    have hc' : ((h.perform c).routine.block p).isComplete = true := by
      rw [Block.isComplete_iff] at hc ⊢
      rwa [← hcode] at hc
    obtain ⟨hlast, hcode', hbind'⟩ := ih (h.perform c) hc'
    exact ⟨hlast, hcode'.trans hcode, hbind'.trans hbind⟩

/-- The blocks that accepted calls named exist. -/
theorem named (name : String) (calls : List BuildCall) :
    ∀ y ∈ (of name calls).log, ∀ b, y.1.block? = some b →
    (∃ e, y.2 = .refused e) ∨ ∃ p < (of name calls).routine.blocks.size, b = (p : Label) := by
  refine foldl_inv perform (fun _ h => ∀ y ∈ h.log, ∀ b, y.1.block? = some b →
      (∃ e, y.2 = .refused e) ∨ ∃ p < h.routine.blocks.size, b = (p : Label)) calls _
    (fun _ hy => by cases hy) ?_
  intro _ c _ h _ hlog y hy b hb
  have heffect := effect_perform h.routine c
  have hnamed : (∃ e, y.2 = .refused e) ∨ ∃ p < h.routine.blocks.size, b = (p : Label) := by
    rcases List.mem_append.mp hy with hy | hy
    · exact hlog y hy b hb
    · rw [List.mem_singleton.mp hy] at hb ⊢
      exact heffect.named hb
  exact hnamed.imp_right fun ⟨p, hlt, hp⟩ => ⟨p, Nat.lt_of_lt_of_le hlt heffect.size_le, hp⟩

end History

/-- Whatever calls a routine was built by: each block is as its edits say, and the calls that were
not refused edited blocks that exist. Once a block is complete, no further calls change its code or
its bindings. Only a barred call is refused, and it changes nothing at all. -/
theorem builder_invariant (name : String) (calls : List BuildCall) :
    (∀ p, ((History.of name calls).routine.block p).Follows ((History.of name calls).edits p)) ∧
    (∀ y ∈ (History.of name calls).log, ∀ b, y.1.block? = some b →
      (∃ e, y.2 = .refused e) ∨
        ∃ p < (History.of name calls).routine.blocks.size, b = (p : Label)) ∧
    (∀ p, ((History.of name calls).routine.block p).isComplete = true → ∀ more,
      ((History.of name (calls ++ more)).routine.block p).isComplete = true ∧
      ((History.of name (calls ++ more)).routine.block p).code =
        ((History.of name calls).routine.block p).code ∧
      ((History.of name (calls ++ more)).routine.block p).bindings =
        ((History.of name calls).routine.block p).bindings) ∧
    ∀ (c : BuildCall) e, (c.perform (History.of name calls).routine).1 = .refused e →
      c.Barred (History.of name calls).routine ∧
        (c.perform (History.of name calls).routine).2 = (History.of name calls).routine := by
  refine ⟨fun p => (History.grown name calls p).follows, History.named name calls,
    fun p hc more => ?_, fun c e he => ?_⟩
  · rw [History.of_append]
    exact History.frozen more _ hc
  · have heffect := effect_perform (History.of name calls).routine c
    rw [he] at heffect
    exact heffect.of_refused

end ProcCompiler
