import ProcCompiler.Proofs.Lowering.Complete
import ProcCompiler.Proofs.Routine.Builder
/-!
# Lowering is complete on well-formed routines

A session is a run of builder calls. It keeps a log of the operands that reads returned. A session
is disciplined if it leaves the entry alone, reads allocated variables only, and puts into a block
only operands that reads of that block returned. A routine from such a session whose blocks are
complete and whose jumps lead to blocks is well-formed. Lowering a well-formed routine never stops
at a violation: it succeeds exactly if all that is exposed at block 1 has a slot, and otherwise
names what has none.

* `Session.Inv.perform`: what one call preserves.
* `Session.Inv.run`: what a whole session preserves.
* `lower_complete`: the outcome of lowering.
-/
namespace ProcCompiler

/-- A call of the builder. -/
inductive BuildCall where
  | newVar (name : String)
  | createBlock
  | createRegister (v : Var)
  | read (b : Label) (v : Var)
  | write (b : Label) (v : Var)
  | writeReg (b : Label) (v : Var) (r : Reg)
  | add (b : Label) (x : Instr Reg Operand Label)

/-- A routine under construction, and the operands that reads returned, each with its block. -/
structure Session where
  routine : Routine
  reads : List (Label × Operand) := []

/-- The routine after a computation, whether it succeeded or not. -/
def Build.after {α : Type} (x : Build α) (f : Routine) : Routine :=
  match x f with
  | .ok _ f' => f'
  | .error _ f' => f'

namespace Session

/-- The session after a call. -/
def perform (s : Session) : BuildCall → Session
  | .newVar name => { s with routine := (Build.newVar name).after s.routine }
  | .createBlock => { s with routine := Build.createBlock.after s.routine }
  | .createRegister v => { s with routine := (Build.createRegister v).after s.routine }
  | .read b v =>
    match Build.read b v s.routine with
    | .ok o f => { routine := f, reads := (b, o) :: s.reads }
    | .error _ f => { s with routine := f }
  | .write b v => { s with routine := (Build.write b v).after s.routine }
  | .writeReg b v r => { s with routine := (Build.writeReg b v r).after s.routine }
  | .add b x => { s with routine := (Build.add b x).after s.routine }

/-- The call leaves the entry alone, reads an allocated variable, and adds operands that were read
in the same block. -/
def Allows (s : Session) : BuildCall → Prop
  | .read b v => b ≠ (entry : Label) ∧ 0 ≤ v ∧ v < s.routine.vars.size
  | .write b _ => b ≠ (entry : Label)
  | .writeReg b _ _ => b ≠ (entry : Label)
  | .add b x => b ≠ (entry : Label) ∧ ∀ o ∈ x.read?, (b, o) ∈ s.reads
  | _ => True

instance (s : Session) : ∀ c, Decidable (s.Allows c)
  | .newVar _ => .isTrue trivial
  | .createBlock => .isTrue trivial
  | .createRegister _ => .isTrue trivial
  | .read b v => inferInstanceAs (Decidable (b ≠ (entry : Label) ∧ 0 ≤ v ∧ v < s.routine.vars.size))
  | .write b _ => inferInstanceAs (Decidable (b ≠ (entry : Label)))
  | .writeReg b _ _ => inferInstanceAs (Decidable (b ≠ (entry : Label)))
  | .add b x => inferInstanceAs (Decidable (b ≠ (entry : Label) ∧ ∀ o ∈ x.read?, (b, o) ∈ s.reads))

/-- The session after several calls. -/
def run (s : Session) (calls : List BuildCall) : Session := calls.foldl perform s

/-- Every call is allowed when its turn comes. -/
def Disciplined (s : Session) : List BuildCall → Prop
  | [] => True
  | c :: calls => s.Allows c ∧ (s.perform c).Disciplined calls

instance decidableDisciplined (s : Session) : ∀ calls, Decidable (s.Disciplined calls)
  | [] => .isTrue trivial
  | c :: calls =>
    have := decidableDisciplined (s.perform c) calls
    inferInstanceAs (Decidable (s.Allows c ∧ (s.perform c).Disciplined calls))

/-- The routine is sound, and every operand that was read fits its block. -/
structure Inv (s : Session) : Prop where
  growing : s.routine.Growing
  reads : ∀ r ∈ s.reads, ∃ p, s.routine.find? r.1 = some p ∧ (s.routine.block p).Fits r.2

end Session

/-! ## Calls -/

/-- `f'` has the blocks of `f`, and perhaps more, with their parameters, and perhaps more. -/
structure Routine.Extends (f f' : Routine) : Prop where
  size : f.blocks.size ≤ f'.blocks.size
  params : ∀ b < f.blocks.size, ∃ vs, (f'.block b).params = (f.block b).params ++ vs

namespace Routine

theorem extends_of_blocks {f f' : Routine} (h : f'.blocks = f.blocks) : f.Extends f' :=
  ⟨h ▸ Nat.le_refl _, fun b _ => ⟨[], by simp [block, h]⟩⟩

theorem extends_pushBlock (f : Routine) : f.Extends (f.pushBlock {}) := by
  refine ⟨by simp, fun b hb => ⟨[], ?_⟩⟩
  rw [block_pushBlock_ne (Nat.ne_of_lt hb), List.append_nil]

theorem extends_modifyBlock {f : Routine} {p : BlockId} {change : Block → Block}
    (hc : ∃ vs, (change (f.block p)).params = (f.block p).params ++ vs) :
    f.Extends (f.modifyBlock p change) := by
  refine ⟨by simp, fun b hb => ?_⟩
  by_cases hp : p = b
  · subst hp; rw [block_modifyBlock_self hb]; exact hc
  · rw [block_modifyBlock_ne hp]; exact ⟨[], by simp⟩

theorem find?_ne_entry {f : Routine} {b : Label} {p : BlockId} (hp : f.find? b = some p)
    (hb : b ≠ (entry : Label)) : p ≠ entry := by
  rintro rfl
  exact hb (find?_eq_some.mp hp).1

end Routine

namespace Session

/-- What a call may do to a routine under construction. -/
theorem Inv.of_extends {s : Session} (h : s.Inv) {f : Routine} (hf : f.Growing)
    (hx : s.routine.Extends f) : Inv { s with routine := f } where
  growing := hf
  reads r hr := by
    obtain ⟨p, hp, hfit⟩ := h.reads r hr
    obtain ⟨hb, hlt⟩ := Routine.find?_eq_some.mp hp
    obtain ⟨vs, hvs⟩ := hx.params p hlt
    exact ⟨p, Routine.find?_eq_some.mpr ⟨hb, Nat.lt_of_lt_of_le hlt hx.size⟩, hfit.append hvs⟩

theorem Inv.read {s : Session} (h : s.Inv) {b : Label} {v : Var} (hb : b ≠ (entry : Label))
    (hv : 0 ≤ v) :
    (s.perform (.read b v)).Inv := by
  simp only [perform, Build.read_eq]
  cases hp : s.routine.find? b with
  | none => exact h
  | some p =>
    have hlt := (Routine.find?_eq_some.mp hp).2
    have hx : s.routine.Extends
        (s.routine.modifyBlock p fun _ => ((s.routine.block p).read v).2) := by
      apply Routine.extends_modifyBlock
      rcases (s.routine.block p).read_cases v with hr | ⟨-, hr⟩ <;> rw [hr]
      · exact ⟨[], by simp⟩
      · exact ⟨[v], rfl⟩
    have hg : (s.routine.modifyBlock p fun _ => ((s.routine.block p).read v).2).Growing :=
      h.growing.modifyBlock (Routine.find?_ne_entry hp hb) ((h.growing.sound p).read hv)
    have hi := h.of_extends hg hx
    refine ⟨hi.growing, fun r hr => ?_⟩
    rcases List.mem_cons.mp hr with rfl | hr
    · refine ⟨p, ?_, ?_⟩
      · obtain ⟨rfl, -⟩ := Routine.find?_eq_some.mp hp
        exact Routine.find?_natCast (by simpa using hlt)
      · rw [Routine.block_modifyBlock_self hlt]
        exact Block.fits_read _ v
    · exact hi.reads r hr

theorem Inv.write {s : Session} (h : s.Inv) {b : Label} (hb : b ≠ (entry : Label)) (v : Var) :
    (s.perform (.write b v)).Inv := by
  simp only [perform, Build.after, Build.write_eq]
  cases hp : s.routine.find? b with
  | none => exact h
  | some p =>
    by_cases hc : (s.routine.block p).isComplete
    · simp only [if_pos hc]; exact h
    · simp only [if_neg hc]
      refine h.of_extends ((h.growing.pushReg v).modifyBlock (Routine.find?_ne_entry hp hb)
        ((h.growing.sound p).bind v _)) ?_
      have hx : s.routine.Extends (s.routine.modifyBlock p (·.bind v s.routine.regs.size)) :=
        Routine.extends_modifyBlock ⟨[], by simp [Block.bind]⟩
      exact ⟨hx.size, hx.params⟩

theorem Inv.writeReg {s : Session} (h : s.Inv) {b : Label} (hb : b ≠ (entry : Label)) (v : Var)
    (r : Reg) :
    (s.perform (.writeReg b v r)).Inv := by
  simp only [perform, Build.after, Build.writeReg_eq]
  cases hp : s.routine.find? b with
  | none => exact h
  | some p =>
    by_cases hc : (s.routine.block p).isComplete
    · simp only [if_pos hc]; exact h
    · simp only [if_neg hc]
      exact h.of_extends
        (h.growing.modifyBlock (Routine.find?_ne_entry hp hb) ((h.growing.sound p).bind v r))
        (Routine.extends_modifyBlock ⟨[], by simp [Block.bind]⟩)

theorem Inv.fits {s : Session} (h : s.Inv) {b : Label} {o : Operand} (ho : (b, o) ∈ s.reads)
    {p : BlockId} (hp : s.routine.find? b = some p) : (s.routine.block p).Fits o := by
  obtain ⟨q, hq, hfit⟩ := h.reads (b, o) ho
  obtain rfl : p = q := Option.some.inj (hp.symm.trans hq)
  exact hfit

theorem Inv.add {s : Session} (h : s.Inv) {b : Label} (hb : b ≠ (entry : Label))
    {x : Instr Reg Operand Label}
    (hx : ∀ p, s.routine.find? b = some p → ∀ o, x.read? = some o → (s.routine.block p).Fits o) :
    (s.perform (.add b x)).Inv := by
  simp only [perform, Build.after, Build.add_eq]
  cases hp : s.routine.find? b with
  | none => exact h
  | some p =>
    by_cases hc : (s.routine.block p).isComplete
    · simp only [if_pos hc]; exact h
    · simp only [if_neg hc]
      refine h.of_extends (h.growing.modifyBlock (Routine.find?_ne_entry hp hb)
        ((h.growing.sound p).add (hx p hp))) (Routine.extends_modifyBlock ⟨[], ?_⟩)
      cases x <;> simp [Block.add]

/-- One call of a disciplined session. -/
theorem Inv.perform {s : Session} (h : s.Inv) {c : BuildCall} (hc : s.Allows c) :
    (s.perform c).Inv := by
  cases c with
  | newVar name => exact h.of_extends (h.growing.pushVar name) (Routine.extends_of_blocks rfl)
  | createBlock => exact h.of_extends h.growing.pushBlock (Routine.extends_pushBlock _)
  | createRegister v => exact h.of_extends (h.growing.pushReg v) (Routine.extends_of_blocks rfl)
  | read b v => exact h.read hc.1 hc.2.1
  | write b v => exact h.write hc v
  | writeReg b v r => exact h.writeReg hc v r
  | add b x => exact h.add hc.1 fun p hp o ho => h.fits (hc.2 o ho) hp

/-- All calls of a disciplined session. -/
theorem Inv.run {s : Session} (h : s.Inv) :
    ∀ {calls : List BuildCall}, s.Disciplined calls → (s.run calls).Inv
  | [], _ => h
  | _ :: _, hd => (h.perform hd.1).run hd.2

theorem inv_new (name : String) : Inv { routine := .new name } :=
  ⟨Routine.growing_new name, fun _ hr => by cases hr⟩

end Session

/-! ## Well-formed routines -/

/-- The routine comes from a disciplined session, has a body, and its blocks are complete and jump
to blocks of the body. -/
structure Routine.WellFormed (f : Routine) : Prop where
  built : ∃ name calls, Session.Disciplined { routine := .new name } calls ∧
    (Session.run { routine := .new name } calls).routine = f
  body : 2 ≤ f.blocks.size
  complete : ∀ b < f.blocks.size, b ≠ entry → (f.block b).isComplete
  target : ∀ b < f.blocks.size, ∀ e ∈ (f.block b).exit, ∀ l ∈ e.labels, ∃ t ∈ f.find? l, t ≠ entry

/-- A grown routine with a body is closed if its blocks are complete and jump to blocks of the
body. -/
theorem Routine.closed_of_growing {f : Routine} (h : f.Growing) (hbody : 2 ≤ f.blocks.size)
    (hcomplete : ∀ b < f.blocks.size, b ≠ entry → (f.block b).isComplete)
    (htarget : ∀ b < f.blocks.size, ∀ e ∈ (f.block b).exit, ∀ l ∈ e.labels, ∃ t ∈ f.find? l,
      t ≠ entry) :
    f.Closed where
  body := hbody
  complete := hcomplete
  target b hb l hl := by
    unfold leads at hl
    split at hl
    · obtain ⟨t, ht, hne⟩ := htarget b hb _ ‹_› l hl
      obtain ⟨rfl, hlt⟩ := find?_eq_some.mp ht
      exact ⟨t, rfl, hne, hlt⟩
    · rw [List.mem_singleton] at hl
      exact ⟨1, by rw [hl, h.route], Nat.one_ne_zero, hbody⟩

namespace Routine.WellFormed

variable {f : Routine} (h : f.WellFormed)

include h

theorem growing : f.Growing := by
  obtain ⟨name, calls, hd, rfl⟩ := h.built
  exact ((Session.inv_new name).run hd).growing

theorem closed : f.Closed := closed_of_growing h.growing h.body h.complete h.target

end Routine.WellFormed

/-- Lowering a well-formed routine never stops at a violation. It succeeds exactly if every variable
that is exposed at block 1 has a slot; otherwise it reports the names of those that have none, each
variable once. -/
theorem lower_complete {f : Routine} (h : f.WellFormed) (slots : List Slot) :
    ∃ f' result, f.lower slots = .ok (f', result) ∧
      ((∃ l, result = .ok l) ↔ ∀ v, f.Exposed 1 v → v ∈ slots.map Slot.var) ∧
      ∀ e, result = .error e → e.proc = f.name ∧ ∃ vs : List Var, vs.Nodup ∧
        (∀ v, v ∈ vs ↔ f.Exposed 1 v ∧ v ∉ slots.map Slot.var) ∧ e.missing = vs.map f.varName := by
  have hready := h.growing.ready h.closed
  have hroute := h.growing.route
  by_cases hslots : ∀ v, f.Exposed 1 v → v ∈ slots.map Slot.var
  · obtain ⟨n, into, f₂, F, hl⟩ := hready.exists_lowers (by rwa [hroute])
    exact ⟨F, _, hl.lower_eq, ⟨fun _ => hslots, fun _ => ⟨_, rfl⟩⟩, fun e he => by cases he⟩
  · obtain ⟨f', vs, hl, hnodup, hmem⟩ := hready.exists_missing (by rwa [hroute])
    rw [hroute] at hmem
    refine ⟨f', _, hl, ⟨?_, fun hall => absurd hall hslots⟩, ?_⟩
    · rintro ⟨l, hl⟩; cases hl
    · rintro e he
      cases he
      exact ⟨rfl, vs, hnodup, hmem, rfl⟩

/-- A loop on `x` whose exit copies `y`. -/
def loopCalls : List BuildCall :=
  [.newVar "x", .newVar "y", .createBlock, .createBlock, .read 1 0,
    .add 1 (.exit (.branch (.param 0) 1 2)), .read 2 1, .write 2 0,
    .add 2 (.action (.move 0 (.param 0))), .add 2 (.exit .ret)]

def loopRoutine : Routine := (Session.run { routine := .new "loop" } loopCalls).routine

/-- Slots for both variables of the loop. -/
def loopSlots : List Slot := [{ var := 0, size := 1 }, { var := 1, size := 1 }]

theorem wellFormed_loopRoutine : loopRoutine.WellFormed where
  built := ⟨"loop", loopCalls, by decide +kernel, rfl⟩
  body := by decide +kernel
  complete := by decide +kernel
  target := by decide +kernel

/-- The loop, with a slot for `x` only. -/
theorem lower_loopRoutine : loopRoutine.WellFormed ∧ ∃ f' result,
    loopRoutine.lower [{ var := 0, size := 1 }] = .ok (f', result) ∧
    ((∃ l, result = .ok l) ↔ ∀ v, loopRoutine.Exposed 1 v → v ∈ [(0 : Var)]) ∧
    ∀ e, result = .error e → e.proc = "loop" ∧ ∃ vs : List Var, vs.Nodup ∧
      (∀ v, v ∈ vs ↔ loopRoutine.Exposed 1 v ∧ v ∉ [(0 : Var)]) ∧
        e.missing = vs.map loopRoutine.varName :=
  ⟨wellFormed_loopRoutine, lower_complete wellFormed_loopRoutine [{ var := 0, size := 1 }]⟩

end ProcCompiler
