import ProcCompiler.Proofs.Renaming.Delivery
import ProcCompiler.Proofs.Routine.Session
/-!
# The code depends on the reached structure only

Two routines are isomorphic, with slots for their arguments, if what the entry of one reaches is
what the entry of the other reaches, under other names. They may differ in the numbers of their
blocks, variables and registers, in the names of their variables, and in all blocks that are not
reached, even those that jump into the reached part or return. Lowering gives the same code with the
same number of locals for both, or finds slots missing in both.

The routines come from sessions that are orderly: they leave the entry alone, and an instruction
reads a parameter only if a read of its block returned it. A disciplined session is orderly; an
orderly one may also put registers into instructions that no read returned.

* `Session.Inv.admitted`, `Session.Inv.orderly`: what a call and a whole session preserve.
* `Routine.Finished`: a complete routine from an orderly session.
* `Routine.Isomorphic`: the relation.
* `Isomorphic.alike`: isomorphic routines are alike.
* `lower_isomorphic`: isomorphic routines have the same code.
-/
namespace ProcCompiler

/-! ## Orderly sessions -/

namespace Session

/-- The call leaves the entry alone, reads no negative variable, and adds parameters only that were
read in the same block. -/
def Admits (s : Session) : BuildCall → Prop
  | .read b v => b ≠ (entry : Label) ∧ 0 ≤ v
  | .write b _ => b ≠ (entry : Label)
  | .writeReg b _ _ => b ≠ (entry : Label)
  | .add b x => b ≠ (entry : Label) ∧ ∀ o ∈ x.read?, o.known?.isSome ∨ (b, o) ∈ s.reads
  | _ => True

instance (s : Session) : ∀ c, Decidable (s.Admits c)
  | .newVar _ => .isTrue trivial
  | .createBlock => .isTrue trivial
  | .createRegister _ => .isTrue trivial
  | .read b v => inferInstanceAs (Decidable (b ≠ (entry : Label) ∧ 0 ≤ v))
  | .write b _ => inferInstanceAs (Decidable (b ≠ (entry : Label)))
  | .writeReg b _ _ => inferInstanceAs (Decidable (b ≠ (entry : Label)))
  | .add b x => inferInstanceAs
      (Decidable (b ≠ (entry : Label) ∧ ∀ o ∈ x.read?, o.known?.isSome ∨ (b, o) ∈ s.reads))

/-- Every call is admitted when its turn comes. -/
def Orderly (s : Session) : List BuildCall → Prop
  | [] => True
  | c :: calls => s.Admits c ∧ (s.perform c).Orderly calls

instance decidableOrderly (s : Session) : ∀ calls, Decidable (s.Orderly calls)
  | [] => .isTrue trivial
  | c :: calls =>
    have := decidableOrderly (s.perform c) calls
    inferInstanceAs (Decidable (s.Admits c ∧ (s.perform c).Orderly calls))

theorem Allows.admits {s : Session} {c : BuildCall} (h : s.Allows c) : s.Admits c := by
  cases c with
  | read b v => exact ⟨h.1, h.2.1⟩
  | add b x => exact ⟨h.1, fun o ho => .inr (h.2 o ho)⟩
  | _ => exact h

theorem Disciplined.orderly : ∀ {s : Session} {calls : List BuildCall}, s.Disciplined calls →
    s.Orderly calls
  | _, [], _ => trivial
  | _, _ :: _, h => ⟨h.1.admits, orderly h.2⟩

/-- One call of an orderly session. -/
theorem Inv.admitted {s : Session} (h : s.Inv) {c : BuildCall} (hc : s.Admits c) :
    (s.perform c).Inv := by
  cases c with
  | newVar name => exact h.perform trivial
  | createBlock => exact h.perform trivial
  | createRegister v => exact h.perform trivial
  | read b v => exact h.read hc.1 hc.2
  | write b v => exact h.write hc v
  | writeReg b v r => exact h.writeReg hc v r
  | add b x =>
    refine h.add hc.1 fun p hp o ho => ?_
    rcases hc.2 o ho with hknown | hread
    · cases o with
      | reg r => simp [Block.Fits, Operand.ref]
      | param i => cases hknown
      | stray k => simp [Block.Fits, Operand.ref]
    · exact h.fits hread hp

/-- All calls of an orderly session. -/
theorem Inv.orderly {s : Session} (h : s.Inv) :
    ∀ {calls : List BuildCall}, s.Orderly calls → (s.run calls).Inv
  | [], _ => h
  | _ :: _, ho => (h.admitted ho.1).orderly ho.2

end Session

namespace Routine

/-- The routine comes from an orderly session, has a body, and its blocks are complete and jump to
blocks of the body. -/
structure Finished (f : Routine) : Prop where
  built : ∃ name calls, Session.Orderly { routine := .new name } calls ∧
    (Session.run { routine := .new name } calls).routine = f
  body : 2 ≤ f.blocks.size
  complete : ∀ b < f.blocks.size, b ≠ entry → (f.block b).isComplete
  target : ∀ b < f.blocks.size, ∀ e ∈ (f.block b).exit, ∀ l ∈ e.labels, ∃ t ∈ f.find? l, t ≠ entry

/-- Well-formed routines are finished. -/
theorem WellFormed.finished {f : Routine} (h : f.WellFormed) : f.Finished where
  built := by
    obtain ⟨name, calls, hd, hf⟩ := h.built
    exact ⟨name, calls, hd.orderly, hf⟩
  body := h.body
  complete := h.complete
  target := h.target

namespace Finished

variable {f : Routine} (h : f.Finished)

include h

theorem growing : f.Growing := by
  obtain ⟨name, calls, ho, rfl⟩ := h.built
  exact ((Session.inv_new name).orderly ho).growing

theorem closed : f.Closed := closed_of_growing h.growing h.body h.complete h.target

theorem ready : f.Ready := h.growing.ready h.closed

end Finished

/-! ## Isomorphic routines -/

/-- Every register of a reached block was made. -/
def Allocated (f : Routine) : Prop :=
  ∀ b, f.graph.Reach b → ∀ r ∈ (f.block b).registers, 0 ≤ r ∧ r < f.regs.size

/-- The variables of the reached blocks and of the slots. -/
def liveVars (f : Routine) (slots : List Slot) : Set Var :=
  {v | (∃ b, f.graph.Reach b ∧ v ∈ (f.block b).vars) ∨ v ∈ slots.map Slot.var}

/-- The registers of the reached blocks. -/
def liveRegs (f : Routine) : Set Reg := {r | ∃ b, f.graph.Reach b ∧ r ∈ (f.block b).registers}

/-- The reached blocks of `f'` are those of `f`, the blocks under their names by `β`, the variables
under their names by `ν` and the registers under their names by `ρ`; the entry and the start of the
body keep their names, and the slots are for the same variables. -/
structure Isomorphic (β : BlockId → BlockId) (ν : Var → Var) (ρ : Reg → Reg) (f : Routine)
    (slots : List Slot) (f' : Routine) (slots' : List Slot) : Prop where
  blocks : Set.BijOn β {b | f.graph.Reach b} {b | f'.graph.Reach b}
  vars : Set.InjOn ν (f.liveVars slots)
  regs : Set.InjOn ρ f.liveRegs
  start : β 0 = 0 ∧ β 1 = 1
  block : ∀ b, f.graph.Reach b → (f.block b).Renamed β ν ρ (f'.block (β b))
  args : slots'.map Slot.var = slots.map fun s => ν s.var

variable {β : BlockId → BlockId} {ν : Var → Var} {ρ : Reg → Reg} {f f' : Routine}
  {slots slots' : List Slot}

/-- Isomorphic routines are alike. -/
theorem Isomorphic.alike (h : Isomorphic β ν ρ f slots f' slots') (hf : f.Finished)
    (hf' : f'.Finished) (ha : f.Allocated) (ha' : f'.Allocated) :
    Alike β ν ρ (f.liveVars slots) f.liveRegs f f' where
  ready := hf.ready
  ready' := hf'.ready
  blocks := h.blocks.injOn.mono fun _ hb => hf.closed.mem_order.mp hb
  vars := h.vars
  regs := h.regs
  start := h.start.1
  route := by rw [hf.growing.route, hf'.growing.route, h.start.2]
  block b hb := h.block b (hf.closed.mem_order.mp hb)
  vars_mem b hb _ hv := .inl ⟨b, hf.closed.mem_order.mp hb, hv⟩
  regs_mem b hb _ hr := ⟨b, hf.closed.mem_order.mp hb, hr⟩
  made := by
    rintro r ⟨b, hb, hr⟩
    obtain ⟨h0, hlt⟩ := ha b hb r hr
    have hr' := (h.block b hb).register_mem hr h0
    exact ⟨h0, hlt, (ha' (β b) (h.blocks.mapsTo hb) (ρ r) hr').2⟩

/-- The same variables have slots. -/
theorem provided_iff (hν : Set.InjOn ν (f.liveVars slots))
    (hargs : slots'.map Slot.var = slots.map fun s => ν s.var) {vs : List Var}
    (hvs : ∀ v ∈ vs, v ∈ f.liveVars slots) :
    (∀ w ∈ vs.map ν, w ∈ slots'.map Slot.var) ↔ ∀ v ∈ vs, v ∈ slots.map Slot.var := by
  have hmem : ∀ v ∈ vs, ν v ∈ slots'.map Slot.var ↔ v ∈ slots.map Slot.var := by
    intro v hv
    rw [hargs, List.mem_map, List.mem_map]
    constructor
    · rintro ⟨s, hs, he⟩
      exact ⟨s, hs, hν (.inr (List.mem_map_of_mem hs)) (hvs v hv) he⟩
    · rintro ⟨s, hs, rfl⟩
      exact ⟨s, hs, rfl⟩
  constructor
  · intro hall v hv
    exact (hmem v hv).mp (hall (ν v) (List.mem_map_of_mem hv))
  · intro hall w hw
    obtain ⟨v, hv, rfl⟩ := List.mem_map.mp hw
    exact (hmem v hv).mpr (hall v hv)

end Routine

open Routine

/-- Lowering depends on the reached structure only: for isomorphic routines it gives the same code
and the same number of locals, or it finds slots missing in both. -/
theorem lower_isomorphic {β : BlockId → BlockId} {ν : Var → Var} {ρ : Reg → Reg} {f f' : Routine}
    {slots slots' : List Slot} (hf : f.Finished) (hf' : f'.Finished) (ha : f.Allocated)
    (ha' : f'.Allocated) (h : Isomorphic β ν ρ f slots f' slots') :
    (∃ F l F' l', f.lower slots = .ok (F, .ok l) ∧ f'.lower slots' = .ok (F', .ok l') ∧
      l.code = l'.code ∧ l.locals = l'.locals) ∨
    ∃ F e F' e', f.lower slots = .ok (F, .error e) ∧ f'.lower slots' = .ok (F', .error e') := by
  have halike := (h.alike hf hf' ha ha').addExit
  obtain ⟨n, f₂, hs, hsplit⟩ := hf.ready.exists_split
  obtain ⟨n', f₂', hs', hsplit'⟩ := hf'.ready.exists_split
  have hprovided := provided_iff h.vars h.args fun v hv => halike.of_mem hs.needs (b := entry) hv
  rw [← halike.of_entry hs.needs hs'.needs] at hprovided
  by_cases hslots : ∀ v ∈ n.of entry, v ∈ slots.map Slot.var
  · left
    obtain ⟨into, F, hl⟩ := hf.ready.lower_ok hs hsplit hslots
    obtain ⟨into', F', hl'⟩ := hf'.ready.lower_ok hs' hsplit' (hprovided.mpr hslots)
    have hlaid :=
      halike.laidAlike hl.settled hl'.settled h.args fun s hs => .inr (List.mem_map_of_mem hs)
    refine ⟨F, _, F', _, hl.lower_eq, hl'.lower_eq, ?_, ?_⟩
    · rw [(halike.split_graph hs hs').order]
      exact hlaid.placedCode.symm
    · rw [(halike.split_graph hs hs').order]
      exact hlaid.length_locals.symm
  · right
    obtain ⟨F, hl⟩ := hf.ready.lower_missing hs hsplit hslots
    obtain ⟨F', hl'⟩ := hf'.ready.lower_missing hs' hsplit' (mt hprovided.mp hslots)
    exact ⟨F, _, F', _, hl, hl'⟩

/-- A branch around a call that sets `y`, then a copy of `y`. -/
def detourCalls : List BuildCall :=
  [.newVar "x", .newVar "y", .createBlock, .createBlock, .createBlock, .read 1 0,
    .add 1 (.exit (.branch (.param 0) 2 3)), .read 2 0, .write 2 1,
    .add 2 (.action (.call 7 0 (.param 0))), .add 2 (.exit (.jump 3)), .read 3 1, .write 3 0,
    .add 3 (.action (.move 1 (.param 0))), .add 3 (.exit .ret)]

/-- The same with the blocks, variables and registers numbered in another order. Of the blocks 3 and
5, which nothing reaches, one reads a register that no read returned and jumps into the rest, and
one returns. -/
def shuffledCalls : List BuildCall :=
  [.newVar "t", .newVar "b", .newVar "a", .createBlock, .createBlock, .createBlock, .createBlock,
    .createBlock, .read 3 0, .write 3 1, .add 3 (.action (.move 0 (.reg 9))),
    .add 3 (.exit (.jump 2)), .add 5 (.exit .ret), .read 1 2,
    .add 1 (.exit (.branch (.param 0) 4 2)), .read 2 1, .write 2 2,
    .add 2 (.action (.move 1 (.param 0))), .add 2 (.exit .ret), .read 4 2, .write 4 1,
    .add 4 (.action (.call 7 2 (.param 0))), .add 4 (.exit (.jump 2))]

def detourRoutine : Routine := (Session.run { routine := .new "detour" } detourCalls).routine

def shuffledRoutine : Routine := (Session.run { routine := .new "shuffled" } shuffledCalls).routine

theorem wellFormed_detourRoutine : detourRoutine.WellFormed where
  built := ⟨"detour", detourCalls, by decide +kernel, rfl⟩
  body := by decide +kernel
  complete := by decide +kernel
  target := by decide +kernel

theorem finished_shuffledRoutine : shuffledRoutine.Finished where
  built := ⟨"shuffled", shuffledCalls, by decide +kernel, rfl⟩
  body := by decide +kernel
  complete := by decide +kernel
  target := by decide +kernel

theorem reach_detourRoutine {b : BlockId} : detourRoutine.graph.Reach b ↔ b ∈ [0, 1, 2, 3] := by
  have horder : detourRoutine.graph.order = [0, 1, 2, 3] := by decide +kernel
  rw [← wellFormed_detourRoutine.closed.mem_order, horder]

theorem reach_shuffledRoutine {b : BlockId} : shuffledRoutine.graph.Reach b ↔ b ∈ [0, 1, 4, 2] := by
  have horder : shuffledRoutine.graph.order = [0, 1, 4, 2] := by decide +kernel
  rw [← finished_shuffledRoutine.closed.mem_order, horder]

/-- The names of the blocks in the shuffled routine. -/
def shuffle (b : BlockId) : BlockId := if b = 2 then 4 else if b = 3 then 2 else b

/-- A slot for `x` and one for `y`. -/
def detourSlots : List Slot := [{ var := 0, size := 1 }, { var := 1, size := 4 }]

def shuffledSlots : List Slot := [{ var := 2, size := 8 }, { var := 1, size := 1 }]

theorem isomorphic_shuffledRoutine :
    Isomorphic shuffle (fun v => 2 - v) (fun r => 2 - r) detourRoutine detourSlots
    shuffledRoutine shuffledSlots where
  blocks := by
    have hmaps : ∀ b ∈ [0, 1, 2, 3], shuffle b ∈ [0, 1, 4, 2] := by decide
    have hinj : ∀ b ∈ [0, 1, 2, 3], ∀ c ∈ [0, 1, 2, 3], shuffle b = shuffle c → b = c := by decide
    have hsurj : ∀ c ∈ [0, 1, 4, 2], ∃ b ∈ [0, 1, 2, 3], shuffle b = c := by decide
    refine ⟨fun b hb => ?_, fun b hb c hc he => ?_, fun c hc => ?_⟩
    · exact reach_shuffledRoutine.mpr (hmaps b (reach_detourRoutine.mp hb))
    · exact hinj b (reach_detourRoutine.mp hb) c (reach_detourRoutine.mp hc) he
    · obtain ⟨b, hb, he⟩ := hsurj c (reach_shuffledRoutine.mp hc)
      exact ⟨b, reach_detourRoutine.mpr hb, he⟩
  vars _ _ _ _ he := by simpa using he
  regs _ _ _ _ he := by simpa using he
  start := ⟨rfl, rfl⟩
  block b hb := by
    have hall : ∀ b ∈ [0, 1, 2, 3],
        (detourRoutine.block b).Renamed shuffle (fun v => 2 - v) (fun r => 2 - r)
      (shuffledRoutine.block (shuffle b)) := by decide +kernel
    exact hall b (reach_detourRoutine.mp hb)
  args := rfl

theorem allocated_detourRoutine : detourRoutine.Allocated := by
  have hall : ∀ b ∈ [0, 1, 2, 3], ∀ r ∈ (detourRoutine.block b).registers,
    0 ≤ r ∧ r < detourRoutine.regs.size := by decide +kernel
  exact fun b hb => hall b (reach_detourRoutine.mp hb)

theorem allocated_shuffledRoutine : shuffledRoutine.Allocated := by
  have hall : ∀ b ∈ [0, 1, 4, 2], ∀ r ∈ (shuffledRoutine.block b).registers,
    0 ≤ r ∧ r < shuffledRoutine.regs.size := by decide +kernel
  exact fun b hb => hall b (reach_shuffledRoutine.mp hb)

/-- Both have slots for what they need, so they have the same code. -/
theorem lower_shuffledRoutine : detourRoutine.Finished ∧ shuffledRoutine.Finished ∧
    detourRoutine.Allocated ∧
    shuffledRoutine.Allocated ∧
    Isomorphic shuffle (fun v => 2 - v)
      (fun r => 2 - r) detourRoutine detourSlots shuffledRoutine shuffledSlots ∧
    ∃ F l F' l', detourRoutine.lower detourSlots = .ok (F, .ok l) ∧
      shuffledRoutine.lower shuffledSlots = .ok (F', .ok l') ∧ l.code = l'.code ∧
        l.locals = l'.locals := by
  refine ⟨wellFormed_detourRoutine.finished, finished_shuffledRoutine, allocated_detourRoutine,
    allocated_shuffledRoutine, isomorphic_shuffledRoutine, ?_⟩
  rcases lower_isomorphic wellFormed_detourRoutine.finished finished_shuffledRoutine
    allocated_detourRoutine
    allocated_shuffledRoutine isomorphic_shuffledRoutine with hcode | ⟨F, e, F', e', herror, -⟩
  · exact hcode
  · obtain ⟨G, l, hok, -⟩ :=
      exists_lowered detourRoutine detourSlots (fun _ _ => true) (by decide +kernel)
    cases herror.symm.trans hok

end ProcCompiler
