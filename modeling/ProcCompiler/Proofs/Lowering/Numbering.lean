import ProcCompiler.Proofs.Lowering.Allocation
import ProcCompiler.Proofs.Routine.Emission
import ProcCompiler.Proofs.Semantics.Layout
import ProcCompiler.Proofs.Semantics.ParallelMoves
import ProcCompiler.Proofs.Semantics.Verification
/-!
# How machine registers are numbered

The layout writes the registers of the blocks as machine registers, position by position. Different
registers get different machine registers: a local is numbered by its first occurrence, and the
registers that lowering made for argument slots stand for different slots. These registers come
after all those that instructions write, so the code never writes to an argument.

* `registerAt?`: the register at a position of code.
* `eraseDups_frames`: the locals occur in the order of their numbers.
* `Stages.exists_of_slot?`, `Stages.slot_inj`: what argument registers stand for.
* `Stages.lt_of_mem_writes`: no instruction writes a register that was made for an argument.
* `lower_numbering`: the registers of the code of a lowered routine.
-/
namespace ProcCompiler

open Routine

/-! ## Positions -/

/-- Where a register can stand in an instruction. -/
inductive Side where
  | read
  | write
deriving DecidableEq

/-- Where a register can stand in code. -/
structure Position where
  pc : Nat
  side : Side
deriving DecidableEq

namespace Instr

/-- What stands on a side of the instruction. -/
def operand? {α ℓ : Type} (x : Instr α α ℓ) : Side → Option α
  | .read => x.read?
  | .write => x.write?

theorem operand?_resolved (cs : List Chunk) (x : BlockInstr) (d : Side) :
    (x.resolved cs).operand? d = (x.mapRead Operand.regIndex).operand? d := by
  rcases x with (_ | _ | _) | (_ | _ | _) <;> cases d <;> rfl

theorem operand?_placed (φ : Reg → Register) (x : Instr Reg Reg Int) (d : Side) :
    ((x.mapRead φ).mapWrite φ).operand? d = (x.operand? d).map φ := by
  rcases x with (_ | _ | _) | (_ | _ | _) <;> cases d <;> rfl

theorem mem_operands_of_operand? {x : Instr Reg Reg Int} {d : Side} {r : Reg}
    (h : x.operand? d = some r) :
    r ∈ operands x := by
  unfold operands
  cases d with
  | read => exact List.mem_append_left _ (Option.mem_toList.mpr h)
  | write => exact List.mem_append_right _ (Option.mem_toList.mpr h)

end Instr

/-- The register at a position, if one stands there. -/
def registerAt? {α ℓ : Type} (code : List (Instr α α ℓ)) (p : Position) : Option α :=
  code[p.pc]?.bind (·.operand? p.side)

namespace Routine

/-- The blocks as they are written one after another, with registers for their operands. -/
def source (f : Routine) (order : List BlockId) : List (Instr Reg Reg Label) :=
  (f.flat order).map (·.mapRead Operand.regIndex)

theorem registerAt?_resolvedCode (f : Routine) (order : List BlockId) (p : Position) :
    registerAt? (f.resolvedCode order) p = registerAt? (f.source order) p := by
  unfold registerAt? resolvedCode source
  rw [List.getElem?_map, List.getElem?_map, Option.bind_map, Option.bind_map]
  exact congrArg _ (funext fun x => Instr.operand?_resolved _ x p.side)

/-- A position holds the place of the register that the blocks have there. -/
theorem registerAt?_placedCode (f : Routine) (order : List BlockId) (p : Position) :
    registerAt? (f.placedCode order) p = (registerAt? (f.source order) p).map
      (f.placeIn order) := by
  rw [← registerAt?_resolvedCode]
  unfold registerAt? placedCode
  rw [List.getElem?_map, Option.bind_map, Option.map_bind]
  exact congrArg _ (funext fun x => Instr.operand?_placed _ x p.side)

theorem mem_operands_of_registerAt? {f : Routine} {order : List BlockId} {p : Position} {r : Reg}
    (h : registerAt? (f.source order) p = some r) :
    r ∈ (f.resolvedCode order).flatMap operands := by
  rw [← registerAt?_resolvedCode] at h
  obtain ⟨x, hx, hr⟩ := Option.bind_eq_some_iff.mp h
  exact List.mem_flatMap.mpr ⟨x, List.mem_of_getElem? hx, Instr.mem_operands_of_operand? hr⟩

end Routine

/-! ## Locals -/

/-- The number of a local. -/
def Register.frame? : Register → Option Int
  | .frame i => some i
  | _ => none

theorem nodup_eraseDups {α : Type} [DecidableEq α] : ∀ l : List α, l.eraseDups.Nodup
  | [] => List.nodup_nil
  | a :: l => by
    have : (l.filter fun x => !x == a).length ≤ l.length := List.length_filter_le _ _
    rw [List.eraseDups_cons, List.nodup_cons]
    exact ⟨by simp [List.mem_eraseDups], nodup_eraseDups _⟩
termination_by l => l.length

/-- Elements numbered by their first occurrence have their numbers in order. -/
theorem eraseDups_map_idxOf {α : Type} [DecidableEq α] (l : List α) :
    (l.map fun a => (l.eraseDups.idxOf a : Int)).eraseDups =
      (List.range l.eraseDups.length).map fun i : Nat => (i : Int) := by
  have hinj : Set.InjOn (fun a => (l.eraseDups.idxOf a : Int)) {a | a ∈ l} := fun a ha b _ he =>
    (List.idxOf_inj (List.mem_eraseDups.mpr ha)).mp (Int.ofNat.inj he)
  rw [eraseDups_map_of_injOn hinj]
  refine List.ext_getElem (by simp) fun i hi _ => ?_
  rw [List.length_map] at hi
  simp [(nodup_eraseDups l).idxOf_getElem i hi]

namespace Routine

theorem registers_placed (φ : Reg → Register) (x : Instr Reg Reg Int) :
    Instruction.registers ((x.mapRead φ).mapWrite φ) = (operands x).map φ := by
  rcases x with (_ | _ | _) | (_ | _ | _) <;> rfl

/-- The locals of the code occur in the order of their numbers, and all of them do. -/
theorem eraseDups_frames (f : Routine) (order : List BlockId) :
    (((f.placedCode order).flatMap Instruction.registers).filterMap Register.frame?).eraseDups =
      (List.range (f.locals (f.resolvedCode order)).length).map fun i : Nat => (i : Int) := by
  have hframes : ((f.placedCode order).flatMap Instruction.registers).filterMap Register.frame? =
      (((f.resolvedCode order).flatMap operands).filter fun r => (f.slot? r).isNone).map
        fun r => ((f.locals (f.resolvedCode order)).idxOf r : Int) := by
    rw [placedCode, List.flatMap_map, List.flatMap_congr fun x _ => registers_placed _ x,
      ← List.map_flatMap, List.filterMap_map, ← List.filterMap_eq_map, List.filterMap_filter]
    refine List.filterMap_congr fun r _ => ?_
    unfold Function.comp place
    cases f.slot? r <;> rfl
  rw [hframes]
  exact eraseDups_map_idxOf _

end Routine

/-! ## What instructions write -/

/-- The parts of an action write what the action writes. -/
theorem Action.write?_expand {a c : Action Reg Operand} (h : c ∈ a.expand) :
    c.write? = a.write? := by
  cases a with
  | call fn out arg =>
    simp only [expand] at h
    split at h
    · rw [List.mem_singleton.mp h]
    · rcases List.mem_pair.mp h with rfl | rfl <;> rfl
  | move out arg => rw [List.mem_singleton.mp h]
  | unknown code => rw [List.mem_singleton.mp h]

namespace Block

/-- The registers that the block's instructions write. -/
def writes (b : Block) : List Reg := b.body.filterMap Action.write?

theorem mem_writes {b : Block} {r : Reg} : r ∈ b.writes ↔ ∃ a ∈ b.body, a.write? = some r :=
  List.mem_filterMap

theorem writes_receive (b : Block) (v : Var) (r : Reg) : (b.receive v r).writes = b.writes := by
  show (b.fill v r).writes = b.writes
  unfold fill
  split
  · simp only [writes, mapRead, List.filterMap_map]
    exact List.filterMap_congr fun a _ => Action.write?_mapRead _ a
  · rfl

/-- What a block writes is among its registers. -/
theorem registers_of_writes {b : Block} {r : Reg} (h : r ∈ b.writes) : r ∈ b.registers := by
  obtain ⟨a, ha, hr⟩ := mem_writes.mp h
  exact mem_registers.mpr (.inl ⟨_, action_mem_code ha, .inl hr⟩)

end Block

namespace Routine

/-- What a change keeps of a block it keeps of every block. -/
theorem view_modifyBlock {α : Type} (view : Block → α) (f : Routine) (c : BlockId)
    (change : Block → Block) (h : ∀ b, view (change b) = view b) (b : BlockId) :
    view ((f.modifyBlock c change).block b) = view (f.block b) := by
  by_cases hc : c = b
  · subst hc
    by_cases hlt : c < f.blocks.size
    · rw [block_modifyBlock_self hlt, h]
    · rw [block_of_le (by rw [size_modifyBlock]; exact Nat.le_of_not_lt hlt),
        block_of_le (Nat.le_of_not_lt hlt)]
  · rw [block_modifyBlock_ne hc]

theorem writes_deliverAll {f F : Routine} {g : FlowGraph} (h : f.deliverAll g = .ok F)
    (b : BlockId) :
    (F.block b).writes = (f.block b).writes := by
  obtain ⟨n, t, -, ht, rfl, -⟩ := deliverAll_cases h
  exact Transit.run_preserves (P := fun u => (u.routine.block b).writes = (f.block b).writes)
    (Q := fun _ => True)
    (fun u _ c hu _ _ _ =>
      (view_modifyBlock Block.writes u.routine c _ (fun x => x.writes_receive _ _) b).trans hu)
    (fun _ _ _ _ => trivial) (fun _ _ _ hu _ => hu) ht rfl

theorem writes_bindSlot (slots : List Slot) (s : Routine × List String) (v : Var) (b : BlockId) :
    ((bindSlot slots s v).1.block b).writes = (s.1.block b).writes := by
  obtain ⟨f, missing⟩ := s
  cases hi : slots.findIdx? (fun s => decide (s.var = v)) with
  | some i =>
    simp only [bindSlot, hi]
    exact view_modifyBlock Block.writes (f.pushReg _) entry _
      (fun x => (x.bind v _).writes_receive v _) b
  | none => simp only [bindSlot, hi]

theorem writes_bindArguments {f f' : Routine} {n : Needs} {slots : List Slot}
    {e : Option SignatureError} (h : f.bindArguments n slots = .ok (f', e)) (b : BlockId) :
    (f'.block b).writes = (f.block b).writes := by
  have hfold :=
    foldl_inv (bindSlot slots) (fun _ s => (s.1.block b).writes = (f.block b).writes) (n.of entry)
      (f, [])
    rfl fun _ v _ s _ hs => (writes_bindSlot slots s v b).trans hs
  unfold bindArguments at h
  split at h
  · cases h
  · split at h
    · rename_i f₁ heq
      rw [heq] at hfold
      cases h
      exact (view_modifyBlock Block.writes f₁ entry (·.add _) (fun _ => rfl) b).trans hfold
    · rename_i f₁ missing hne heq
      rw [heq] at hfold
      cases h
      exact hfold

end Routine

/-- What is written at a position is written by a block. -/
theorem Routine.mem_writes_of_registerAt? {f : Routine} {order : List BlockId} {pc : Nat} {r : Reg}
    (h : registerAt? (f.source order) ⟨pc, .write⟩ = some r) :
    ∃ b ∈ order, r ∈ (f.block b).writes := by
  obtain ⟨y, hy, hr⟩ := Option.bind_eq_some_iff.mp h
  obtain ⟨x, hx, rfl⟩ := List.mem_map.mp (List.mem_of_getElem? hy)
  obtain ⟨b, hb, next, hx⟩ := mem_flat hx
  rcases mem_emit hx with ⟨a, ha, c, hc, rfl⟩ | ⟨e, -, rfl⟩
  · have hwrite : c.write? = some r := (Action.write?_mapRead Operand.regIndex c).symm.trans hr
    exact ⟨b, hb, Block.mem_writes.mpr ⟨a, ha, (Action.write?_expand hc).symm.trans hwrite⟩⟩
  · cases hr

/-! ## The final routine -/

namespace Stages

variable {f F : Routine} {slots : List Slot} {l : Lowered} (s : Stages f slots F l)

include s

/-- Before arguments are bound no register stands for a slot. -/
theorem plain_split (hplain : ∀ info ∈ f.regs.toList, info.slot = none) :
    ∀ info ∈ s.split.regs.toList, info.slot = none := by
  intro info hm
  rw [s.splitOf.split.regs, s.regs_single, List.mem_append, List.mem_map] at hm
  rcases hm with hm | ⟨site, -, rfl⟩
  · exact hplain info hm
  · rfl

/-- An argument register was made for a variable that the entry needs, and stands for its first
slot. -/
theorem exists_of_slot? (hplain : ∀ info ∈ f.regs.toList, info.slot = none) {r : Reg} {i : Nat}
    (hr : F.slot? r = some i) : ∃ v ∈ s.needs.of entry, slotOf? slots v = some i ∧
      F.regInfo? r = some { var := v, slot := some i } ∧ r = ((s.split.regs.size +
        ((s.needs.of entry).filter fun v => (slotOf? slots v).isSome).idxOf v : Nat) : Reg) := by
  have hregs := s.argued.regs
  rw [← (sameShape_deliverAll s.deliverAll_eq).regs] at hregs
  have hnodup := Needs.nodup_of (nodup_sites s.splitOf.needs) entry
  obtain ⟨v, hv, hrv, hi, hinfo⟩ :=
    Routine.exists_of_slot? hregs (s.plain_split hplain) (hnodup.filter _) hr
  exact ⟨v, List.mem_of_mem_filter hv, hi, hinfo, hrv⟩

/-- No two registers stand for one slot. -/
theorem slot_inj (hplain : ∀ info ∈ f.regs.toList, info.slot = none) {r r' : Reg} {i : Nat}
    (hr : F.slot? r = some i) (hr' : F.slot? r' = some i) : r = r' := by
  obtain ⟨v, -, hi, -, rfl⟩ := s.exists_of_slot? hplain hr
  obtain ⟨w, -, hj, -, rfl⟩ := s.exists_of_slot? hplain hr'
  rw [slotOf?_inj hi hj]

/-- What the blocks write was there before arguments were bound. -/
theorem lt_of_mem_writes (ha : f.Allocated) {b : BlockId} (hb : b ∈ s.graph.order) {r : Reg}
    (hr : r ∈ (F.block b).writes) : r < s.split.regs.size := by
  rw [writes_deliverAll s.deliverAll_eq, writes_bindArguments s.bindArguments_eq] at hr
  have hsingle : s.single.Allocated := by
    rw [s.single_eq, eq_graph_of_analyze s.analyze_built]
    exact (closed_of_analyze s.analyze_built).allocated_addExit ha
  have hreach := s.splitOf.closed'.mem_order.mp (s.graph_eq ▸ hb)
  exact (s.splitOf.allocated hsingle b hreach r (Block.registers_of_writes hr)).2

/-! ## Positions of the code -/

theorem registerAt?_code (p : Position) :
    registerAt? l.code p = (registerAt? (F.source s.graph.order) p).map
      (F.placeIn s.graph.order) := by
  rw [← s.layout_final.1, registerAt?_placedCode]

/-- An argument register of the code is that of a register which was made for it. -/
theorem exists_of_arg {p : Position} {i : Int}
    (hp : registerAt? l.code p = some (.arg i)) : ∃ r k, i = (k : Nat) ∧ F.slot? r = some k ∧
      registerAt? (F.source s.graph.order) p = some r := by
  rw [s.registerAt?_code, Option.map_eq_some_iff] at hp
  obtain ⟨r, hr, hplace⟩ := hp
  unfold placeIn place at hplace
  cases hs : F.slot? r with
  | some k =>
    rw [hs] at hplace
    exact ⟨r, k, (Register.arg.inj hplace).symm, hs, hr⟩
  | none =>
    rw [hs] at hplace
    cases hplace

/-- No instruction writes an argument register. -/
theorem write?_ne_arg (hplain : ∀ info ∈ f.regs.toList, info.slot = none) (ha : f.Allocated)
    {x : Instruction} (hx : x ∈ l.code) (i : Int) : x.write? ≠ some (.arg i) := by
  intro hw
  obtain ⟨pc, hpc⟩ := List.mem_iff_getElem?.mp hx
  have hp : registerAt? l.code ⟨pc, .write⟩ = some (.arg i) :=
    Option.bind_eq_some_iff.mpr ⟨x, hpc, hw⟩
  obtain ⟨r, k, -, hslot, hr⟩ := s.exists_of_arg hp
  obtain ⟨b, hb, hwrites⟩ := mem_writes_of_registerAt? hr
  have hlt := s.lt_of_mem_writes ha hb hwrites
  obtain ⟨v, -, -, -, rfl⟩ := s.exists_of_slot? hplain hslot
  exact absurd hlt (Int.not_lt.mpr (Int.ofNat_le.mpr (Nat.le_add_right _ _)))

end Stages

/-- Whatever calls a routine with allocated registers only was built by, and whenever lowering gives
code for it: a register stands in the code where one stands in the blocks. Two positions name the
same machine register if and only if the blocks have the same register there. The locals that occur
are all those below their number, and they first occur in this order. An argument register stands
for the first slot of a variable that the entry needs, and no instruction writes one. -/
theorem lower_numbering (name : String) (calls : List BuildCall) (slots : List Slot) {F : Routine}
    {l : Lowered} (ha : (Session.run { routine := .new name } calls).routine.Allocated)
    (h : (Session.run { routine := .new name } calls).routine.lower slots = .ok (F, .ok l)) :
    ∃ s : Stages (Session.run { routine := .new name } calls).routine slots F l,
      (∀ p, (registerAt? l.code p).isSome = (registerAt? (F.source s.graph.order) p).isSome) ∧
      (∀ p q x y, registerAt? l.code p = some x → registerAt? l.code q = some y →
        (x = y ↔ registerAt? (F.source s.graph.order) p = registerAt? (F.source s.graph.order) q)) ∧
      ((l.code.flatMap Instruction.registers).filterMap Register.frame?).eraseDups =
        (List.range l.locals).map (fun i : Nat => (i : Int)) ∧
      (∀ p i, registerAt? l.code p = some (.arg i) →
        ∃ r v k, registerAt? (F.source s.graph.order) p = some r ∧
        F.regInfo? r = some { var := v, slot := some k } ∧ v ∈ s.needs.of entry ∧
        slotOf? slots v = some k ∧
        i = (k : Nat)) ∧
      ∀ x ∈ l.code, ∀ i, x.write? ≠ some (.arg i) := by
  obtain ⟨s⟩ := exists_stages h
  have hplain := Session.plain_run (s := { routine := .new name }) (fun _ hi => by cases hi) calls
  refine ⟨s, fun p => ?_, fun p q x y hx hy => ?_, ?_, fun p i hp => ?_,
    fun x hx i => s.write?_ne_arg hplain ha hx i⟩
  · rw [s.registerAt?_code, Option.isSome_map]
  · rw [s.registerAt?_code, Option.map_eq_some_iff] at hx hy
    obtain ⟨r, hr, rfl⟩ := hx
    obtain ⟨r', hr', rfl⟩ := hy
    rw [hr, hr', Option.some.injEq]
    refine ⟨fun he => ?_, fun he => by rw [he]⟩
    exact place_inj (fun _ _ _ => s.slot_inj hplain) _ r (mem_operands_of_registerAt? hr) r'
      (mem_operands_of_registerAt? hr') he
  · rw [← s.layout_final.1, ← s.layout_final.2, eraseDups_frames]
  · obtain ⟨r, k, hi, hslot, hr⟩ := s.exists_of_arg hp
    obtain ⟨v, hv, hfirst, hinfo, -⟩ := s.exists_of_slot? hplain hslot
    exact ⟨r, v, k, hr, hinfo, hv, hfirst, hi⟩

/-- Slots for the variables of the loop, two of them for `x`. -/
def twinSlots : List Slot :=
  [{ var := 1, size := 1 }, { var := 0, size := 1 }, { var := 0, size := 1 }]

/-- The loop takes `x` from the first of its slots. -/
theorem lower_numbering_loop :
    loopRoutine.Allocated ∧ ∃ F l, loopRoutine.lower twinSlots = .ok (F, .ok l) ∧
    registerAt? l.code ⟨0, .read⟩ = some (.arg 1) ∧ l.locals = 3 ∧
      ∃ s : Stages loopRoutine twinSlots F l,
      (∀ p q x y, registerAt? l.code p = some x → registerAt? l.code q = some y →
        (x = y ↔ registerAt? (F.source s.graph.order) p = registerAt? (F.source s.graph.order) q)) ∧
      ((l.code.flatMap Instruction.registers).filterMap Register.frame?).eraseDups = [0, 1, 2] ∧
      (∃ v ∈ s.needs.of entry, slotOf? twinSlots v = some 1) ∧ ∀ x ∈ l.code, ∀ i, x.write? ≠ some
        (.arg i) := by
  obtain ⟨F, l, h, hl⟩ := exists_lowered loopRoutine twinSlots
    (fun _ l => registerAt? l.code ⟨0, .read⟩ = some (.arg 1) ∧ l.locals = 3) (by decide +kernel)
  obtain ⟨harg, hlocals⟩ := of_decide_eq_true hl
  obtain ⟨s, -, hinj, hdense, hargs, hread⟩ :=
    lower_numbering "loop" loopCalls twinSlots allocated_loopRoutine h
  rw [hlocals] at hdense
  obtain ⟨r, v, k, -, -, hv, hk, hi⟩ := hargs _ _ harg
  obtain rfl : k = 1 := Int.ofNat.inj hi.symm
  exact ⟨allocated_loopRoutine, F, l, h, harg, hlocals, s, hinj, hdense, ⟨v, hv, hk⟩, hread⟩

end ProcCompiler
