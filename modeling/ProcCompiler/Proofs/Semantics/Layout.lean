import ProcCompiler.Proofs.Lowering.Complete
import ProcCompiler.Proofs.Semantics.Registers
/-!
# From blocks to bytecode

The code of a layable routine does what its blocks do, one block after another. The offset of the
machine and the point in the blocks go together: the code from the offset on is what is to come of
the block, and then the blocks after it. A jump that was left out needs no step, and the order of
the blocks says how often this can happen in a row. Giving registers other names changes nothing, as
long as different registers keep different names.

* `Layable.follows_code`: the code follows the blocks.
* `follows_renamed`: the renamed code follows the code.
* `Settled.same_placedCode`: both, for the code that lowering gives.
-/
namespace ProcCompiler

open Machine

/-! ## Where code is written -/

/-- An exit is written, unless it is a jump to the next block. -/
theorem Block.emitExit_cases {b : Block} {e : Exit Operand Label} (he : b.exit = some e)
    (next : Option BlockId) :
    b.emitExit next = [.exit e] ∨ ∃ t : BlockId, next = some t ∧ e = .jump t ∧
      b.emitExit next = [] := by
  unfold Block.emitExit
  rw [he]
  cases e with
  | jump l =>
    by_cases hl : next.map (fun n : Nat => (n : Label)) = some l
    · obtain ⟨t, rfl, rfl⟩ := Option.map_eq_some_iff.mp hl
      exact .inr ⟨t, rfl, rfl, if_pos rfl⟩
    · exact .inl (if_neg hl)
  | branch c t u => exact .inl rfl
  | ret => exact .inl rfl

namespace Routine

/-- The code from an offset on is what is to come of a block after a point, and then the blocks
after it. -/
def WrittenAt (f : Routine) (order : List BlockId) (q : Point) (pc : Nat) : Prop :=
  ∃ done rest, order = done ++ q.block :: rest ∧
    (f.flat order).drop pc =
      (((f.block q.block).body.drop q.index).flatMap Action.expand).map .action ++
      ((f.block q.block).emitExit rest.head? ++ f.flat rest)

variable {f : Routine} {order : List BlockId} {q : Point} {pc : Nat}

/-- The code of a block starts at its offset. -/
theorem writtenAt_offset {t : BlockId} (ht : t ∈ order) :
    f.WrittenAt order { block := t, index := 0 }
      ((offset? (f.chunks order) (t : Label)).getD 0) := by
  obtain ⟨done, rest, rfl, hfresh⟩ := List.eq_append_cons_of_mem ht
  obtain ⟨code, hcode, hoff⟩ := f.flat_split (t :: rest) done
  have hne : ∀ b ∈ done, (b : Label) ≠ (t : Label) :=
    fun b hb heq => hfresh (Int.ofNat.inj heq ▸ hb)
  refine ⟨done, rest, rfl, ?_⟩
  rw [hoff _ hne, hcode]
  simp [chunks, offset?, flat_cons, Block.emit]

/-- The code starts with the first block. -/
theorem writtenAt_zero {b : BlockId} {rest : List BlockId} :
    f.WrittenAt (b :: rest) { block := b, index := 0 } 0 := by
  refine ⟨[], rest, rfl, ?_⟩
  rw [List.drop_zero, flat_cons, Block.emit, List.drop_zero, List.append_assoc]

namespace WrittenAt

variable (h : f.WrittenAt order q pc)

include h

theorem mem_order : q.block ∈ order := by
  obtain ⟨done, rest, rfl, -⟩ := h
  simp

/-- An action is written as the parts that it expands to. -/
theorem action {a : Action Reg Operand} (ha : (f.block q.block).body[q.index]? = some a) :
    (∃ code, (f.flat order).drop pc = a.expand.map .action ++ code) ∧
      f.WrittenAt order { q with index := q.index + 1 } (pc + a.expand.length) := by
  obtain ⟨done, rest, hord, hcode⟩ := h
  obtain ⟨hlt, hget⟩ := List.getElem?_eq_some_iff.mp ha
  rw [List.drop_eq_getElem_cons hlt, hget, List.flatMap_cons, List.map_append,
    List.append_assoc] at hcode
  refine ⟨⟨_, hcode⟩, done, rest, hord, ?_⟩
  rw [← List.drop_drop, hcode]
  simp

/-- At the end of a body the exit is written, or the block that it jumps to. -/
theorem exit (ha : (f.block q.block).body[q.index]? = none) {e : Exit Operand Label}
    (he : (f.block q.block).exit = some e) (hn : order.Nodup) :
    (f.flat order)[pc]? = some (.exit e) ∨ ∃ t : BlockId, e = .jump t ∧
      f.WrittenAt order { block := t, index := 0 } pc ∧ order.idxOf q.block < order.idxOf t ∧
        t ∈ order := by
  obtain ⟨done, rest, hord, hcode⟩ := h
  rw [List.drop_eq_nil_of_le (List.getElem?_eq_none_iff.mp ha), List.flatMap_nil, List.map_nil,
    List.nil_append]
    at hcode
  rcases Block.emitExit_cases he rest.head? with hw | ⟨t, hnext, rfl, hw⟩
  · rw [hw] at hcode
    exact .inl (of_drop_eq_cons hcode).1
  · right
    obtain ⟨rest, rfl⟩ := List.head?_eq_some_iff.mp hnext
    rw [hw, List.nil_append, flat_cons, Block.emit, List.append_assoc] at hcode
    refine ⟨t, rfl, ⟨done ++ [q.block], rest, by rw [hord]; simp, hcode⟩, ?_, by rw [hord]; simp⟩
    rw [hord] at hn ⊢
    have hdisj := List.disjoint_of_nodup_append hn
    have hb : q.block ∉ done := fun hm => hdisj hm (by simp)
    have ht : t ∉ done := fun hm => hdisj hm (by simp)
    have hne : q.block ≠ t := by
      have := (List.nodup_cons.mp (List.nodup_append.mp hn).2.1).1
      exact fun heq => this (by simp [heq])
    rw [List.idxOf_append_of_notMem hb, List.idxOf_append_of_notMem ht, List.idxOf_cons_self,
      List.idxOf_cons_ne _ hne]
    omega

end WrittenAt

/-! ## The code follows the blocks -/

section

variable {V W : Type} (I : Interp V W) (fnName : FuncId → String)

/-- The code has the same store, and is where the rest of the block is written. -/
structure Laid (f : Routine) (order : List BlockId) (a : BlockState Reg V W)
    (c : CodeState Reg V W) : Prop where
  store : c.store = a.store
  written : ∃ pc : Nat, c.pc = pc ∧ f.WrittenAt order a.point pc

theorem getElem?_listing (q : Point) : (f.listing q.block).body[q.index]? =
    (f.block q.block).body[q.index]?.map (Action.mapRead Operand.regIndex) := List.getElem?_map

/-- At the end of a body the blocks take the exit. -/
theorem step_listing_exit (ha : (f.block q.block).body[q.index]? = none) {e : Exit Operand Label}
    (he : (f.block q.block).exit = some e) (s : Store Reg V W) :
    (blockMachine I fnName f.listing).step ⟨q, s⟩ = leaveBlock I s (e.mapRead Operand.regIndex) :=
  blockStep_exit (by rw [getElem?_listing, ha, Option.map_none]) (by rw [listing, he]; rfl)

theorem fetch_resolvedCode {x : BlockInstr} (h : (f.flat order)[pc]? = some x) :
    fetch (f.resolvedCode order) pc = some (x.resolved (f.chunks order)) := by
  show (f.resolvedCode order)[pc]? = _
  rw [resolvedCode, List.getElem?_map, h]
  rfl

/-- The parts of an action do what the action does: a call finds its argument where it leaves its
result. -/
theorem runs_expand {a : Action Reg Operand} {code : List BlockInstr}
    (hcode : (f.flat order).drop pc = a.expand.map .action ++ code) {s s' : Store Reg V W}
    {event : Option (Event V)}
    (ha : (a.mapRead Operand.regIndex).exec I fnName s = some (event, s')) :
    (codeMachine I fnName (f.resolvedCode order)).Runs a.expand.length ⟨pc, s⟩ event.toList
      ⟨(pc + a.expand.length : Nat), s'⟩ := by
  have hsingle : a.expand = [a] →
      (codeMachine I fnName (f.resolvedCode order)).Runs a.expand.length ⟨pc, s⟩
      event.toList ⟨(pc + a.expand.length : Nat), s'⟩ := by
    intro hx
    rw [hx] at hcode ⊢
    exact .single (codeStep_action (fetch_resolvedCode (of_drop_eq_cons hcode).1) ha)
  cases a with
  | call fn out arg =>
    by_cases harg : arg = .reg out
    · exact hsingle (if_pos harg)
    · have hx : (Action.call fn out arg).expand = [.move out arg, .call fn out (.reg out)] :=
        if_neg harg
      rw [hx] at hcode ⊢
      obtain ⟨h₁, hrest⟩ := of_drop_eq_cons hcode
      obtain ⟨h₂, -⟩ := of_drop_eq_cons hrest
      have hmove : (codeMachine I fnName (f.resolvedCode order)).step ⟨pc, s⟩ =
          .go none ⟨(pc + 1 : Nat), s.set out (s.mem arg.regIndex)⟩ :=
        codeStep_action (fetch_resolvedCode h₁) rfl
      have hcall : (codeMachine I fnName (f.resolvedCode order)).step
          ⟨(pc + 1 : Nat), s.set out (s.mem arg.regIndex)⟩ = .go event ⟨(pc + 2 : Nat), s'⟩ := by
        refine codeStep_action (fetch_resolvedCode h₂) ?_
        have hout : Operand.regIndex (.reg out) = out := rfl
        rw [← ha]
        simp [Action.exec, Action.mapRead, hout, Store.call, Store.set]
      exact .step hmove (.single hcall)
  | move out arg => exact hsingle rfl
  | unknown code => cases ha

/-- How many blocks of the order may still be entered without a step of the code. -/
def blocksAhead (order : List BlockId) (a : BlockState Reg V W) : Nat :=
  order.length - order.idxOf a.point.block

/-- The code answers the steps of the blocks. -/
theorem Layable.answers_code (h : f.Layable order) (hn : order.Nodup) (a : BlockState Reg V W)
    (c : CodeState Reg V W) (hlaid : Laid f order a c)
    (hsafe : (blockMachine I fnName f.listing).step a ≠ .stuck) :
    (blockMachine I fnName f.listing).Answers (codeMachine I fnName (f.resolvedCode order))
      (Laid f order) (blocksAhead order) a c := by
  obtain ⟨q, s⟩ := a
  obtain ⟨_, t⟩ := c
  obtain ⟨hstore, pc, rfl, hw⟩ := hlaid
  obtain rfl : t = s := hstore
  cases ha : (f.block q.block).body[q.index]? with
  | some x =>
    have hlist : (f.listing q.block).body[q.index]? = some (x.mapRead Operand.regIndex) := by
      rw [getElem?_listing, ha, Option.map_some]
    obtain ⟨⟨code, hcode⟩, hnext⟩ := hw.action ha
    cases hx : (x.mapRead Operand.regIndex).exec I fnName t with
    | none => exact absurd (by simp only [blockMachine, blockStep, hlist, hx]) hsafe
    | some r =>
      obtain ⟨event, s'⟩ := r
      have hpos : 0 < x.expand.length := by
        cases x with
        | call fn out arg => simp only [Action.expand]; split <;> simp
        | _ => exact Nat.one_pos
      rw [Answers, blockStep_action hlist hx]
      exact ⟨_, _, runs_expand I fnName hcode hx, ⟨rfl, _, rfl, hnext⟩, .inl hpos⟩
  | none =>
    obtain ⟨e, he, hleads⟩ := h.exit q.block hw.mem_order
    have hstep := step_listing_exit I fnName ha he t
    rcases hw.exit ha he hn with hfetch | ⟨u, rfl, hwu, hlt, hu⟩
    · have hfetch' := fetch_resolvedCode hfetch
      have hfollow : (((e.mapRead Operand.regIndex).mapLabel fun l =>
          (((offset? (f.chunks order) l).getD 0 : Nat) : Int)).follow I t.mem) =
          ((e.mapRead Operand.regIndex).follow I t.mem).map fun l =>
            (((offset? (f.chunks order) l).getD 0 : Nat) : Int) := Exit.follow_mapLabel _
      cases hl : (e.mapRead Operand.regIndex).follow I t.mem with
      | none =>
        rw [hl] at hfollow
        exact answers_of_halt (by rw [hstep, leaveBlock, hl]) (codeStep_halt hfetch' hfollow) rfl
      | some l =>
        obtain ⟨u, hu, rfl⟩ :=
          hleads l (Exit.labels_mapRead Operand.regIndex e ▸ Exit.follow_mem_labels hl)
        rw [hl] at hfollow
        exact answers_of_step (by rw [hstep, leaveBlock, hl]) (codeStep_jump hfetch' hfollow)
          ⟨rfl, _, rfl, writtenAt_offset hu⟩
    · rw [Answers, hstep]
      refine ⟨0, _, .refl _, ⟨rfl, pc, rfl, hwu⟩, .inr ?_⟩
      exact Nat.sub_lt_sub_left (Nat.lt_trans hlt (List.idxOf_lt_length_iff.mpr hu)) hlt

/-- Where the blocks are stuck, at an action that no machine knows, the code is stuck. -/
theorem Layable.stuck_code (h : f.Layable order) (a : BlockState Reg V W) (c : CodeState Reg V W)
    (hlaid : Laid f order a c) (hstuck : (blockMachine I fnName f.listing).step a = .stuck) :
    (codeMachine I fnName (f.resolvedCode order)).step c = .stuck := by
  obtain ⟨q, s⟩ := a
  obtain ⟨_, t⟩ := c
  obtain ⟨hstore, pc, rfl, hw⟩ := hlaid
  cases ha : (f.block q.block).body[q.index]? with
  | some x =>
    have hlist : (f.listing q.block).body[q.index]? = some (x.mapRead Operand.regIndex) := by
      rw [getElem?_listing, ha, Option.map_some]
    cases x with
    | unknown n =>
      obtain ⟨⟨code, hcode⟩, -⟩ := hw.action ha
      have hfetch := fetch_resolvedCode (of_drop_eq_cons hcode).1
      simp only [codeMachine, codeStep, hfetch]
      rfl
    | move out arg => cases (blockStep_action hlist rfl).symm.trans hstuck
    | call fn out arg => cases (blockStep_action hlist rfl).symm.trans hstuck
  | none =>
    obtain ⟨e, he, hleads⟩ := h.exit q.block hw.mem_order
    rw [step_listing_exit I fnName ha he, leaveBlock] at hstuck
    cases hl : (e.mapRead Operand.regIndex).follow I s.mem with
    | none => rw [hl] at hstuck; cases hstuck
    | some l =>
      obtain ⟨u, hu, rfl⟩ :=
        hleads l (Exit.labels_mapRead Operand.regIndex e ▸ Exit.follow_mem_labels hl)
      rw [hl] at hstuck
      cases hstuck

/-- At the start both are at the entry. -/
theorem laid_entry (f f' : Routine) (s : Store Reg V W) :
    Laid f f'.graph.order ⟨{ block := entry, index := 0 }, s⟩ ⟨0, s⟩ := by
  obtain ⟨rest, hrest⟩ : ∃ rest, f'.graph.order = entry :: rest := FlowGraph.head_ofTable_order _
  rw [hrest]
  exact ⟨rfl, 0, rfl, writtenAt_zero⟩

/-- The code follows the blocks. -/
theorem Layable.follows_code (h : f.Layable order) (hn : order.Nodup) :
    (blockMachine I fnName f.listing).Follows (codeMachine I fnName (f.resolvedCode order))
      (fun a c => Laid f order a c ∧ (blockMachine I fnName f.listing).Safe a)
        (blocksAhead order) :=
  follows_of_safe (h.answers_code I fnName hn)

end

end Routine

/-! ## Other names for registers -/

section

variable {ρ V W : Type} (I : Interp V W) (fnName : FuncId → String)
  {code : List (Instr Reg Reg Int)} {g : Reg → ρ}

/-- The code with other names for registers. -/
def renamedCode (g : Reg → ρ) (code : List (Instr Reg Reg Int)) : List (Instr ρ ρ Int) :=
  code.map fun x => (x.mapRead g).mapWrite g

/-- Both are at one offset, and the registers of the code have the same values. -/
structure Renamed (g : Reg → ρ) (code : List (Instr Reg Reg Int)) (a : CodeState Reg V W)
    (c : CodeState ρ V W) : Prop where
  pc : c.pc = a.pc
  world : c.store.world = a.store.world
  mem : ∀ r ∈ code.flatMap Routine.operands, c.store.mem (g r) = a.store.mem r

theorem fetch_renamedCode (pc : Int) :
    fetch (renamedCode g code) pc = (fetch code pc).map fun x => (x.mapRead g).mapWrite g := by
  cases pc with
  | ofNat i => exact List.getElem?_map
  | negSucc i => rfl

theorem mem_operands {pc : Int} {x : Instr Reg Reg Int} (h : fetch code pc = some x) {r : Reg}
    (hr : r ∈ Routine.operands x) : r ∈ code.flatMap Routine.operands := by
  cases pc with
  | ofNat i => exact List.mem_flatMap.mpr ⟨x, List.mem_of_getElem? h, hr⟩
  | negSucc i => cases h

/-- Where an exit leads depends on the value that it reads. -/
theorem Exit.follow_mapRead {mem : Reg → V} {mem' : ρ → V} {e : Exit Reg Int}
    (h : ∀ r, e.read? = some r → mem' (g r) = mem r) :
    (e.mapRead g).follow I mem' = e.follow I mem := by
  cases e with
  | branch c t u => simp only [Exit.mapRead, Exit.follow, h c rfl]
  | _ => rfl

/-- The renamed code answers the steps of the code. -/
theorem answers_renamed [DecidableEq ρ] (hinj : ∀ r ∈ code.flatMap Routine.operands,
      ∀ r' ∈ code.flatMap Routine.operands, g r = g r' → r = r') (a : CodeState Reg V W) (c :
      CodeState ρ V W)
    (hren : Renamed g code a c) (hsafe : (codeMachine I fnName code).step a ≠ .stuck) :
    (codeMachine I fnName code).Answers (codeMachine I fnName (renamedCode g code)) (Renamed g code)
      (fun _ => 0) a c := by
  obtain ⟨pc, s⟩ := a
  obtain ⟨pc', t⟩ := c
  obtain ⟨hpc, hworld, hmem⟩ := hren
  obtain rfl : pc' = pc := hpc
  cases hx : fetch code pc' with
  | none => exact absurd (by simp only [codeMachine, codeStep, hx]) hsafe
  | some x =>
    have hx' : fetch (renamedCode g code) pc' = some ((x.mapRead g).mapWrite g) := by
      rw [fetch_renamedCode, hx, Option.map_some]
    cases x with
    | action a =>
      obtain ⟨v, w, hv, hw⟩ : ∃ v w, a.read? = some v ∧ a.write? = some w := by
        cases a with
        | unknown n => exact absurd (by simp only [codeMachine, codeStep, hx, Action.exec]) hsafe
        | _ => exact ⟨_, _, rfl, rfl⟩
      have hren : (a.mapRead g).mapWrite g = (a.mapRead fun _ => g v).mapWrite fun _ => g w := by
        cases a <;> cases hv <;> cases hw <;> rfl
      have hwm : w ∈ code.flatMap Routine.operands :=
        mem_operands hx (by simp [Routine.operands, Instr.write?, hw])
      obtain ⟨event, value, world, hs, ht⟩ := Action.exec_rename (r := g w) I fnName hv hw
        (hmem v (mem_operands hx (by simp [Routine.operands, Instr.read?, hv]))) hworld
      refine answers_of_step (codeStep_action hx hs) (codeStep_action hx' (hren ▸ ht))
        ⟨rfl, rfl, fun r hr => ?_⟩
      exact update_renamed (hinj r hr w hwm) (hmem r hr) value
    | exit e =>
      have hfollow : (e.mapRead g).follow I t.mem = e.follow I s.mem :=
        Exit.follow_mapRead I fun r hr =>
          hmem r (mem_operands hx (by simp [Routine.operands, Instr.read?, hr]))
      cases hl : e.follow I s.mem with
      | none =>
        exact answers_of_halt (codeStep_halt hx hl) (codeStep_halt hx' (hfollow.trans hl)) hworld
      | some l =>
        exact answers_of_step (codeStep_jump hx hl) (codeStep_jump hx' (hfollow.trans hl))
          ⟨rfl, hworld, hmem⟩

/-- Where the code is stuck, the renamed code is stuck. -/
theorem stuck_renamed [DecidableEq ρ] (a : CodeState Reg V W) (c : CodeState ρ V W)
    (hren : Renamed g code a c) (hstuck : (codeMachine I fnName code).step a = .stuck) :
    (codeMachine I fnName (renamedCode g code)).step c = .stuck := by
  obtain ⟨pc, s⟩ := a
  obtain ⟨pc', t⟩ := c
  obtain rfl : pc' = pc := hren.pc
  have hfetch : fetch (renamedCode g code) pc' = (fetch code pc').map fun x =>
      (x.mapRead g).mapWrite g :=
    fetch_renamedCode pc'
  cases hx : fetch code pc' with
  | none =>
    rw [hx, Option.map_none] at hfetch
    simp only [codeMachine, codeStep, hfetch]
  | some x =>
    rw [hx, Option.map_some] at hfetch
    cases x with
    | action a =>
      cases a with
      | unknown n => simp only [codeMachine, codeStep, hfetch]; rfl
      | move out arg => cases (codeStep_action hx rfl).symm.trans hstuck
      | call fn out arg => cases (codeStep_action hx rfl).symm.trans hstuck
    | exit e =>
      cases hl : e.follow I s.mem with
      | none => cases (codeStep_halt hx hl).symm.trans hstuck
      | some l => cases (codeStep_jump hx hl).symm.trans hstuck

/-- The renamed code follows the code. -/
theorem follows_renamed [DecidableEq ρ] (hinj : ∀ r ∈ code.flatMap Routine.operands,
      ∀ r' ∈ code.flatMap Routine.operands, g r = g r' → r = r') :
    (codeMachine I fnName code).Follows (codeMachine I fnName (renamedCode g code))
      (fun a c => Renamed g code a c ∧ (codeMachine I fnName code).Safe a) fun _ => 0 :=
  follows_of_safe (answers_renamed I fnName hinj)

end

namespace Routine

/-- The place of a register in the code. -/
def placeIn (F : Routine) (order : List BlockId) : Reg → Register :=
  F.place (F.locals (F.resolvedCode order))

/-- Registers of the code have different places, if those of arguments have different slots. -/
theorem place_inj {f : Routine}
    (hslot : ∀ r r' i, f.slot? r = some i → f.slot? r' = some i → r = r')
    (code : List (Instr Reg Reg Int)) : ∀ r ∈ code.flatMap operands, ∀ r' ∈ code.flatMap operands,
      f.place (f.locals code) r = f.place (f.locals code) r' → r = r' := by
  intro r hr r' _ he
  obtain ⟨x, hx, hr⟩ := List.mem_flatMap.mp hr
  unfold place at he
  cases hs : f.slot? r with
  | some i =>
    cases hs' : f.slot? r' with
    | some j =>
      simp only [hs, hs', Register.arg.injEq, Int.natCast_inj] at he
      exact hslot r r' i hs (he ▸ hs')
    | none => simp only [hs, hs', reduceCtorEq] at he
  | none =>
    cases hs' : f.slot? r' with
    | some j => simp only [hs, hs', reduceCtorEq] at he
    | none =>
      simp only [hs, hs', Register.frame.injEq, Int.natCast_inj] at he
      exact (List.idxOf_inj (mem_locals hx hr hs)).mp he

end Routine

/-! ## The code of a settled routine -/

namespace Settled

variable {f f₂ F : Routine} {n : Needs} {slots : List Slot} {into : BlockId → Var → Option Reg}
  (h : Settled f n slots into f₂ F) {V W : Type}

include h

/-- The code in machine registers behaves as the blocks, if each register starts with what its place
holds. -/
theorem same_placedCode (I : Interp V W) (fnName : FuncId → String) {mem : Reg → V}
    {regs : Register → V} {world : W}
    (hmem : ∀ r, mem r = regs (F.place (F.locals (F.resolvedCode f₂.graph.order)) r))
    (hsafe : (blockMachine I fnName F.listing).Safe ⟨{ block := entry, index := 0 },
      ⟨mem, world⟩⟩) :
    (blockMachine I fnName F.listing).Same ⟨{ block := entry, index := 0 }, ⟨mem, world⟩⟩
      (codeMachine I fnName (F.placedCode f₂.graph.order)) ⟨0, ⟨regs, world⟩⟩ := by
  have hcode :=
    (h.layable.follows_code I fnName (Routine.nodup_order f₂)).same
      ⟨Routine.laid_entry F f₂ _, hsafe⟩
  have hrenamed :
      Renamed (F.place (F.locals (F.resolvedCode f₂.graph.order))) (F.resolvedCode f₂.graph.order)
      ⟨0, ⟨mem, world⟩⟩ ⟨0, ⟨regs, world⟩⟩ := ⟨rfl, rfl, fun r _ => (hmem r).symm⟩
  have hinj := Routine.place_inj (fun _ _ _ => h.slot_inj) (F.resolvedCode f₂.graph.order)
  exact hcode.trans ((follows_renamed I fnName hinj).same ⟨hrenamed, hcode.safe.2⟩)

end Settled

end ProcCompiler
