import ProcCompiler.Proofs.Lowering.Stages
import ProcCompiler.Proofs.Renaming.Layout
import ProcCompiler.Proofs.Semantics.Layout
/-!
# The layout refines the blocks

A routine whose blocks are complete and know their operands is laid out, whether or not lowering
made it. Its code is run beside its blocks. After any number of steps of the blocks the code is at
the offset of the point that they are at: the offset of the block, and what was written for the
actions before the point. A block that only goes on to the next has the offset of the next. The code
has the registers of the blocks, each at its place, and no two at one.

* `WrittenAt.pc_eq`: a point has one offset.
* `Layable.mem_operands_iff`: the registers of the code.
* `layout_refines`: the code passes through the states of the blocks, and halts or gets stuck when
  they do.
-/
namespace ProcCompiler

open Machine

namespace Routine

variable {f : Routine} {order : List BlockId} {q : Point} {pc : Nat}

/-! ## The offset of a point -/

/-- The offset of a point: that of its block, and what is written for the actions before it. -/
def pointOffset? (f : Routine) (order : List BlockId) (q : Point) : Option Nat :=
  (offset? (f.chunks order) (q.block : Label)).map
    (· + (((f.block q.block).body.take q.index).flatMap Action.expand).length)

/-- What is to come at a point is written at its offset. -/
theorem writtenAt_pointOffset (hq : q.block ∈ order) :
    ∃ n, f.pointOffset? order q = some n ∧ f.WrittenAt order q n := by
  obtain ⟨start, hstart⟩ := Option.isSome_iff_exists.mp (offset?_isSome (f := f) hq)
  obtain ⟨done, rest, hord, hcode⟩ := writtenAt_offset (f := f) hq
  refine ⟨_, by rw [pointOffset?, hstart, Option.map_some], done, rest, hord, ?_⟩
  rw [hstart, Option.getD_some, List.drop_zero,
    ← List.take_append_drop q.index (f.block q.block).body, List.flatMap_append, List.map_append,
    List.append_assoc] at hcode
  rw [← List.drop_drop, hcode, List.drop_left' (List.length_map _)]

/-- Something is always to come. -/
theorem WrittenAt.lt_length (hw : f.WrittenAt order q pc) (h : f.Layable order) :
    pc < (f.flat order).length := by
  obtain ⟨done, rest, rfl, hcode⟩ := hw
  obtain ⟨e, he, -⟩ := h.exit q.block (by simp)
  have hne : (f.block q.block).emitExit rest.head? ++ f.flat rest ≠ [] := by
    rcases Block.emitExit_cases he rest.head? with hexit | ⟨t, ht, -, -⟩
    · simp [hexit]
    · have hrest : rest ≠ [] := by rintro rfl; cases ht
      obtain ⟨code, e', hflat⟩ := flat_ends rest hrest fun b hb =>
        let ⟨e, he, _⟩ := h.exit b (by simp [hb])
        ⟨e, he⟩
      simp [hflat]
  by_contra hle
  rw [List.drop_eq_nil_of_le (Nat.le_of_not_lt hle)] at hcode
  exact hne (List.append_eq_nil_iff.mp hcode.symm).2

/-- A point has one offset. -/
theorem WrittenAt.pc_eq (hw : f.WrittenAt order q pc) (h : f.Layable order) (hn : order.Nodup) :
    f.pointOffset? order q = some pc := by
  obtain ⟨n, hoff, hw'⟩ := writtenAt_pointOffset (f := f) hw.mem_order
  have hlt := hw.lt_length h
  have hlt' := hw'.lt_length h
  obtain ⟨done, rest, hord, hcode⟩ := hw
  obtain ⟨done', rest', hord', hcode'⟩ := hw'
  obtain ⟨-, hb, hdisj⟩ := List.nodup_append.mp (hord ▸ hn)
  have hdone : q.block ∉ done := fun hm => hdisj _ hm _ (by simp) rfl
  obtain ⟨-, -, rfl⟩ :=
    (List.append_cons_inj_of_notMem hdone (List.nodup_cons.mp hb).1).mp (hord.symm.trans hord')
  have hlen := congrArg List.length (hcode.trans hcode'.symm)
  rw [List.length_drop, List.length_drop] at hlen
  rw [hoff]
  congr 1
  omega

/-! ## The registers of the code -/

/-- Some part of an action writes what the action writes. -/
theorem exists_expand_write {a : Action Reg Operand} {r : Reg} (hr : a.write? = some r) :
    ∃ c ∈ a.expand, c.write? = some r := by
  cases a with
  | call fn out arg =>
    simp only [Action.expand]
    split
    · exact ⟨_, List.mem_singleton.mpr rfl, hr⟩
    · exact ⟨_, List.mem_cons_self, hr⟩
  | move out arg => exact ⟨_, List.mem_singleton.mpr rfl, hr⟩
  | unknown code => cases hr

/-- What an instruction of a block mentions, some instruction of the code mentions. -/
theorem exists_flat_mentions {b : BlockId} (hb : b ∈ order) {x : BlockInstr}
    (hx : x ∈ (f.block b).code) {r : Reg} (hr : x.Mentions r) :
    ∃ y ∈ f.flat order, y.Mentions r := by
  have hpart : ∀ a ∈ (f.block b).body, ∀ c ∈ a.expand, .action c ∈ f.flat order := fun a ha c hc =>
    mem_flat_of_emit hb fun next =>
      List.mem_append_left _ (List.mem_map_of_mem (List.mem_flatMap.mpr ⟨a, ha, hc⟩))
  rcases List.mem_append.mp hx with hx | hx
  · obtain ⟨a, ha, rfl⟩ := List.mem_map.mp hx
    rcases hr with hw | hr
    · obtain ⟨c, hc, hcw⟩ := exists_expand_write hw
      exact ⟨_, hpart a ha c hc, .inl hcw⟩
    · obtain ⟨o, ho, hor⟩ := Option.bind_eq_some_iff.mp hr
      obtain ⟨c, hc, hco⟩ := exists_expand_read ho
      exact ⟨_, hpart a ha c hc, .inr (Option.bind_eq_some_iff.mpr ⟨o, hco, hor⟩)⟩
  · obtain ⟨e, he, rfl⟩ := List.mem_map.mp hx
    rcases hr with hw | hr
    · cases hw
    · obtain ⟨o, ho, hor⟩ := Option.bind_eq_some_iff.mp hr
      exact ⟨_, mem_flat_of_emit hb (mem_emit_exit (Option.mem_toList.mp he) ho), .inr hr⟩

/-- The code has the registers that the blocks use. -/
theorem Layable.mem_operands_iff (h : f.Layable order) {r : Reg} :
    r ∈ (f.resolvedCode order).flatMap operands ↔ f.Uses order r := by
  refine ⟨h.uses_of_operand, fun ⟨b, hb, x, hx, hr⟩ => ?_⟩
  obtain ⟨y, hy, hr⟩ := exists_flat_mentions hb hx hr
  exact List.mem_flatMap.mpr ⟨_, List.mem_map_of_mem hy, ((h.writable hy).mem_operands _).mpr hr⟩

/-- Registers that stand for slots are at their slots, the others among so many locals, and no two
at one place. -/
structure Placed (f : Routine) (order : List BlockId) (locals : Nat) : Prop where
  arg : ∀ r (i : Nat), f.slot? r = some i → f.placeIn order r = .arg i
  frame : ∀ r, f.Uses order r → f.slot? r = none → ∃ i : Nat, i < locals ∧
    f.placeIn order r = .frame i
  inj : Set.InjOn (f.placeIn order) {r | f.Uses order r}

theorem Layable.placed (h : f.Layable order)
    (hslot : ∀ r r' i, f.slot? r = some i → f.slot? r' = some i → r = r') :
    f.Placed order (f.locals (f.resolvedCode order)).length where
  arg r i hi := by rw [placeIn, place, hi]
  frame r hr hi := by
    obtain ⟨x, hx, hrx⟩ := List.mem_flatMap.mp (h.mem_operands_iff.mpr hr)
    refine ⟨_, List.idxOf_lt_length_iff.mpr (mem_locals hx hrx hi), ?_⟩
    rw [placeIn, place, hi]
  inj r hr r' hr' := place_inj hslot _ r (h.mem_operands_iff.mpr hr) r' (h.mem_operands_iff.mpr hr')

/-- Whatever the registers hold can be put at their places. -/
theorem Placed.exists_regs {locals : Nat} (h : f.Placed order locals) {V : Type} (mem : Reg → V) :
    ∃ regs : Register → V, ∀ r, f.Uses order r → regs (f.placeIn order r) = mem r :=
  ⟨fun p => mem (Function.invFunOn (f.placeIn order) {r | f.Uses order r} p), fun _ hr =>
    congrArg mem (h.inj.leftInvOn_invFunOn hr)⟩

/-! ## The code beside the blocks -/

/-- A routine that was analyzed can be laid out if its blocks are complete and know their
operands. -/
theorem layable_of_analyze {g : FlowGraph} (hg : f.analyze = .ok g)
    (hcomplete : ∀ b < f.blocks.size, (f.block b).isComplete)
    (hknown : ∀ b ∈ g.order, (f.block b).Known) :
    f.Layable g.order where
  known := hknown
  exit b hb := by
    have hc := closed_of_analyze hg
    rw [eq_graph_of_analyze hg] at hb ⊢
    obtain ⟨e, he⟩ := Option.isSome_iff_exists.mp (hcomplete b (hc.lt_of_mem_order hb))
    refine ⟨e, he, fun l hl => ?_⟩
    obtain ⟨t, rfl, -, ht, -⟩ := hc.exists_succ hb (by rwa [leads, he])
    exact ⟨t, ht, rfl⟩

section

variable {V W : Type}

/-- The code is at the offset of the point, in the same world, and each register that the blocks use
has its value at its place. -/
structure Corresponds (f : Routine) (order : List BlockId) (a : BlockState Reg V W)
    (c : CodeState Register V W) :
    Prop where
  pc : ∃ n : Nat, f.pointOffset? order a.point = some n ∧ c.pc = n
  mem : ∀ r, f.Uses order r → c.store.mem (f.placeIn order r) = a.store.mem r
  world : c.store.world = a.store.world

/-- The code in registers stands between the blocks and the code in machine registers. -/
theorem Laid.corresponds (h : f.Layable order) (hn : order.Nodup) {a : BlockState Reg V W}
    {c : CodeState Reg V W} {d : CodeState Register V W} (hlaid : Laid f order a c)
    (hren : Renamed (f.placeIn order) (f.resolvedCode order) c d) : Corresponds f order a d where
  pc := by
    obtain ⟨n, hpc, hw⟩ := hlaid.written
    exact ⟨n, hw.pc_eq h hn, hren.pc.trans hpc⟩
  mem r hr := by rw [hren.mem r (h.mem_operands_iff.mpr hr), hlaid.store]
  world := by rw [hren.world, hlaid.store]

end

end Routine

open Routine

/-- A routine that was analyzed, with complete blocks that know their operands and no two registers
for one slot, is laid out. Whatever foreign functions do and whatever the registers hold at the
start, put at their places, the code passes through a state for each state of the blocks, with the
same events. It halts exactly when the blocks halt, and is stuck, at an action that no machine
knows, exactly when they are. -/
theorem layout_refines {f : Routine} {g : FlowGraph} (hg : f.analyze = .ok g)
    (hcomplete : ∀ b < f.blocks.size, (f.block b).isComplete)
    (hknown : ∀ b ∈ g.order, (f.block b).Known)
    (hslot : ∀ r r' i, f.slot? r = some i → f.slot? r' = some i → r = r') :
    ∃ code locals, f.layout g = .ok (code, locals) ∧ f.Placed g.order locals ∧
      ∀ (V W : Type) (I : Interp V W) (fnName : FuncId → String) (mem : Reg → V) (world : W),
        (∃ regs : Register → V, ∀ r, f.Uses g.order r → regs (f.placeIn g.order r) = mem r) ∧
        ∀ regs : Register → V, (∀ r, f.Uses g.order r → regs (f.placeIn g.order r) = mem r) →
          (∀ k es a, (blockMachine I fnName f.listing).Runs k ⟨{ block := entry, index := 0 },
            ⟨mem, world⟩⟩ es a →
            ∃ m c, (codeMachine I fnName code).Runs m ⟨0, ⟨regs, world⟩⟩ es c ∧
            f.Corresponds g.order a c) ∧
          (blockMachine I fnName f.listing).Agrees ⟨{ block := entry, index := 0 }, ⟨mem, world⟩⟩
            (codeMachine I fnName code) ⟨0, ⟨regs, world⟩⟩ := by
  have h := layable_of_analyze hg hcomplete hknown
  have hplaced := h.placed hslot
  refine ⟨_, _, h.layout_eq, hplaced,
    fun V W I fnName mem world => ⟨hplaced.exists_regs mem, fun regs hregs => ?_⟩⟩
  have hn : g.order.Nodup := eq_graph_of_analyze hg ▸ nodup_order f
  have hlaid : f.Laid g.order ⟨{ block := entry, index := 0 }, ⟨mem, world⟩⟩ ⟨0, ⟨mem, world⟩⟩ :=
    eq_graph_of_analyze hg ▸ Routine.laid_entry f f _
  have hren : Renamed (f.placeIn g.order) (f.resolvedCode g.order) ⟨0, ⟨mem, world⟩⟩
      ⟨0, ⟨regs, world⟩⟩ :=
    ⟨rfl, rfl, fun r hr => hregs r (h.mem_operands_iff.mp hr)⟩
  have hcode := follows_relaxed (h.answers_code I fnName hn) (h.stuck_code I fnName)
  have hplace :=
    follows_relaxed (answers_renamed I fnName (place_inj hslot (f.resolvedCode g.order)))
    (stuck_renamed I fnName)
  refine ⟨fun k es a hk => ?_, (hcode.agrees hlaid).trans (hplace.agrees hren)⟩
  obtain ⟨m, c, hm, hlaid'⟩ := hcode.runs_relaxed hlaid hk
  obtain ⟨m', d, hm', hren'⟩ := hplace.runs_relaxed hren hm
  exact ⟨m', d, hm', hlaid'.corresponds h hn hren'⟩

/-- A loop that asks until it is told to stop. Two blocks before its body and one after it only go
on to the next; the loop goes back to one of them. -/
def relayRoutine : Routine where
  name := "relay"
  blocks := #[{ exit := some (.jump 1) }, { exit := some (.jump 2) },
    { body := [.call 0 1 (.reg 0), .move 0 (.reg 1)], exit := some (.branch (.reg 1) 3 1) },
    { exit := some (.jump 4) }, { exit := some .ret }]
  regs := #[{ var := 0, slot := some 0 }, { var := 0 }]
  vars := #["x"]
  route := 1

/-- Every call takes one from its argument, and 0 counts as true. -/
def countdown : Interp Nat Nat where
  apply _ v w := (v - 1, w + 1)
  holds v := v = 0

/-- The first three blocks have one offset, and so have the last two. The code asks twice and halts,
as the blocks do. -/
theorem layout_refines_relay : ∃ g code locals, relayRoutine.analyze = .ok g ∧
    (∀ b < relayRoutine.blocks.size, (relayRoutine.block b).isComplete) ∧
    (∀ b ∈ g.order, (relayRoutine.block b).Known) ∧
    (∀ r r' i, relayRoutine.slot? r = some i → relayRoutine.slot? r' = some i → r = r') ∧
    relayRoutine.layout g = .ok (code, locals) ∧
    code = [.action (.move (.frame 0) (.arg 0)), .action (.call 0 (.frame 0) (.frame 0)),
      .action (.move (.arg 0) (.frame 0)), .exit (.branch (.frame 0) 4 0), .exit .ret] ∧
    [0, 1, 2, 3, 4].map (fun b => relayRoutine.pointOffset? g.order { block := b, index := 0 }) =
      [some 0, some 0, some 0, some 4, some 4] ∧
    (codeMachine countdown (fun _ => "ask") code).Halts
      ⟨0, ⟨fun r => if r = .arg 0 then 2 else 99, 5⟩⟩
      [{ fn := "ask", value := 2 }, { fn := "ask", value := 1 }] 7 := by
  have hg : relayRoutine.analyze = .ok relayRoutine.graph := by decide +kernel
  have hcomplete : ∀ b < relayRoutine.blocks.size, (relayRoutine.block b).isComplete := by decide
  have hknown : ∀ b ∈ relayRoutine.graph.order, (relayRoutine.block b).Known := by
    have hall : ∀ b ∈ relayRoutine.graph.order,
      (∀ a ∈ (relayRoutine.block b).body, ∀ o ∈ a.read?, o.known?.isSome) ∧
        ∀ e ∈ (relayRoutine.block b).exit, ∀ o ∈ e.read?, o.known?.isSome := by decide +kernel
    exact fun b hb => ⟨(hall b hb).1, (hall b hb).2⟩
  have hslot : ∀ r i, relayRoutine.slot? r = some i → r = 0 := by
    intro r i hi
    rcases r with (_ | _ | n) | n
    · rfl
    all_goals cases hi
  have hinj : ∀ r r' i, relayRoutine.slot? r = some i → relayRoutine.slot? r' = some i → r = r' :=
    fun r r' i hr hr' => (hslot r i hr).trans (hslot r' i hr').symm
  obtain ⟨code, locals, hlayout, -, h⟩ := layout_refines hg hcomplete hknown hinj
  have hregs : ∀ b ∈ relayRoutine.graph.order, ∀ x ∈ (relayRoutine.block b).code,
      ∀ r ∈ x.write?.toList ++ (x.read?.bind Operand.known?).toList,
        (if relayRoutine.placeIn relayRoutine.graph.order r = .arg 0 then 2 else 99) = if r =
          0 then 2 else 99 := by
    decide +kernel
  have hcode : (relayRoutine.layout relayRoutine.graph).toOption.map Prod.fst =
      some [.action (.move (.frame 0) (.arg 0)), .action (.call 0 (.frame 0) (.frame 0)),
        .action (.move (.arg 0) (.frame 0)), .exit (.branch (.frame 0) 4 0), .exit .ret] := by
          decide +kernel
  rw [hlayout] at hcode
  have hrun := (h Nat Nat countdown (fun _ => "ask") (fun r => if r = 0 then 2 else 99) 5).2
    (fun r => if r = .arg 0 then 2 else 99) fun r ⟨b, hb, x, hx, hr⟩ =>
      hregs b hb x hx r (List.mem_append.mpr (hr.imp Option.mem_toList.mpr Option.mem_toList.mpr))
  refine ⟨_, code, locals, hg, hcomplete, hknown, hinj, hlayout,
    Option.some.inj hcode, by decide +kernel, ?_⟩
  exact (hrun.2.halts _ _).mp ⟨10, _, run_eq_some_iff.mp rfl, rfl, rfl⟩

end ProcCompiler
