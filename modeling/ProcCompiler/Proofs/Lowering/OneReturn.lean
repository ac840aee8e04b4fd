import ProcCompiler.Proofs.Routine.Session
import ProcCompiler.Proofs.Semantics.Layout
/-!
# One return

Lowering sends every return that is reached to one new block. No pass after that makes or removes a
return: a split edge ends in a jump, arguments and deliveries leave exits alone, and the layout
writes an exit once for each block. So the code returns in one place at most, which is where the new
block is written. The blocks that are not reached are out of sight of every pass.

* `countP_isReturn_placedCode`: the code returns as often as the blocks do.
* `Closed.exit_mem_order`: the new block is reached if some return was.
* `block_deliverAll`: delivery leaves a block without needs alone.
* `Stages.returns_iff`, `Stages.block_exit`, `Stages.block_unreached`: the blocks of the final
  routine.
* `lower_one_return`: the code of a lowered routine.
-/
namespace ProcCompiler

open Routine

/-! ## Returns in code -/

namespace Instr

variable {ω ω' ρ ρ' ℓ ℓ' : Type}

/-- Does the instruction return? -/
def isReturn : Instr ω ρ ℓ → Bool
  | .exit .ret => true
  | _ => false

@[simp] theorem isReturn_mapRead (φ : ρ → ρ') (x : Instr ω ρ ℓ) :
    (x.mapRead φ).isReturn = x.isReturn := by
  rcases x with _ | (_ | _ | _) <;> rfl

@[simp] theorem isReturn_mapWrite (φ : ω → ω') (x : Instr ω ρ ℓ) :
    (x.mapWrite φ).isReturn = x.isReturn := by
  rcases x with _ | (_ | _ | _) <;> rfl

@[simp] theorem isReturn_mapLabel (φ : ℓ → ℓ') (x : Instr ω ρ ℓ) :
    (x.mapLabel φ).isReturn = x.isReturn := by
  rcases x with _ | (_ | _ | _) <;> rfl

end Instr

/-- A block is written with one return if it returns, and with none otherwise. -/
theorem Block.countP_isReturn_emit (b : Block) (next : Option BlockId) :
    (b.emit next).countP Instr.isReturn = if b.exit = some .ret then 1 else 0 := by
  have hbody :
      ((b.body.flatMap Action.expand).map (.action : _ → BlockInstr)).countP Instr.isReturn =
        0 := by
    rw [List.countP_map, List.countP_eq_zero]
    exact fun _ _ => Bool.false_ne_true
  rw [emit, List.countP_append, hbody, Nat.zero_add]
  unfold emitExit
  cases b.exit with
  | none => rfl
  | some e =>
    cases e with
    | jump l =>
      simp only
      split <;> rfl
    | branch c t u => rfl
    | ret => rfl

namespace Routine

theorem countP_isReturn_flat (f : Routine) : ∀ order : List BlockId,
    (f.flat order).countP Instr.isReturn = order.countP fun b => (f.block b).exit = some .ret
  | [] => rfl
  | b :: order => by
    rw [flat_cons, List.countP_append, Block.countP_isReturn_emit, countP_isReturn_flat f order,
      List.countP_cons]
    simp only [decide_eq_true_eq]
    exact Nat.add_comm _ _

/-- The code returns as often as the blocks do. -/
theorem countP_isReturn_placedCode (f : Routine) (order : List BlockId) :
    (f.placedCode order).countP Instr.isReturn = order.countP fun b => (f.block b).exit =
      some .ret := by
  rw [← countP_isReturn_flat, placedCode, resolvedCode, List.countP_map, List.countP_map]
  refine List.countP_congr fun x _ => ?_
  simp [Instr.resolved]

/-! ## The new block -/

/-- Only a return leads nowhere. -/
theorem exit_eq_ret_iff {b : Block} : b.exit = some .ret ↔ b.exitLabels = some [] := by
  unfold Block.exitLabels
  cases b.exit with
  | none => simp
  | some e =>
    cases e with
    | jump l => simp [Exit.labels]
    | branch c t u =>
      simp only [Option.map_some, Exit.labels]
      split <;> simp
    | ret => simp [Exit.labels]

namespace Closed

variable {f : Routine} (hf : f.Closed)

include hf

/-- The new block is the only one that is reached and leads nowhere. -/
theorem leads_addExit_eq_nil {b : BlockId} (hb : b ∈ (f.addExit f.graph).1.graph.order)
    (hl : (f.addExit f.graph).1.leads b = []) : b = f.blocks.size := by
  have hlt := hf.addExit.lt_of_mem_order hb
  rw [size_addExit] at hlt
  rcases Nat.lt_succ_iff_lt_or_eq.mp hlt with hlt | rfl
  · rw [leads_addExit hlt] at hl
    split at hl
    · cases hl
    · rename_i hne
      refine absurd ⟨(hf.mem_order_addExit hlt).mp hb, ?_⟩ hne
      unfold leads at hl
      split at hl
      · rename_i e he
        rw [exit_eq_ret_iff, Block.exitLabels, he, Option.map_some, hl]
      · cases hl
  · rfl

/-- The new block is reached if and only if a block that returned was. -/
theorem exit_mem_order : f.blocks.size ∈ (f.addExit f.graph).1.graph.order ↔
    ∃ b, f.graph.Reach b ∧ (f.block b).exit = some .ret := by
  have hx := hf.addExit
  constructor
  · intro ho
    have hne : f.blocks.size ≠ entry := Nat.ne_of_gt (Nat.lt_of_lt_of_le Nat.zero_lt_two hf.body)
    obtain ⟨p, hp⟩ := hx.exists_pred ho hne
    obtain ⟨hpo, hs⟩ := FlowGraph.mem_preds.mp hp
    obtain ⟨hplt, hl⟩ := hx.mem_succs.mp hs
    rw [size_addExit] at hplt
    rcases Nat.lt_succ_iff_lt_or_eq.mp hplt with hplt | rfl
    · rw [leads_addExit hplt] at hl
      split at hl
      · rename_i hret
        exact ⟨p, hf.mem_order.mp hret.1, hret.2⟩
      · obtain ⟨t, ht, -, hlt⟩ := hf.target p hplt _ hl
        exact absurd hlt (Nat.not_lt.mpr (Nat.le_of_eq (Int.ofNat.inj ht)))
    · rw [leads_addExit_exit] at hl
      cases hl
  · rintro ⟨b, hb, hret⟩
    have hbo := hf.mem_order.mpr hb
    have hlt := hf.lt_of_mem_order hbo
    refine hx.succ_mem_order ((hf.mem_order_addExit hlt).mpr hbo) (hx.mem_succs.mpr ⟨?_, ?_⟩)
    · rw [size_addExit]
      exact Nat.lt_succ_of_lt hlt
    · rw [leads_addExit hlt, if_pos ⟨hbo, hret⟩]
      exact List.mem_singleton.mpr rfl

end Closed

/-! ## Blocks that nothing comes to -/

/-- A block that waits for nothing and leads nowhere needs nothing. -/
theorem not_needed_of_idle {f : Routine} {g : FlowGraph} {b : BlockId}
    (hp : (f.block b).params = []) (hs : g.succs b = []) {v : Var} : ¬ Needed f g b v := by
  intro h
  cases h with
  | param _ hv => rw [hp] at hv; cases hv
  | back hb _ _ =>
    have hmem := (FlowGraph.mem_preds.mp hb).2
    rw [hs] at hmem
    cases hmem

/-- Delivery leaves a block that needs nothing alone. -/
theorem block_deliverAll {f F : Routine} {g : FlowGraph} (h : f.deliverAll g = .ok F) {b : BlockId}
    (hb : ∀ v, ¬ Needed f g b v) : F.block b = f.block b := by
  obtain ⟨n, t, hn, ht, rfl, -⟩ := deliverAll_cases h
  refine (Transit.run_preserves (P := fun u => (∀ s ∈ u.waiting, s.block ≠ b) ∧
    u.routine.block b = f.block b)
    (Q := fun _ => True) (fun u d dest hu _ _ hw => ?_) (fun _ _ _ _ => trivial)
    (fun _ _ _ hu _ => hu) ht
    ⟨fun s hs => ?_, rfl⟩).2
  · refine ⟨fun s hs => hu.1 s (Std.ExtTreeSet.mem_of_mem_erase hs), ?_⟩
    show (u.routine.modifyBlock dest _).block b = _
    rw [block_modifyBlock_ne (hu.1 _ hw)]
    exact hu.2
  · rintro rfl
    have hs : s ∈ n.sites := by simpa [Transit.start] using hs
    exact hb s.var ((mem_of_iff hn).mp (Needs.mem_of.mpr hs))

end Routine

/-- Without a split edge that starts in the block, the jumps of a block stay. -/
theorem reroute_eq_id {base : Nat} {es : List Edge} {b : BlockId} (h : ∀ e ∈ es, e.source ≠ b) :
    reroute base es b = id := by
  funext l
  have hnone : splitIndex? es b l = none := by
    rw [splitIndex?, List.findIdx?_eq_none_iff]
    exact fun e he => decide_eq_false fun hl => h e he hl.1
  unfold reroute
  rw [hnone]
  rfl

/-- A block that is not reached stays as it is when joins are split. -/
theorem SplitOf.block_unreached {f f' : Routine} {n : Needs} (h : SplitOf f n f') {b : BlockId}
    (hb : b < f.blocks.size) (ho : b ∉ f.graph.order) : f'.block b = f.block b := by
  have hid : f.viaLabel n b = id := reroute_eq_id fun e he hsource =>
    ho (hsource ▸ (FlowGraph.mem_preds.mp (h.mem_edges.mp he).2).1)
  rw [h.block_other hb fun hj => ho (h.isJoin_mem_order hj), hid, Block.mapLabel_id]

/-! ## The final routine -/

namespace Stages

variable {f F : Routine} {slots : List Slot} {l : Lowered} (s : Stages f slots F l)

include s

theorem closed_built : f.Closed := closed_of_analyze s.analyze_built

theorem built_eq : s.built = f.graph := eq_graph_of_analyze s.analyze_built

theorem exit_eq : l.exit = f.blocks.size := (congrArg Prod.snd s.addExit_eq).symm

theorem single_eq_addExit : s.single = (f.addExit f.graph).1 := by rw [s.single_eq, s.built_eq]

theorem exit_lt : l.exit < s.single.blocks.size := by
  rw [s.single_eq_addExit, size_addExit, s.exit_eq]
  exact Nat.lt_succ_self _

theorem mem_graph_order {b : BlockId} : b ∈ s.graph.order ↔ s.graph.Reach b := by
  rw [s.graph_eq]
  exact s.splitOf.closed'.mem_order

theorem mem_order_old {b : BlockId} (hb : b < s.single.blocks.size) :
    b ∈ s.graph.order ↔ b ∈ (f.addExit f.graph).1.graph.order := by
  rw [s.graph_eq, s.splitOf.mem_order_old hb, s.single_eq_addExit]

/-- The new block is reached if and only if a block that returned was. -/
theorem exit_mem_order_iff :
    l.exit ∈ s.graph.order ↔ ∃ b, s.built.Reach b ∧ (f.block b).exit = some .ret := by
  rw [s.mem_order_old s.exit_lt, s.exit_eq, s.closed_built.exit_mem_order, s.built_eq]

theorem leads_exit : s.split.leads l.exit = [] := by
  rw [s.splitOf.leads_old s.exit_lt, s.single_eq_addExit, s.exit_eq, leads_addExit_exit,
    List.map_nil]

/-- The new block is the only one that is reached and returns. -/
theorem returns_iff {b : BlockId} (hb : b ∈ s.graph.order) :
    (F.block b).exit = some .ret ↔ b = l.exit := by
  have hlt := s.splitOf.closed'.lt_of_mem_order (s.graph_eq ▸ hb)
  rw [exit_eq_ret_iff, s.exitLabels_final hlt, Option.some.injEq]
  refine ⟨fun hl => ?_, fun he => he ▸ s.leads_exit⟩
  rcases s.splitOf.old_or_edge hlt with hold | ⟨e, he, rfl⟩
  · rw [s.splitOf.leads_old hold, List.map_eq_nil_iff, s.single_eq_addExit] at hl
    exact (s.closed_built.leads_addExit_eq_nil ((s.mem_order_old hold).mp hb) hl).trans
      s.exit_eq.symm
  · rw [s.splitOf.leads_edge he] at hl
    cases hl

/-- The new block holds a return and nothing else. -/
theorem block_exit : F.block l.exit = { exit := some .ret } := by
  have hsingle : s.single.block l.exit = { exit := some .ret } := by
    rw [s.single_eq_addExit, s.exit_eq, block_addExit_exit]
  have hneeds : s.needs.of l.exit = [] := by
    refine List.eq_nil_iff_forall_not_mem.mpr fun v hv => ?_
    rw [mem_of_iff s.splitOf.needs] at hv
    refine not_needed_of_idle (by rw [hsingle]) ?_ hv
    rw [succs_graph s.exit_lt, s.single_eq_addExit, s.exit_eq, leads_addExit_exit, List.map_nil]
  have hne : l.exit ≠ entry := by
    rw [s.exit_eq]
    exact Nat.ne_of_gt (Nat.lt_of_lt_of_le Nat.zero_lt_two s.closed_built.body)
  have hbound : s.bound.block l.exit = { exit := some .ret } := by
    rw [s.admits.other _ hne, s.splitOf.block_other s.exit_lt fun hj => hj.2 hneeds, hsingle]
    rfl
  rw [block_deliverAll s.deliverAll_eq, hbound]
  refine fun v => not_needed_of_idle (by rw [hbound]) ?_
  rw [s.graph_eq, succs_graph (s.splitOf.old_lt s.exit_lt), s.leads_exit, List.map_nil]

/-- A block that is not reached stays as it is. -/
theorem block_unreached {b : BlockId} (hb : b < f.blocks.size) (hr : ¬ s.built.Reach b) :
    F.block b = f.block b := by
  rw [s.built_eq, ← s.closed_built.mem_order] at hr
  have hlt : b < s.single.blocks.size := Nat.lt_trans hb (s.exit_eq ▸ s.exit_lt)
  have ho : b ∉ s.single.graph.order := by
    rw [s.single_eq_addExit]
    exact fun ho => hr ((s.closed_built.mem_order_addExit hb).mp ho)
  have hne : b ≠ entry := fun he => hr (he ▸ s.closed_built.entry_mem_order)
  have hneeds : ∀ v, ¬ Needed s.bound s.graph b v := fun v hv =>
    ho ((s.splitOf.mem_order_old hlt).mp (s.graph_eq ▸ hv.mem_order))
  rw [block_deliverAll s.deliverAll_eq hneeds, s.admits.other b hne,
    s.splitOf.block_unreached hlt ho, s.single_eq_addExit, block_addExit hb, if_neg hr]

/-- If the new block is reached, it is written as a return. -/
theorem getElem?_exit {pc : Nat} (ho : l.exit ∈ s.graph.order)
    (hpc : offset? (F.chunks s.graph.order) (l.exit : Label) = some pc) :
    l.code[pc]? = some (.exit .ret) := by
  have hat := writtenAt_offset (f := F) ho
  rw [hpc, Option.getD_some] at hat
  have hflat : (F.flat s.graph.order)[pc]? = some (.exit .ret) := by
    rcases hat.exit (by rw [s.block_exit]; rfl) (by rw [s.block_exit])
      (s.graph_eq ▸ nodup_order s.split) with
      hw | ⟨_, hjump, _⟩
    · exact hw
    · cases hjump
  rw [← s.layout_final.1, placedCode, resolvedCode, List.getElem?_map, List.getElem?_map, hflat]
  rfl

/-- The code returns once if the new block is reached, and otherwise never. -/
theorem countP_isReturn : l.code.countP Instr.isReturn = if l.exit ∈ s.graph.order then 1
    else 0 := by
  have hcount : s.graph.order.countP (fun b => (F.block b).exit = some .ret) =
      s.graph.order.count l.exit :=
    List.countP_congr fun b hb => by simpa using s.returns_iff hb
  rw [← s.layout_final.1, countP_isReturn_placedCode, hcount, s.graph_eq]
  exact (nodup_order s.split).count

end Stages

/-- Whenever lowering gives code, the code returns in one place at most, and in one if and only if a
block that was reached returned. The return is then the code of the exit, which holds nothing else.
In the final routine no other block that is reached returns, and a block that was not reached is as
it was. -/
theorem lower_one_return {f F : Routine} {slots : List Slot} {l : Lowered}
    (h : f.lower slots = .ok (F, .ok l)) :
    ∃ g₀ g, f.analyze = .ok g₀ ∧ F.analyze = .ok g ∧ l.code.countP Instr.isReturn ≤ 1 ∧
      (l.code.countP Instr.isReturn = 1 ↔ ∃ b, g₀.Reach b ∧ (f.block b).exit = some .ret) ∧
      ((∃ b, g₀.Reach b ∧ (f.block b).exit = some .ret) → g.Reach l.exit ∧
        F.block l.exit = { exit := some .ret } ∧
        ∃ pc, offset? (F.chunks g.order) (l.exit : Label) = some pc ∧
        l.code[pc]? = some (.exit .ret)) ∧
      (∀ b, g.Reach b → (F.block b).exit = some .ret → b = l.exit) ∧
      ∀ b < f.blocks.size, ¬ g₀.Reach b → F.block b = f.block b := by
  obtain ⟨s⟩ := exists_stages h
  have hcount := s.countP_isReturn
  refine ⟨s.built, s.graph, s.analyze_built, s.analyze_final, ?_, ?_, fun hret => ?_,
    fun b hb he => (s.returns_iff (s.mem_graph_order.mpr hb)).mp he,
    fun b hb hr => s.block_unreached hb hr⟩
  · rw [hcount]
    split <;> omega
  · rw [hcount, ← s.exit_mem_order_iff]
    split <;> simp [*]
  · have ho := s.exit_mem_order_iff.mpr hret
    refine ⟨s.mem_graph_order.mp ho, s.block_exit, ?_⟩
    obtain ⟨pc, hpc⟩ := Option.isSome_iff_exists.mp (offset?_isSome (f := F) ho)
    exact ⟨pc, hpc, s.getElem?_exit ho hpc⟩

/-- Block 1 goes to block 2 or 3, and both return. Nothing leads to block 4, which returns too. -/
def doorsRoutine : Routine := (Session.run { routine := .new "doors" }
  [.newVar "c", .createBlock, .createBlock, .createBlock, .createBlock, .read 1 0,
    .add 1 (.exit (.branch (.param 0) 2 3)), .add 2 (.exit .ret), .add 3 (.exit .ret), .add 4
    (.exit .ret)]).routine

theorem lower_one_return_doors : ∃ F l g₀ g, doorsRoutine.lower loopSlots = .ok (F, .ok l) ∧
    doorsRoutine.analyze = .ok g₀ ∧ F.analyze = .ok g ∧ g₀.Reach 2 ∧ g₀.Reach 3 ∧ ¬ g₀.Reach 4 ∧
    l.code.countP Instr.isReturn = 1 ∧ g.Reach l.exit ∧ F.block l.exit = { exit := some .ret } ∧
    (F.block 2).exit ≠ some .ret ∧ (F.block 4).exit = some .ret := by
  obtain ⟨F, l, h, hl⟩ :=
    exists_lowered doorsRoutine loopSlots (fun F l => (F.block 2).exit ≠ some .ret) (by
    decide +kernel)
  obtain ⟨g₀, g, h₀, hg, -, hone, hexit, -, hkept⟩ := lower_one_return h
  obtain rfl := eq_graph_of_analyze h₀
  have hreach := fun b : BlockId => (closed_of_analyze h₀).mem_order (b := b)
  have h2 : doorsRoutine.graph.Reach 2 := (hreach 2).mp (by decide +kernel)
  have h3 : doorsRoutine.graph.Reach 3 := (hreach 3).mp (by decide +kernel)
  have h4 : ¬ doorsRoutine.graph.Reach 4 := fun hr => absurd ((hreach 4).mpr hr) (by decide +kernel)
  have hret : ∃ b, doorsRoutine.graph.Reach b ∧ (doorsRoutine.block b).exit = some .ret :=
    ⟨2, h2, by decide +kernel⟩
  obtain ⟨hr, hblock, -⟩ := hexit hret
  refine ⟨F, l, _, g, h, h₀, hg, h2, h3, h4, hone.mpr hret, hr, hblock, of_decide_eq_true hl, ?_⟩
  rw [hkept 4 (by decide +kernel) h4]
  decide +kernel

end ProcCompiler
