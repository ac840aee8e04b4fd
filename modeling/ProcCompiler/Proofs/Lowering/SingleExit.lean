import ProcCompiler.Lowering.SingleExit
import ProcCompiler.Proofs.Graph.Analyze
import ProcCompiler.Proofs.Graph.Needs
/-!
# The routine with a single exit

`addExit` appends one block and changes the exits of reached blocks that return. The new block waits
for nothing, so what the blocks need stays as it was.

* `block_addExit`: every block after the change.
* `Closed.addExit`: the routine stays closed.
* `needed_addExit`: the needs are the same.
-/
namespace ProcCompiler

namespace Block

@[simp] theorem params_redirectReturn (x : BlockId) (b : Block) :
    (b.redirectReturn x).params = b.params := by
  unfold redirectReturn; split <;> rfl

@[simp] theorem body_redirectReturn (x : BlockId) (b : Block) :
    (b.redirectReturn x).body = b.body := by
  unfold redirectReturn; split <;> rfl

@[simp] theorem bindings_redirectReturn (x : BlockId) (b : Block) :
    (b.redirectReturn x).bindings = b.bindings := by
  unfold redirectReturn; split <;> rfl

@[simp] theorem binding?_redirectReturn (x : BlockId) (b : Block) (v : Var) :
    (b.redirectReturn x).binding? v = b.binding? v := by
  simp [binding?]

theorem exit_redirectReturn_ret {x : BlockId} {b : Block} (h : b.exit = some .ret) :
    (b.redirectReturn x).exit = some (.jump x) := by
  unfold redirectReturn; rw [h]

theorem redirectReturn_of_ne {x : BlockId} {b : Block} (h : b.exit ≠ some .ret) :
    b.redirectReturn x = b := by
  unfold redirectReturn
  split
  · exact absurd ‹_› h
  · rfl

theorem redirectReturn_redirectReturn (x : BlockId) (b : Block) :
    (b.redirectReturn x).redirectReturn x = b.redirectReturn x := by
  by_cases h : b.exit = some .ret
  · apply redirectReturn_of_ne
    rw [exit_redirectReturn_ret h]
    simp
  · rw [redirectReturn_of_ne h, redirectReturn_of_ne h]

end Block

namespace Routine

/-- The routine before the exit block is appended. -/
def redirectReturns (f : Routine) (x : BlockId) (bs : List BlockId) : Routine :=
  bs.foldl (fun f b => f.modifyBlock b (·.redirectReturn x)) f

theorem redirectReturns_spec (f : Routine) (x : BlockId) (bs : List BlockId) :
    (f.redirectReturns x bs).blocks.size = f.blocks.size ∧
    (f.redirectReturns x bs).name = f.name ∧ (f.redirectReturns x bs).vars = f.vars ∧
    (f.redirectReturns x bs).regs = f.regs ∧ (f.redirectReturns x bs).route = f.route ∧
    ∀ b < f.blocks.size, (f.redirectReturns x bs).block b =
      if b ∈ bs then (f.block b).redirectReturn x else f.block b := by
  unfold redirectReturns
  refine foldl_inv _ (fun done (g : Routine) => g.blocks.size = f.blocks.size ∧ g.name = f.name ∧
    g.vars = f.vars ∧ g.regs = f.regs ∧ g.route = f.route ∧ ∀ b < f.blocks.size, g.block b =
      if b ∈ done then (f.block b).redirectReturn x else f.block b) _ _ ?_ ?_
  · simp
  · rintro done a rest g - ⟨hs, h1, h2, h3, h4, hb⟩
    refine ⟨by simpa using hs, h1, h2, h3, h4, fun b hlt => ?_⟩
    by_cases he : b = a
    · subst he
      have hin : b ∈ done ++ [b] := by simp
      rw [block_modifyBlock_self (hs ▸ hlt), hb b hlt, if_pos hin]
      by_cases hd : b ∈ done
      · rw [if_pos hd]
        exact Block.redirectReturn_redirectReturn x _
      · rw [if_neg hd]
    · rw [block_modifyBlock_ne (Ne.symm he), hb b hlt]
      simp [he]

theorem addExit_fst (f : Routine) (g : FlowGraph) :
    (f.addExit g).1 = (f.redirectReturns f.blocks.size g.order).pushBlock { exit := some .ret } :=
  rfl

@[simp] theorem addExit_snd (f : Routine) (g : FlowGraph) : (f.addExit g).2 = f.blocks.size := rfl

variable (f : Routine) (g : FlowGraph)

@[simp] theorem size_addExit : (f.addExit g).1.blocks.size = f.blocks.size + 1 := by
  rw [addExit_fst, size_pushBlock, (redirectReturns_spec f _ _).1]

@[simp] theorem name_addExit : (f.addExit g).1.name = f.name := (redirectReturns_spec f _ _).2.1

@[simp] theorem vars_addExit : (f.addExit g).1.vars = f.vars := (redirectReturns_spec f _ _).2.2.1

@[simp] theorem regs_addExit : (f.addExit g).1.regs = f.regs := (redirectReturns_spec f _ _).2.2.2.1

@[simp] theorem route_addExit : (f.addExit g).1.route = f.route :=
  (redirectReturns_spec f _ _).2.2.2.2.1

variable {f g}

/-- The blocks of the routine with a single exit. -/
theorem block_addExit {b : BlockId} (hb : b < f.blocks.size) :
    (f.addExit g).1.block b = if b ∈ g.order then (f.block b).redirectReturn f.blocks.size
      else f.block b := by
  have hs := (redirectReturns_spec f f.blocks.size g.order).1
  rw [addExit_fst, block_pushBlock_ne (by rw [hs]; exact Nat.ne_of_lt hb)]
  exact (redirectReturns_spec f _ _).2.2.2.2.2 b hb

theorem block_addExit_exit : (f.addExit g).1.block f.blocks.size = { exit := some .ret } := by
  have hs := (redirectReturns_spec f f.blocks.size g.order).1
  have := block_pushBlock_self (f.redirectReturns f.blocks.size g.order) { exit := some .ret }
  rwa [hs] at this

theorem params_addExit {b : BlockId} (hb : b < f.blocks.size) :
    ((f.addExit g).1.block b).params = (f.block b).params := by
  rw [block_addExit hb]; split <;> simp

theorem binding?_addExit {b : BlockId} (hb : b < f.blocks.size) (v : Var) :
    ((f.addExit g).1.block b).binding? v = (f.block b).binding? v := by
  rw [block_addExit hb]; split <;> simp

/-! ## Where the blocks lead -/

/-- A reached block that returns leads to the new block, and no other block does. -/
theorem leads_addExit {b : BlockId} (hb : b < f.blocks.size) :
    (f.addExit g).1.leads b =
      if b ∈ g.order ∧ (f.block b).exit = some .ret then [(f.blocks.size : Label)]
        else f.leads b := by
  unfold leads
  rw [block_addExit hb]
  by_cases ho : b ∈ g.order
  · rw [if_pos ho]
    by_cases hr : (f.block b).exit = some .ret
    · rw [if_pos ⟨ho, hr⟩, Block.exit_redirectReturn_ret hr]
      rfl
    · rw [if_neg (fun h => hr h.2), Block.redirectReturn_of_ne hr, route_addExit]
  · rw [if_neg ho, if_neg (fun h => ho h.1), route_addExit]

theorem leads_addExit_exit : (f.addExit g).1.leads f.blocks.size = [] := by
  unfold leads
  rw [block_addExit_exit]
  rfl

theorem isComplete_addExit {b : BlockId} (hb : b < f.blocks.size) :
    ((f.addExit g).1.block b).isComplete = (f.block b).isComplete := by
  rw [block_addExit hb]
  split
  · by_cases hr : (f.block b).exit = some .ret
    · simp [Block.isComplete, Block.exit_redirectReturn_ret hr, hr]
    · rw [Block.redirectReturn_of_ne hr]
  · rfl

theorem Closed.addExit (hf : f.Closed) : (f.addExit f.graph).1.Closed where
  body := by have := hf.body; simp; omega
  complete b hb he := by
    rw [size_addExit] at hb
    rcases Nat.lt_succ_iff_lt_or_eq.mp hb with hb | rfl
    · rw [isComplete_addExit hb]
      exact hf.complete b hb he
    · rw [block_addExit_exit]; rfl
  target b hb l hl := by
    rw [size_addExit] at hb ⊢
    rcases Nat.lt_succ_iff_lt_or_eq.mp hb with hb | rfl
    · rw [leads_addExit hb] at hl
      split at hl
      · have := hf.body
        refine ⟨f.blocks.size, by simpa using hl, ?_, Nat.lt_succ_self _⟩
        exact Nat.ne_of_gt (Nat.lt_of_lt_of_le Nat.zero_lt_two this)
      · obtain ⟨t, rfl, hne, hlt⟩ := hf.target b hb l hl
        exact ⟨t, rfl, hne, Nat.lt_succ_of_lt hlt⟩
    · rw [leads_addExit_exit] at hl
      cases hl

/-! ## What the blocks need -/

/-- Between old blocks there are the same jumps. -/
theorem Closed.mem_succs_addExit (hf : f.Closed) {b c : BlockId} (hc : c < f.blocks.size) :
    c ∈ (f.addExit f.graph).1.graph.succs b ↔ c ∈ f.graph.succs b := by
  rw [hf.addExit.mem_succs, hf.mem_succs, size_addExit]
  constructor
  · rintro ⟨hb, hl⟩
    rcases Nat.lt_succ_iff_lt_or_eq.mp hb with hb | rfl
    · rw [leads_addExit hb] at hl
      split at hl
      · have : c = f.blocks.size := Int.ofNat.inj (List.mem_singleton.mp hl)
        exact absurd this (Nat.ne_of_lt hc)
      · exact ⟨hb, hl⟩
    · rw [leads_addExit_exit] at hl
      cases hl
  · rintro ⟨hb, hl⟩
    refine ⟨Nat.lt_succ_of_lt hb, ?_⟩
    rw [leads_addExit hb, if_neg]
    · exact hl
    · rintro ⟨-, hr⟩
      simp [leads, hr, Exit.labels] at hl

theorem Closed.mem_order_addExit (hf : f.Closed) {b : BlockId} (hb : b < f.blocks.size) :
    b ∈ (f.addExit f.graph).1.graph.order ↔ b ∈ f.graph.order := by
  rw [hf.addExit.mem_order, hf.mem_order]
  constructor
  · intro h
    induction h with
    | entry => exact .entry
    | @step a c ha hac ih =>
      have hlt := (hf.addExit.mem_succs.mp hac).1
      rw [size_addExit] at hlt
      rcases Nat.lt_succ_iff_lt_or_eq.mp hlt with hlt | rfl
      · exact .step (ih hlt) ((hf.mem_succs_addExit hb).mp hac)
      · exact absurd ((hf.mem_succs_addExit hb).mp hac)
          (by rw [succs_graph_out (Nat.le_refl _)]; simp)
  · intro h
    induction h with
    | entry => exact .entry
    | step ha hac ih =>
      exact .step (ih (hf.mem_succs.mp hac).1) ((hf.mem_succs_addExit hb).mpr hac)

/-- A single exit changes no need. -/
theorem Closed.needed_addExit (hf : f.Closed) {b : BlockId} {v : Var} :
    Needed (f.addExit f.graph).1 (f.addExit f.graph).1.graph b v ↔ Needed f f.graph b v := by
  constructor
  · intro h
    induction h with
    | @param b v hb hv =>
      have hlt := hf.addExit.lt_of_mem_order hb
      rw [size_addExit] at hlt
      rcases Nat.lt_succ_iff_lt_or_eq.mp hlt with hlt | rfl
      · rw [params_addExit hlt] at hv
        exact .param ((hf.mem_order_addExit hlt).mp hb) hv
      · rw [block_addExit_exit] at hv
        cases hv
    | @back p b v hp hfree _ ih =>
      obtain ⟨hpo, hpb⟩ := FlowGraph.mem_preds.mp hp
      rw [hf.mem_succs_addExit (hf.lt_of_mem_order ih.mem_order)] at hpb
      have hlt := (hf.mem_succs.mp hpb).1
      rw [binding?_addExit hlt] at hfree
      exact .back (FlowGraph.mem_preds.mpr ⟨(hf.mem_order_addExit hlt).mp hpo, hpb⟩) hfree ih
  · intro h
    induction h with
    | @param b v hb hv =>
      have hlt := hf.lt_of_mem_order hb
      exact .param ((hf.mem_order_addExit hlt).mpr hb) (by rwa [params_addExit hlt])
    | @back p b v hp hfree hn ih =>
      obtain ⟨hpo, hpb⟩ := FlowGraph.mem_preds.mp hp
      have hlt := hf.lt_of_mem_order hpo
      refine .back (FlowGraph.mem_preds.mpr ⟨(hf.mem_order_addExit hlt).mpr hpo, ?_⟩)
        (by rwa [binding?_addExit hlt]) ih
      exact (hf.mem_succs_addExit (hf.lt_of_mem_order hn.mem_order)).mpr hpb

end Routine

end ProcCompiler
