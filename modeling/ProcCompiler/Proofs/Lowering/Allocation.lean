import ProcCompiler.Proofs.Lowering.Subdivision
import ProcCompiler.Proofs.Renaming.Invariance
/-!
# Lowering names only registers that were made

A register that arrives in a block is the only one that the block did not have before. The split of
joins hands out registers that it makes itself. So if the reached blocks of a routine name registers
of the routine only, they still do when the exit is added and the joins are split.

* `Block.registers_receive`, `Block.registers_receiveAll`: the registers of a block after arrivals.
* `Routine.Closed.allocated_addExit`, `SplitOf.allocated`: the passes up to the arguments.
-/
namespace ProcCompiler

open Routine

/-- A settled operand reads what it read before, or what it waited for. -/
theorem Operand.known?_settle {i : Nat} {r s : Reg} {o : Operand}
    (h : (o.settle i r).known? = some s) :
    o.known? = some s ∨ s = r := by
  cases o with
  | reg x => exact .inl h
  | stray k => exact .inl h
  | param j =>
    right
    simp only [settle] at h
    split at h
    · cases h
    · split at h
      · exact (Option.some.inj h).symm
      · cases h

namespace Block

theorem code_mapRead (b : Block) (φ : Operand → Operand) :
    (b.mapRead φ).code = b.code.map (.mapRead φ) := by
  simp only [code, mapRead, List.map_append, List.map_map]
  cases b.exit <;> rfl

/-- A filled block mentions what it mentioned before and what arrived. -/
theorem mentions_fill {b : Block} {v : Var} {r s : Reg} {x : Instr Reg Operand Label}
    (hx : x ∈ (b.fill v r).code) (hs : x.Mentions s) : (∃ y ∈ b.code, y.Mentions s) ∨ s = r := by
  unfold fill at hx
  split at hx
  · rename_i i _
    have hx : x ∈ (b.mapRead (.settle i r)).code := hx
    rw [code_mapRead, List.mem_map] at hx
    obtain ⟨y, hy, rfl⟩ := hx
    rcases hs with hs | hs
    · rw [Instr.write?_mapRead] at hs
      exact .inl ⟨y, hy, .inl hs⟩
    · rw [Instr.read?_mapRead] at hs
      obtain ⟨o', ho', hs⟩ := Option.bind_eq_some_iff.mp hs
      obtain ⟨o, ho, rfl⟩ := Option.map_eq_some_iff.mp ho'
      refine (Operand.known?_settle hs).imp (fun hown => ⟨y, hy, .inr ?_⟩) id
      rw [ho]
      exact hown
  · exact .inl ⟨x, hx, hs⟩

theorem registers_receive {b : Block} {v : Var} {r s : Reg} (h : s ∈ (b.receive v r).registers) :
    s ∈ b.registers ∨ s = r := by
  rcases mem_registers.mp h with ⟨x, hx, hs⟩ | ⟨w, hw⟩
  · exact (mentions_fill (b := b) (v := v) (r := r) hx hs).imp
      (fun hown => mem_registers.mpr (.inl hown)) id
  · rw [binding?_receive, Option.or_eq_some_iff] at hw
    refine hw.imp (fun hown => mem_registers.mpr (.inr ⟨w, hown⟩)) fun ⟨_, hs⟩ => ?_
    by_cases hwv : w = v
    · subst hwv
      rw [Function.update_self] at hs
      exact (Option.some.inj hs).symm
    · rw [Function.update_of_ne hwv] at hs
      cases hs

theorem registers_receiveAll {s : Reg} : ∀ (arrivals : List (Var × Reg)) {b : Block},
    s ∈ (b.receiveAll arrivals).registers → s ∈ b.registers ∨ ∃ v, (v, s) ∈ arrivals
  | [], _, h => .inl h
  | (v, r) :: arrivals, b, h => by
    rcases registers_receiveAll arrivals (b := b.receive v r) h with h | ⟨w, hw⟩
    · rcases registers_receive h with h | rfl
      · exact .inl h
      · exact .inr ⟨v, List.mem_cons_self⟩
    · exact .inr ⟨w, List.mem_cons_of_mem _ hw⟩

end Block

/-- The new exit names no register. -/
theorem Routine.Closed.allocated_addExit {f : Routine} (hf : f.Closed) (ha : f.Allocated) :
    (f.addExit f.graph).1.Allocated := by
  intro b hb r hr
  rw [regs_addExit]
  have ho := hf.addExit.mem_order.mpr hb
  have hlt := hf.addExit.lt_of_mem_order ho
  rw [size_addExit] at hlt
  rcases Nat.lt_succ_iff_lt_or_eq.mp hlt with hlt | rfl
  · have ho := (hf.mem_order_addExit hlt).mp ho
    rw [block_addExit hlt, if_pos ho] at hr
    exact ha b (hf.mem_order.mp ho) r (Block.registers_redirectReturn hr)
  · rw [block_addExit_exit] at hr
    simp [Block.registers, Block.code, Instr.write?, Instr.read?, Exit.read?] at hr

namespace SplitOf

variable {f f₂ : Routine} {n : Needs} (h : SplitOf f n f₂)

include h

/-- A shared register is one of the routine. -/
theorem shared_lt {t : BlockId} (ht : f.graph.IsJoin n t) {v : Var} (hv : v ∈ n.of t) :
    0 ≤ f.shared n t v ∧ f.shared n t v < f₂.regs.size := by
  obtain ⟨k, hk, -, hinfo⟩ := h.shared_spec ht hv
  rw [hk]
  exact ⟨Int.natCast_nonneg k, Int.ofNat_lt.mpr (Array.getElem?_eq_some_iff.mp hinfo).1⟩

theorem regs_size_le : f.regs.size ≤ f₂.regs.size := by
  rw [h.split.regs_size]
  exact Nat.le_add_right _ _

/-- The split names registers of the routine and those that it makes. -/
theorem allocated (ha : f.Allocated) : f₂.Allocated := by
  have hold : ∀ b ∈ f.graph.order, ∀ r ∈ ((f.block b).mapLabel (f.viaLabel n b)).registers,
      0 ≤ r ∧ r < f₂.regs.size := by
    intro b hb r hr
    obtain ⟨h0, hlt⟩ := ha b (h.closed.mem_order.mp hb) r (Block.registers_mapLabel hr)
    exact ⟨h0, Int.lt_of_lt_of_le hlt (Int.ofNat_le.mpr h.regs_size_le)⟩
  intro b hb r hr
  have ho := h.closed'.mem_order.mpr hb
  rcases h.old_or_edge (h.closed'.lt_of_mem_order ho) with hlt | ⟨e, he, rfl⟩
  · have ho := (h.mem_order_old hlt).mp ho
    by_cases hj : f.graph.IsJoin n b
    · rw [h.block_join hj] at hr
      rcases Block.registers_receiveAll _ hr with hr | ⟨v, hv⟩
      · exact hold b ho r hr
      · rw [← List.map_prod_left_eq_zip] at hv
        obtain ⟨w, hw, hwv⟩ := List.mem_map.mp hv
        cases hwv
        exact h.shared_lt hj hw
    · rw [h.block_other hlt hj] at hr
      exact hold b ho r hr
  · rw [h.block_edge he] at hr
    obtain ⟨v, hv, rfl⟩ := Block.registers_edgeBlock (Needs.nodup_of (nodup_sites h.needs) _) hr
    exact h.shared_lt (h.mem_edges.mp he).1 hv

end SplitOf

theorem allocated_loopRoutine : loopRoutine.Allocated := by
  have horder : loopRoutine.graph.order = [0, 1, 2] := by decide +kernel
  have hall : ∀ b ∈ [0, 1, 2], ∀ r ∈ (loopRoutine.block b).registers, 0 ≤ r ∧
      r < loopRoutine.regs.size := by
    decide +kernel
  exact fun b hb => hall b (horder ▸ wellFormed_loopRoutine.closed.mem_order.mpr hb)

end ProcCompiler
