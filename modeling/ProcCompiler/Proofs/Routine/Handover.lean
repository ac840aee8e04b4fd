import ProcCompiler.Proofs.Block.Arrivals
import ProcCompiler.Proofs.Routine.Session
/-!
# What predecessors hand over

A parameter of a block is filled twice over: at joins when they are split, elsewhere by delivery. In
the routine that lowering ends with, both come to the same. Whatever block waited for a variable at
some stage, all its predecessors bind the variable to one register, the reads that waited are reads
of that register, and the block passes it on unless it binds the variable itself.

* `Block.SameCode`: blocks that differ only in where they jump.
* `Stages.exists_settled`: the stages of a ready routine are those of a settled one.
* `Stages.exists_filled`: a block that waited at some stage was filled with what came into it.
* `lower_hands_over`: the register that all predecessors hand over.
-/
namespace ProcCompiler

open Routine

/-! ## Blocks that differ in their jumps -/

namespace Block

/-- The blocks differ in where they jump, if at all. -/
structure SameCode (b b' : Block) : Prop where
  params : b'.params = b.params
  operand : ∀ i, b'.operandAt? i = b.operandAt? i
  binding : ∀ v, b'.binding? v = b.binding? v

theorem SameCode.refl (b : Block) : SameCode b b := ⟨rfl, fun _ => rfl, fun _ => rfl⟩

theorem SameCode.trans {b b' b'' : Block} (h : SameCode b b') (h' : SameCode b' b'') :
    SameCode b b'' :=
  ⟨h'.params.trans h.params, fun i => (h'.operand i).trans (h.operand i),
    fun v => (h'.binding v).trans (h.binding v)⟩

/-- An exit that reads the same makes no difference. -/
theorem operandAt?_of_exit {b b' : Block} (hbody : b'.body = b.body)
    (hexit : b'.exit.map Exit.read? = b.exit.map Exit.read?) (i : Nat) :
    b'.operandAt? i = b.operandAt? i := by
  have hreads : ∀ c : Block, c.operandAt? i =
      ((c.body.map Action.read? ++ (c.exit.map Exit.read?).toList)[i]?).join := by
    intro c
    have hmap : c.code.map Instr.read? = c.body.map Action.read? ++
        (c.exit.map Exit.read?).toList := by
      unfold code
      rw [List.map_append, List.map_map, List.map_map]
      cases c.exit <;> rfl
    rw [← hmap, List.getElem?_map, operandAt?]
    cases c.code[i]? <;> rfl
  rw [hreads, hreads, hbody, hexit]

theorem sameCode_mapLabel (b : Block) (ρ : Label → Label) : SameCode b (b.mapLabel ρ) := by
  refine ⟨rfl, operandAt?_of_exit rfl ?_, fun _ => rfl⟩
  show (b.exit.map (·.mapLabel ρ)).map Exit.read? = _
  cases b.exit with
  | none => rfl
  | some e => cases e <;> rfl

theorem sameCode_redirectReturn (b : Block) (x : BlockId) : SameCode b (b.redirectReturn x) := by
  refine ⟨by simp, operandAt?_of_exit (by simp) ?_, by simp⟩
  by_cases hr : b.exit = some .ret
  · rw [exit_redirectReturn_ret hr, hr]; rfl
  · rw [redirectReturn_of_ne hr]

end Block

/-! ## The stages of a ready routine -/

/-- What a block needs comes in, whether the block reads it or passes it on. -/
theorem Staged.exists_arrival {f f₂ f₃ F : Routine} {n : Needs} {slots : List Slot}
    {into : BlockId → Var → Option Reg} (h : Staged f n slots f₂ f₃)
    (hd : Delivered f₃ f₂.graph into F) {b : BlockId} (h0 : b ≠ entry) {v : Var} (hv : v ∈ n.of b) :
    ∃ r, f.arrivals n into b v = some r := by
  unfold Routine.arrivals
  split
  · exact ⟨f.shared n b v, by rw [Routine.joinInto, if_pos hv]⟩
  · rename_i hj
    obtain ⟨r, hr⟩ := exists_arrives h.deliverable (h.served.needed_old (not_or.mpr ⟨h0, hj⟩) hv)
    exact ⟨r, (hd.arrives b v r).mpr hr⟩

namespace Stages

variable {f F : Routine} {slots : List Slot} {l : Lowered} (s : Stages f slots F l)

/-- The stages before delivery. -/
def undelivered : List Routine := [f, s.single, s.split, s.bound]

theorem staged (hf : f.Ready) : Staged s.single s.needs slots s.split s.bound := by
  have hsingle : s.single = (f.addExit f.graph).1 := by
    rw [s.single_eq, eq_graph_of_analyze s.analyze_built]
  rw [hsingle]
  exact hf.staged (hsingle ▸ s.splitOf) s.bindArguments_eq

/-- Delivery settled the routine, and brought each block what it needs. -/
theorem exists_settled (hf : f.Ready) : ∃ into, Settled s.single s.needs slots into s.split F ∧
    ∀ b, b ≠ entry → ∀ v ∈ s.needs.of b, ∃ r, into b v = some r := by
  have hstaged := s.staged hf
  obtain ⟨n, hn⟩ := hstaged.exists_needs
  obtain ⟨into, F', hd, hdelivered⟩ := deliverAll_spec hstaged.deliverable hn
  cases (s.graph_eq ▸ s.deliverAll_eq).symm.trans hd
  exact ⟨_, hstaged.settled hdelivered, fun b h0 v hv => hstaged.exists_arrival hdelivered h0 hv⟩

theorem sameCode_single {b : BlockId} (hb : b < f.blocks.size) :
    Block.SameCode (f.block b) (s.single.block b) := by
  rw [s.single_eq, block_addExit hb]
  split
  · exact Block.sameCode_redirectReturn _ _
  · exact .refl _

variable {into : BlockId → Var → Option Reg} (hs : Settled s.single s.needs slots into s.split F)

include hs

/-- A block that waited for something before the joins were split was filled with what came into
it. -/
theorem exists_filled_single {b : BlockId} (hb : b ∈ s.graph.order) (h0 : b ≠ entry) {v : Var}
    (hv : v ∈ (s.single.block b).params) :
    ∃ x, Block.SameCode (s.single.block b) x ∧ Block.Filled x (F.block b) (into b) := by
  rcases hs.kinds (s.graph_eq ▸ hb) with he | ⟨ho, -⟩ | ⟨e, -, rfl⟩
  · exact absurd he h0
  · exact ⟨_, Block.sameCode_mapLabel _ _, hs.old b ho h0⟩
  · rw [block_of_le (le_edgeId s.single s.needs e)] at hv
    cases hv

/-- The same for the routine as it was built. -/
theorem exists_filled_built {b : BlockId} (hb : b ∈ s.graph.order) (h0 : b ≠ entry) {v : Var}
    (hv : v ∈ (f.block b).params) :
    ∃ x, Block.SameCode (f.block b) x ∧ Block.Filled x (F.block b) (into b) := by
  have hlt : b < f.blocks.size := by
    by_contra hle
    rw [block_of_le (Nat.le_of_not_lt hle)] at hv
    cases hv
  have hsame := s.sameCode_single hlt
  obtain ⟨x, hx, hfilled⟩ := s.exists_filled_single hs hb h0 (hsame.params.symm ▸ hv)
  exact ⟨x, hsame.trans hx, hfilled⟩

/-- The same just before delivery: joins wait for nothing by then, and the blocks of edges are
there. -/
theorem exists_filled_bound (hf : f.Ready) {b : BlockId} (hb : b ∈ s.graph.order) (h0 : b ≠ entry)
    {v : Var} (hv : v ∈ (s.bound.block b).params) :
    Block.Filled (s.bound.block b) (F.block b) (into b) := by
  have hstaged := s.staged hf
  rcases hs.kinds (s.graph_eq ▸ hb) with he | ⟨ho, -⟩ | ⟨e, he, rfl⟩
  · exact absurd he h0
  · by_cases hj : s.single.graph.IsJoin s.needs b
    · rw [hstaged.block_join hj, hs.split.params_join hj (hs.ready.nodup b)] at hv
      cases hv
    · rw [hstaged.block_other (hs.split.closed.lt_of_mem_order ho) h0 hj]
      exact hs.old b ho h0
  · rw [hstaged.block_edge he]
    exact hs.edge e he

/-- A block that waited for something at some stage was filled with what came into it. -/
theorem exists_filled (hf : f.Ready) {e : Routine} (he : e ∈ s.undelivered) {b : BlockId}
    (hb : b ∈ s.graph.order) (h0 : b ≠ entry) {v : Var} (hv : v ∈ (e.block b).params) :
    ∃ x, Block.SameCode (e.block b) x ∧ Block.Filled x (F.block b) (into b) := by
  simp only [undelivered, List.mem_cons, List.not_mem_nil, or_false] at he
  rcases he with rfl | rfl | rfl | rfl
  · exact s.exists_filled_built hs hb h0 hv
  · exact s.exists_filled_single hs hb h0 hv
  · rw [← (s.staged hf).entered.other b h0] at hv ⊢
    exact ⟨_, .refl _, s.exists_filled_bound hs hf hb h0 hv⟩
  · exact ⟨_, .refl _, s.exists_filled_bound hs hf hb h0 hv⟩

/-- What a block does not bind at some stage, it did not bind before the joins were split. -/
theorem binding?_single_eq_none (hf : f.Ready) {e : Routine} (he : e ∈ s.undelivered) {b : BlockId}
    (hb : b ∈ s.single.graph.order) (h0 : b ≠ entry) {v : Var}
    (hv : (e.block b).binding? v = none) :
    (s.single.block b).binding? v = none := by
  have hstaged := s.staged hf
  have hlt := hs.split.closed.lt_of_mem_order hb
  have hbound : (s.bound.block b).binding? v = none → (s.single.block b).binding? v = none := by
    intro hnone
    by_cases hj : s.single.graph.IsJoin s.needs b
    · rw [hstaged.block_join hj, hs.split.binding?_join hj (hs.ready.nodup b),
        Option.or_eq_none_iff] at hnone
      exact hnone.1
    · rwa [hstaged.block_other hlt h0 hj] at hnone
  simp only [undelivered, List.mem_cons, List.not_mem_nil, or_false] at he
  rcases he with rfl | rfl | rfl | rfl
  · rw [s.single_eq, size_addExit] at hlt
    rcases Nat.lt_succ_iff_lt_or_eq.mp hlt with hlt | rfl
    · rwa [(s.sameCode_single hlt).binding]
    · rw [s.single_eq, block_addExit_exit]
      simp [Block.binding?]
  · exact hv
  · exact hbound (by rwa [hstaged.entered.other b h0])
  · exact hbound hv

end Stages

/-- Lowering a well-formed routine resolves each read that waits to the register that all
predecessors hand over. Say that at some stage before delivery a reachable block of the body waits
for a variable, or that it needs the variable for its successors. Then in the final routine the
block has predecessors and all of them bind the variable to one register `r`, every operand of the
block that named the variable is `r`, and the block binds the variable to `r` unless it had a
binding of its own. -/
theorem lower_hands_over {f : Routine} (hf : f.WellFormed) {slots : List Slot} {F : Routine}
    {l : Lowered} (h : f.lower slots = .ok (F, .ok l)) :
    ∃ s : Stages f slots F l, F.analyze = .ok s.graph ∧
      ∀ e ∈ s.undelivered, ∀ b ∈ s.graph.order, b ≠ entry →
        ∀ v, v ∈ (e.block b).params ∨ v ∈ s.needs.of b → s.graph.preds b ≠ [] ∧
          ∃ r, (∀ p ∈ s.graph.preds b, (F.block p).binding? v = some r) ∧
            (∀ i k, (e.block b).operandAt? i = some (.param k) → (e.block b).params[k]? = some v →
              (F.block b).operandAt? i = some (.reg r)) ∧
            ((e.block b).binding? v = none → (F.block b).binding? v = some r) := by
  obtain ⟨s⟩ := exists_stages h
  have hready := hf.growing.ready hf.closed
  obtain ⟨into, hs, harrives⟩ := s.exists_settled hready
  refine ⟨s, s.analyze_final, fun e he b hb h0 v hv => ?_⟩
  have hb' : b ∈ s.split.graph.order := s.graph_eq ▸ hb
  obtain ⟨r, hr, hbinding⟩ : ∃ r, into b v = some r ∧
      ((e.block b).binding? v = none → (F.block b).binding? v = some r) := by
    rcases hv with hv | hv
    · -- in the end the block waits for nothing, so what it waited for came in
      obtain ⟨x, hx, hfilled⟩ := s.exists_filled hs hready he hb h0 hv
      have hparams := hfilled.params
      rw [hs.waits b hb', eq_comm, List.filter_eq_nil_iff, hx.params] at hparams
      obtain ⟨r, hr⟩ : ∃ r, into b v = some r := by
        simpa [Option.ne_none_iff_exists'] using hparams v hv
      exact ⟨r, hr, fun hnone => by rw [hfilled.binding, hx.binding, hnone, Option.none_or, hr]⟩
    · obtain ⟨r, hr⟩ := harrives b h0 v hv
      have ho := ((mem_of_iff hs.split.needs).mp hv).mem_order
      refine ⟨r, hr, fun hnone => ?_⟩
      have hsingle := s.binding?_single_eq_none hs hready he ho h0 hnone
      rw [(hs.old b ho h0).binding, (Block.sameCode_mapLabel _ _).binding, hsingle,
        Option.none_or, hr]
  obtain ⟨p, hp⟩ := hs.split.closed'.exists_pred hb' h0
  rw [s.graph_eq]
  refine ⟨List.ne_nil_of_mem hp, r, fun q hq => hs.flows b q hq v r hr, fun i k hi hk => ?_,
    hbinding⟩
  obtain ⟨x, hx, hfilled⟩ := s.exists_filled hs hready he hb h0 (List.mem_of_getElem? hk)
  refine hfilled.operandAt? ((hx.operand i).trans hi) ?_ hr
  simp only [Operand.ref, hx.params, hk]

/-- The loop is a join in its final form too. -/
theorem lower_loopRoutine_join : ∃ F l g, loopRoutine.lower loopSlots = .ok (F, .ok l) ∧
    F.analyze = .ok g ∧ 1 ∈ g.order ∧ (g.preds 1).length = 2 := by
  obtain ⟨F, l, h, hrun⟩ := exists_lowered loopRoutine loopSlots
    (fun F _ => F.analyze.toOption.any fun g => 1 ∈ g.order ∧ (g.preds 1).length = 2)
      (by decide +kernel)
  cases hg : F.analyze with
  | error e => simp [hg, Except.toOption] at hrun
  | ok g => exact ⟨F, l, g, h, hg, by simpa [hg, Except.toOption] using hrun⟩

/-- Block 1 of the loop reads `x` first. Its two predecessors, the blocks on the edges into the
loop, hand it over in one register. -/
theorem loopRoutine_hands_over : loopRoutine.WellFormed ∧ ∃ F l g,
    loopRoutine.lower loopSlots = .ok (F, .ok l) ∧ F.analyze = .ok g ∧ (g.preds 1).length = 2 ∧
      ∃ r, (∀ p ∈ g.preds 1, (F.block p).binding? 0 = some r) ∧
        (loopRoutine.block 1).operandAt? 0 = some (.param 0) ∧
        (F.block 1).operandAt? 0 = some (.reg r) ∧
        (F.block 1).binding? 0 = some r := by
  obtain ⟨F, l, g, h, hg, hmem, hlen⟩ := lower_loopRoutine_join
  obtain ⟨s, hs, hands⟩ := lower_hands_over wellFormed_loopRoutine h
  cases hg.symm.trans hs
  obtain ⟨-, r, hpreds, hreads, hbinds⟩ := hands loopRoutine (.head _) 1 hmem (by decide) 0
    (.inl (by decide +kernel))
  have hread : (loopRoutine.block 1).operandAt? 0 = some (.param 0) := by decide +kernel
  exact ⟨wellFormed_loopRoutine, F, l, s.graph, h, hg, hlen, r, hpreds, hread,
    hreads 0 0 hread (by decide +kernel), hbinds (by decide +kernel)⟩

end ProcCompiler
