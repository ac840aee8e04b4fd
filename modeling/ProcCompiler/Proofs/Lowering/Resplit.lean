import ProcCompiler.Proofs.Lowering.SplitNeeds
import ProcCompiler.Proofs.Lowering.Stages
import ProcCompiler.Proofs.Lowering.Subdivision
import ProcCompiler.Proofs.Routine.Made
/-!
# Joins are split once

When the joins are split, the graph and the needs can be taken anew. A block with several
predecessors then needs nothing: if it was a join, it binds what it needed, and otherwise it needed
nothing before. All other old blocks need what they needed. So no join is left, and the pass run
again has nothing to do.

* `Routine.splitJoins_eq_self`: the pass without a join.
* `SplitOf.two_le_length_preds`: a join keeps several predecessors.
* `SplitOf.again_eq_nil`, `SplitOf.mem_again_iff`: the needs that are found a second time.
* `splitJoins_idempotent`: the pass run again.
-/
namespace ProcCompiler

/-- Without a join the pass changes nothing. -/
theorem Routine.splitJoins_eq_self {f : Routine} {g : FlowGraph} {n : Needs}
    (h : ∀ b ∈ g.order, ¬ g.IsJoin n b) :
    f.splitJoins g n = .ok (f, []) := by
  obtain ⟨s, hs, rfl⟩ := foldlM_ok (splitJoin g n) (fun _ s => s = (f, [])) g.order (f, []) rfl (by
    rintro done b rest s hb rfl
    have hskip : (g.preds b).length < 2 ∨ n.of b = [] := by
      by_contra hj
      rw [not_or, Nat.not_lt] at hj
      exact h b (by rw [hb]; simp) hj
    exact ⟨_, by simp only [splitJoin, if_pos hskip], rfl⟩)
  exact hs

namespace SplitOf

variable {f f' : Routine} {n n' : Needs} (h : SplitOf f n f')

include h

/-- A join keeps several predecessors: the blocks of its edges. -/
theorem two_le_length_preds {b : BlockId} (hj : f.graph.IsJoin n b) :
    2 ≤ (f'.graph.preds b).length := by
  by_contra hlt
  rw [Nat.not_le] at hlt
  refine absurd hj.1
    (Nat.not_le.mpr (FlowGraph.length_preds_lt_two (Routine.nodup_order f) fun p hp q hq => ?_))
  have hp' := (h.mem_preds_join hj).mpr ⟨p, hp, rfl⟩
  have hq' := (h.mem_preds_join hj).mpr ⟨q, hq, rfl⟩
  have he := edgeId_inj (h.mem_edges.mpr ⟨hj, hp⟩) (FlowGraph.preds_unique hlt hp' hq')
  exact congrArg Edge.source he

variable (hd : f.Distinct) (hn : f'.needs f'.graph = .ok n')

include hd hn

/-- A block with several predecessors needs nothing any more. -/
theorem again_eq_nil {b : BlockId} (hb : 2 ≤ (f'.graph.preds b).length) : n'.of b = [] := by
  refine List.eq_nil_iff_forall_not_mem.mpr fun v hv => ?_
  exact absurd ((h.served hd).length_preds ((Routine.mem_of_iff hn).mp hv)) (Nat.not_lt.mpr hb)

/-- The other blocks need what they needed. -/
theorem mem_again_iff {b : BlockId} (hb : b < f.blocks.size) (hj : ¬ f.graph.IsJoin n b) {v : Var} :
    v ∈ n'.of b ↔ v ∈ n.of b := by
  rw [Routine.mem_of_iff hn]
  refine ⟨fun hv => ?_, (h.served hd).needed_old hj⟩
  rcases (h.served hd).needed_cases hv with ⟨-, -, hv⟩ | ⟨e, -, rfl, -⟩
  · exact hv
  · exact absurd hb (Nat.not_lt.mpr (le_edgeId f n e))

end SplitOf

/-- Whatever routine is made, if its graph can be taken and no reached block waits for a negative
variable, its joins are split once and for all. The graph and the needs can be taken anew, a reached
block with several predecessors then needs nothing, every other old block needs what it needed, and
the pass run again adds no block and changes nothing. -/
theorem splitJoins_idempotent {f : Routine} {g : FlowGraph} (hf : f.Made) (hg : f.analyze = .ok g)
    (hv : ∀ b ∈ g.order, ∀ v ∈ (f.block b).params, 0 ≤ v) :
    ∃ n f' edges g' n', f.needs g = .ok n ∧ f.splitJoins g n = .ok (f', edges) ∧
      f'.analyze = .ok g' ∧
      f'.needs g' = .ok n' ∧
      (∀ b ∈ g'.order, 2 ≤ (g'.preds b).length → n'.of b = []) ∧
      (∀ b < f.blocks.size, ¬ (b ∈ g'.order ∧ 2 ≤ (g'.preds b).length) → ∀ v, v ∈ n'.of b ↔
        v ∈ n.of b) ∧
      f'.splitJoins g' n' = .ok (f', []) := by
  have hd := hf.distinct
  obtain ⟨n, hn⟩ := Routine.exists_needs hv
  obtain rfl := Routine.eq_graph_of_analyze hg
  obtain ⟨f', hs, -⟩ := splitJoins_spec (Routine.closed_of_analyze hg) (Routine.nodup_sites hn)
  obtain ⟨hsplit, -⟩ := Routine.splitOf_of_splitJoins hg hn hs
  obtain ⟨n', hn'⟩ := (hsplit.served hd).exists_needs hv
  refine ⟨n, f', _, f'.graph, n', hn, hs, hsplit.closed'.analyze_eq, hn',
    fun b _ => hsplit.again_eq_nil hd hn', ?_, ?_⟩
  · intro b hb hmany v
    refine hsplit.mem_again_iff hd hn' hb fun hj => hmany ⟨?_, hsplit.two_le_length_preds hj⟩
    exact (hsplit.mem_order_old hb).mpr (hsplit.isJoin_mem_order hj)
  · exact Routine.splitJoins_eq_self fun b _ hj => hj.2 (hsplit.again_eq_nil hd hn' hj.1)

/-- The three edges into block 1 and the two into block 3 are split, and a second pass finds nothing
to split. -/
theorem splitJoins_idempotent_knot : knotRoutine.Made ∧ ∃ g, knotRoutine.analyze = .ok g ∧
    (∀ b ∈ g.order, ∀ v ∈ (knotRoutine.block b).params, 0 ≤ v) ∧
    ∃ n f' g' n', knotRoutine.needs g = .ok n ∧ g.IsJoin n 1 ∧ g.IsJoin n 3 ∧
      knotRoutine.splitJoins g n = .ok (f', [6, 7, 8, 9, 10]) ∧ f'.analyze = .ok g' ∧
        f'.needs g' = .ok n' ∧
      (∀ b ∈ g'.order, 2 ≤ (g'.preds b).length → n'.of b = []) ∧
      (∀ b < 6, ¬ (b ∈ g'.order ∧ 2 ≤ (g'.preds b).length) → ∀ v, v ∈ n'.of b ↔ v ∈ n.of b) ∧
      f'.splitJoins g' n' = .ok (f', []) := by
  have hf : knotRoutine.Made := History.made "knot" knotCalls
  have hrun : (do
      let g ← knotRoutine.analyze
      let n ← knotRoutine.needs g
      let r ← knotRoutine.splitJoins g n
      return decide ((∀ b ∈ g.order, ∀ v ∈ (knotRoutine.block b).params, 0 ≤ v) ∧ g.IsJoin n 1 ∧
        g.IsJoin n 3 ∧
        r.2 = [6, 7, 8, 9, 10]) : Except Violation Bool) = .ok true := by
    decide +kernel
  obtain ⟨g, hg, hrun⟩ := ok_of_bind hrun
  obtain ⟨n, hn, hrun⟩ := ok_of_bind hrun
  obtain ⟨⟨f', edges⟩, hs, hrun⟩ := ok_of_bind hrun
  obtain ⟨hv, h1, h3, rfl⟩ := of_decide_eq_true (Except.ok.inj hrun)
  obtain ⟨m, f₂, es, g', n', hm, hs', h⟩ := splitJoins_idempotent hf hg hv
  obtain rfl := Except.ok.inj (hn.symm.trans hm)
  obtain ⟨rfl, rfl⟩ := Prod.mk.inj (Except.ok.inj (hs.symm.trans hs'))
  exact ⟨hf, g, hg, hv, n, f', g', n', hn, h1, h3, hs, h⟩

end ProcCompiler
