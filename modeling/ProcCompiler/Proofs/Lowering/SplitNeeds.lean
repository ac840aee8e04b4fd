import ProcCompiler.Proofs.Block.Receive
import ProcCompiler.Proofs.Graph.Needs
import ProcCompiler.Proofs.Lowering.SplitGraph
/-!
# What is needed once the joins are split

A join that was split waits for nothing and binds what it needed, so needs no longer flow back
through it; the blocks of its edges wait in its place. The same becomes true of the entry when its
arguments are bound. Such blocks are served (`Served`). All others need what they needed before.

* `SplitOf.params_join`, `SplitOf.binding?_join`: a join after the pass.
* `Served`: the joins, and perhaps the entry, have what they needed.
* `Served.needed_cases`, `Served.needed_old`, `Served.needed_edge`: what is needed now.
* `Served.preds_unique`: what needs something has one predecessor.
-/
namespace ProcCompiler

theorem lookup_zip_map {α β : Type} [BEq α] [LawfulBEq α] (h : α → β) (a : α) :
    ∀ l : List α, (l.zip (l.map h)).lookup a = if l.contains a then some (h a) else none
  | [] => rfl
  | b :: l => by
    simp only [List.map_cons, List.zip_cons_cons, List.lookup_cons, List.contains_cons,
      lookup_zip_map h a l]
    by_cases hab : a = b
    · subst hab; simp
    · have : (a == b) = false := by simpa using hab
      simp [this]

/-- The registers that a join receives. -/
def Routine.joinInto (f : Routine) (n : Needs) (b : BlockId) (v : Var) : Option Reg :=
  if v ∈ n.of b then some (f.shared n b v) else none

namespace SplitOf

variable {f f₂ : Routine} {n : Needs} (h : SplitOf f n f₂)

include h

theorem mem_of_param {b : BlockId} {v : Var} (hb : b ∈ f.graph.order)
    (hv : v ∈ (f.block b).params) :
    v ∈ n.of b := (Routine.mem_of_iff h.needs).mpr (.param hb hv)

/-- A variable that a successor needs is bound or needed. -/
theorem mem_of_back {b t : BlockId} {v : Var} (hb : b ∈ f.graph.preds t) (hv : v ∈ n.of t)
    (hfree : (f.block b).binding? v = none) : v ∈ n.of b :=
  (Routine.mem_of_iff h.needs).mpr (.back hb hfree ((Routine.mem_of_iff h.needs).mp hv))

/-- A join is filled with its shared registers. -/
theorem filled_join {b : BlockId} (hj : f.graph.IsJoin n b) (hn : (f.block b).params.Nodup) :
    Block.Filled ((f.block b).mapLabel (f.viaLabel n b)) (f₂.block b) (f.joinInto n b) := by
  have hd : (((n.of b).zip ((n.of b).map (f.shared n b))).map Prod.fst).Nodup := by
    rw [List.map_fst_zip (by simp)]
    exact Needs.nodup_of (Routine.nodup_sites h.needs) b
  have key := Block.filled_receiveAll (b := (f.block b).mapLabel (f.viaLabel n b)) hn hd
  rw [← h.block_join hj] at key
  have heq : (fun v => ((n.of b).zip ((n.of b).map (f.shared n b))).lookup v) = f.joinInto n b := by
    funext v
    rw [lookup_zip_map, Routine.joinInto]
    simp
  rwa [heq] at key

/-- A join waits for nothing. -/
theorem params_join {b : BlockId} (hj : f.graph.IsJoin n b) (hn : (f.block b).params.Nodup) :
    (f₂.block b).params = [] := by
  rw [(h.filled_join hj hn).params, List.filter_eq_nil_iff]
  intro v hv
  simp [Routine.joinInto, h.mem_of_param (h.isJoin_mem_order hj) hv]

theorem binding?_join {b : BlockId} (hj : f.graph.IsJoin n b) (hn : (f.block b).params.Nodup)
    (v : Var) :
    (f₂.block b).binding? v = ((f.block b).binding? v).or (f.joinInto n b v) :=
  (h.filled_join hj hn).binding v

theorem binding?_join_ne_none {b : BlockId} (hj : f.graph.IsJoin n b)
    (hn : (f.block b).params.Nodup) {v : Var} (hv : v ∈ n.of b) :
    (f₂.block b).binding? v ≠ none := by
  rw [h.binding?_join hj hn, Routine.joinInto, if_pos hv]
  simp

/-- A block that needs something and is no join has one predecessor at most. -/
theorem length_preds_other {b : BlockId} (hb : b < f.blocks.size) (hj : ¬ f.graph.IsJoin n b)
    (hv : n.of b ≠ []) :
    (f₂.graph.preds b).length < 2 := by
  have hlen : (f.graph.preds b).length < 2 := Nat.lt_of_not_le fun hp => hj ⟨hp, hv⟩
  refine FlowGraph.length_preds_lt_two (Routine.nodup_order f₂) fun p hp q hq => ?_
  rw [h.mem_preds_other hb hj] at hp hq
  exact FlowGraph.preds_unique hlen hp hq

end SplitOf

/-- The block of an edge binds what it moves. -/
theorem binding?_edgeBlock {vs : List Var} (hn : vs.Nodup) (shared : Var → Reg) (t : BlockId)
    (v : Var) :
    (edgeBlock vs (vs.map shared) t).binding? v = if v ∈ vs then some (shared v) else none := by
  have hfst : (vs.zip (vs.map shared)).map Prod.fst = vs := List.map_fst_zip (by simp)
  show (Std.ExtTreeMap.ofList (vs.zip (vs.map shared)))[v]? = _
  split
  · rename_i hv
    refine Std.ExtTreeMap.getElem?_ofList_of_mem (k := v) Std.ReflOrd.compare_self ?_ ?_
    · have hp : (vs.zip (vs.map shared)).Pairwise fun a b => a.1 ≠ b.1 := by
        rw [← List.pairwise_map, hfst]
        exact hn
      exact hp.imp fun hne heq => hne (Std.LawfulEqOrd.eq_of_compare heq)
    · obtain ⟨i, hi, rfl⟩ := List.getElem_of_mem hv
      exact List.mem_iff_getElem.mpr ⟨i, by simpa using hi, by simp⟩
  · rename_i hv
    apply Std.ExtTreeMap.getElem?_ofList_of_contains_eq_false
    rw [hfst]
    simpa using hv

/-! ## Served blocks -/

/-- `f₂` is `f` with its joins split, and `f₃` is a later stage with the same jumps. The joins and
perhaps the entry are served: they wait for nothing and bind what they needed. The other blocks are
as they were, up to jumps. -/
structure Served (f : Routine) (n : Needs) (f₂ f₃ : Routine) (served : BlockId → Prop) : Prop where
  split : SplitOf f n f₂
  join : ∀ b, f.graph.IsJoin n b → served b
  only : ∀ b, served b → b = entry ∨ f.graph.IsJoin n b
  params : ∀ b, served b → (f₃.block b).params = []
  bound : ∀ b, served b → ∀ v ∈ n.of b, (f₃.block b).binding? v ≠ none
  kept : ∀ b, served b → ∀ v, (f₃.block b).binding? v = none → (f.block b).binding? v = none
  other : ∀ b < f.blocks.size, ¬ served b → ∃ ρ, f₃.block b = (f.block b).mapLabel ρ
  edge : ∀ e ∈ f.edges n, f₃.block (f.edgeId n e) =
    edgeBlock (n.of e.target) ((n.of e.target).map (f.shared n e.target)) e.target

/-- After the pass the joins are served. -/
theorem SplitOf.served {f f₂ : Routine} {n : Needs} (h : SplitOf f n f₂)
    (hn : ∀ b, (f.block b).params.Nodup) :
    Served f n f₂ f₂ (f.graph.IsJoin n) where
  split := h
  join _ hj := hj
  only _ hj := .inr hj
  params b hj := h.params_join hj (hn b)
  bound b hj _ hv := h.binding?_join_ne_none hj (hn b) hv
  kept b hj v hfree := by
    rw [h.binding?_join hj (hn b), Option.or_eq_none_iff] at hfree
    exact hfree.1
  other _ hb hj := ⟨_, h.block_other hb hj⟩
  edge _ he := h.block_edge he

namespace Served

variable {f f₂ f₃ : Routine} {n : Needs} {served : BlockId → Prop} (h : Served f n f₂ f₃ served)

include h

theorem params_other {b : BlockId} (hb : b < f.blocks.size) (hs : ¬ served b) :
    (f₃.block b).params = (f.block b).params := by
  obtain ⟨ρ, hρ⟩ := h.other b hb hs
  rw [hρ]
  rfl

theorem binding?_other {b : BlockId} (hb : b < f.blocks.size) (hs : ¬ served b) (v : Var) :
    (f₃.block b).binding? v = (f.block b).binding? v := by
  obtain ⟨ρ, hρ⟩ := h.other b hb hs
  rw [hρ]
  rfl

/-- A block that does not bind what its successor needs is not served, and needed it itself. -/
theorem unbound_pred {p t : BlockId} {v : Var} (hp : p ∈ f.graph.preds t) (hv : v ∈ n.of t)
    (hfree : (f₃.block p).binding? v = none) : ¬ served p ∧ v ∈ n.of p := by
  by_cases hs : served p
  · exact absurd hfree (h.bound p hs v (h.split.mem_of_back hp hv (h.kept p hs v hfree)))
  · rw [h.binding?_other (h.split.closed.lt_of_mem_order (FlowGraph.mem_preds.mp hp).1) hs] at hfree
    exact ⟨hs, h.split.mem_of_back hp hv hfree⟩

/-- What is needed now was needed at a block that is not served, or at the join that an edge leads
to. -/
theorem needed_cases {b : BlockId} {v : Var} (hb : Routine.Needed f₃ f₂.graph b v) :
    (b < f.blocks.size ∧ ¬ served b ∧ v ∈ n.of b) ∨ ∃ e ∈ f.edges n, b = f.edgeId n e ∧
      v ∈ n.of e.target := by
  induction hb with
  | @param b v hb hv =>
    rcases h.split.old_or_edge (h.split.closed'.lt_of_mem_order hb) with hlt | ⟨e, he, rfl⟩
    · have hs : ¬ served b := fun hs => by
        rw [h.params b hs] at hv
        cases hv
      rw [h.params_other hlt hs] at hv
      exact .inl ⟨hlt, hs, h.split.mem_of_param ((h.split.mem_order_old hlt).mp hb) hv⟩
    · rw [h.edge e he] at hv
      exact .inr ⟨e, he, rfl, hv⟩
  | @back p b v hp hfree _ ih =>
    have key : ∀ {t}, p ∈ f.graph.preds t → v ∈ n.of t → p < f.blocks.size ∧ ¬ served p ∧
        v ∈ n.of p :=
      fun hpt hv =>
        ⟨h.split.closed.lt_of_mem_order (FlowGraph.mem_preds.mp hpt).1, h.unbound_pred hpt hv hfree⟩
    left
    rcases ih with ⟨hlt, hs, hv⟩ | ⟨e, he, rfl, hv⟩
    · exact key ((h.split.mem_preds_other hlt fun hj => hs (h.join b hj)).mp hp) hv
    · rw [h.split.mem_preds_edge he] at hp
      exact key (hp ▸ (h.split.mem_edges.mp he).2) hv

theorem not_needed {b : BlockId} (hb : b < f.blocks.size) (hs : served b) {v : Var} :
    ¬ Routine.Needed f₃ f₂.graph b v := by
  intro hn
  rcases h.needed_cases hn with ⟨-, hns, -⟩ | ⟨e, -, rfl, -⟩
  · exact hns hs
  · exact absurd hb (Nat.not_lt.mpr (le_edgeId f n e))

/-- The block of an edge needs what the join needed. -/
theorem needed_edge {e : Edge} (he : e ∈ f.edges n) {v : Var} (hv : v ∈ n.of e.target) :
    Routine.Needed f₃ f₂.graph (f.edgeId n e) v :=
  .param (h.split.edge_mem_order he) (by rw [h.edge e he]; exact hv)

/-- A block that is not served still needs what it needed. -/
theorem needed_old {b : BlockId} {v : Var} (hs : ¬ served b) (hv : v ∈ n.of b) :
    Routine.Needed f₃ f₂.graph b v := by
  induction (Routine.mem_of_iff h.split.needs).mp hv with
  | @param b v hb hp =>
    have hlt := h.split.closed.lt_of_mem_order hb
    exact .param ((h.split.mem_order_old hlt).mpr hb) (by rw [h.params_other hlt hs]; exact hp)
  | @back p b v hp hfree hn ih =>
    obtain ⟨hpo, hsucc⟩ := FlowGraph.mem_preds.mp hp
    have hfree' : (f₃.block p).binding? v = none := by
      rw [h.binding?_other (h.split.closed.lt_of_mem_order hpo) hs]; exact hfree
    have hvb := (Routine.mem_of_iff h.split.needs).mpr hn
    by_cases hjb : f.graph.IsJoin n b
    · have he : (⟨p, b⟩ : Edge) ∈ f.edges n := h.split.mem_edges.mpr ⟨hjb, hp⟩
      exact .back ((h.split.mem_preds_edge he).mpr rfl) hfree' (h.needed_edge he hvb)
    · have hb := h.split.closed.succ_mem hsucc
      have hsb : ¬ served b := fun hsb => (h.only b hsb).elim hb.1 hjb
      exact .back ((h.split.mem_preds_other hb.2 hjb).mpr hp) hfree' (ih hsb hvb)

/-- What needs something has one predecessor at most. -/
theorem length_preds {b : BlockId} {v : Var} (hn : Routine.Needed f₃ f₂.graph b v) :
    (f₂.graph.preds b).length < 2 := by
  rcases h.needed_cases hn with ⟨hlt, hs, hv⟩ | ⟨e, he, rfl, -⟩
  · exact h.split.length_preds_other hlt (fun hj => hs (h.join b hj)) (List.ne_nil_of_mem hv)
  · refine FlowGraph.length_preds_lt_two (Routine.nodup_order f₂) fun p hp q hq => ?_
    rw [h.split.mem_preds_edge he] at hp hq
    rw [hp, hq]

theorem preds_unique {b : BlockId} {v : Var} (hn : Routine.Needed f₃ f₂.graph b v) :
    ∀ p ∈ f₂.graph.preds b, ∀ q ∈ f₂.graph.preds b, p = q := fun _ hp _ hq =>
  FlowGraph.preds_unique (h.length_preds hn) hp hq

/-- No block waits for a negative variable if none did. -/
theorem nonneg (hv : ∀ b ∈ f.graph.order, ∀ v ∈ (f.block b).params, 0 ≤ v) {b : BlockId}
    (hb : b ∈ f₂.graph.order) {v : Var} (hvb : v ∈ (f₃.block b).params) : 0 ≤ v := by
  have key : ∀ {c}, v ∈ n.of c → 0 ≤ v := by
    intro c hc
    obtain ⟨d, hd, hvd⟩ := ((Routine.mem_of_iff h.split.needs).mp hc).exists_param
    exact hv d hd v hvd
  rcases h.needed_cases (.param hb hvb) with ⟨-, -, hn⟩ | ⟨e, -, -, hn⟩
  · exact key hn
  · exact key hn

/-- The needs can be found a second time. -/
theorem exists_needs (hv : ∀ b ∈ f.graph.order, ∀ v ∈ (f.block b).params, 0 ≤ v) :
    ∃ n', f₃.needs f₂.graph = .ok n' := Routine.exists_needs fun _ hb _ hvb => h.nonneg hv hb hvb

end Served

end ProcCompiler
